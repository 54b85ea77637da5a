import EventQuery.Criterion.Basic

/-!
# Criteria as text

Operands that are joins themselves stand in parentheses, whatever their connective. The empty
criterion has no text.
-/

namespace EventQuery

/-- A comparison with its operand, or the path with a `!` in front when it asks for absence. -/
def Leaf.spelling (l : Leaf) : List Char :=
  match l.operand with
  | some v => l.path.spelling ++ ' ' :: (l.operator.token.toList ++ ' ' :: v.spelling)
  | none => if l.operator.isNegated then l.path.spelling else '!' :: l.path.spelling

def Leaf.text (l : Leaf) : String := String.ofList l.spelling

namespace Criterion

/-- The text of an operand: in parentheses if it is a join. -/
def enclose : Criterion → List Char → List Char
  | join _ _, s => '(' :: (s ++ [')'])
  | _, s => s

mutual

def spelling : Criterion → List Char
  | empty => []
  | leaf l => l.spelling
  | join c cs => spellOperands c cs

/-- Operands with the connective between them. -/
def spellOperands (c : Connective) : List Criterion → List Char
  | [] => []
  | [a] => a.enclose a.spelling
  | a :: as => a.enclose a.spelling ++ ' ' :: (c.token.toList ++ ' ' :: spellOperands c as)

end

/-- The written form. -/
def text (a : Criterion) : String := String.ofList a.spelling

instance : ToString Criterion := ⟨text⟩

end Criterion

end EventQuery
