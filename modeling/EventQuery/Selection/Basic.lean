import EventQuery.Path.Basic
import EventQuery.Schema.ValueType
import EventQuery.Value

/-!
# Selections

What a query returns: a path, a function of other expressions or a constant, with an optional time
component to extract and commands for the result.
-/

namespace EventQuery

inductive Selection.Expr where
  | path (p : Path)
  | call (function : String) (args : List Selection.Expr)
  | constant (v : Value)

structure Selection where
  expr : Selection.Expr
  /-- The component of a time, such as `year`. -/
  extract : Option String
  /-- Such as `group_by`. -/
  commands : List String

namespace Selection.Expr

mutual

/-- The paths an expression reads, from left to right. -/
def paths : Expr → List Path
  | path p => [p]
  | call _ args => pathsOfAll args
  | constant _ => []

def pathsOfAll : List Expr → List Path
  | [] => []
  | e :: es => e.paths ++ pathsOfAll es

end

mutual

/-- Equality with constants compared as values. -/
def same : Expr → Expr → Bool
  | path p, path q => p == q
  | call f as, call g bs => f == g && sameAll as bs
  | constant v, constant w => v.same w
  | _, _ => false

def sameAll : List Expr → List Expr → Bool
  | [], [] => true
  | a :: as, b :: bs => a.same b && sameAll as bs
  | _, _ => false

end

mutual

/-- A path or constant as it is, a call with its arguments in parentheses. -/
def spelling : Expr → List Char
  | path p => p.spelling
  | call f args => f.toList ++ '(' :: (spellArgs args ++ [')'])
  | constant v => v.spelling

/-- Arguments with commas between them. -/
def spellArgs : List Expr → List Char
  | [] => []
  | [e] => e.spelling
  | e :: es => e.spelling ++ ',' :: ' ' :: spellArgs es

end

/-- The type of the result where the expression alone fixes it. -/
def returnType : Expr → Option ValueType
  | path _ => none
  | call f _ =>
    if f = "avg" then some .float
    else if f = "count" then some .integer
    else if f = "timezone" then some .datetime
    else none
  | constant _ => some .text

end Selection.Expr

namespace Selection

/-- The paths the selection reads, from left to right. -/
def paths (s : Selection) : List Path := s.expr.paths

def hasCommand (s : Selection) (command : String) : Bool := s.commands.contains command

/-- The type of the result as far as the selection fixes it: what is extracted is an integer. -/
def declaredType (s : Selection) : Option ValueType :=
  if s.extract.isSome then some .integer else s.expr.returnType

/-- Equality with constants compared as values. -/
def same (s t : Selection) : Bool :=
  s.expr.same t.expr && s.extract == t.extract && s.commands == t.commands

/-- Words with commas between them. -/
def spellWords : List String → List Char
  | [] => []
  | [w] => w.toList
  | w :: ws => w.toList ++ ',' :: spellWords ws

def spelling (s : Selection) : List Char :=
  s.expr.spelling ++
    (match s.extract with
      | none => []
      | some word => ':' :: word.toList) ++
    (if s.commands = [] then [] else '/' :: spellWords s.commands)

/-- The written form. -/
def text (s : Selection) : String := String.ofList s.spelling

instance : ToString Selection := ⟨text⟩

end Selection

end EventQuery
