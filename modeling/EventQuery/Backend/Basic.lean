import EventQuery.Backend.Wildcard
import EventQuery.Pipeline.Validation

/-!
# Backends

A backend turns criteria into the predicates of a storage engine. It is given one leaf at a time,
with what the schema knows about it, and joins what it made.

Before that a criterion is *prepared*: brought into the form all backends expect. The leaves are
checked; the operand of a containment test gets its wildcards; a text counts as absent when it is
empty; and a leaf that excludes events speaks of single elements only, so that the lists on its path
are pinned to their default elements.
-/

namespace EventQuery

/-- What the schema says about a leaf that is compiled. -/
structure LeafContext where
  entity : String
  field : Field
  /-- The positions of the lists on the path of which no element is picked. -/
  openLists : List Nat

/-- The leaf may designate several values. -/
def LeafContext.isAmbiguous (x : LeafContext) : Bool := !x.openLists.isEmpty

/-- A backend that answers in a monad. -/
structure BackendM (m : Type → Type) (ε : Type) where
  name : String
  compileLeaf : Leaf → LeafContext → m ε
  /-- Joins the predicates of two or more criteria. -/
  combine : Connective → List ε → m ε

/-- A backend that answers with a predicate or an error. -/
abbrev Backend := BackendM (Except QueryError)

namespace EntitySchema

/-- The leaf, with its path pinned if it excludes events and may designate several values. -/
def pinLeaf (s : EntitySchema) (l : Leaf) : Leaf :=
  if l.isNegative && s.isAmbiguous l.path then { l with path := s.pin l.path } else l

/-- A leaf in the form that backends expect. -/
def prepareLeaf (s : EntitySchema) (l : Leaf) : Except QueryError Criterion := do
  let f ← s.checkLeaf l
  let l := s.pinLeaf l
  match l.operand with
  | some v =>
    if l.operator.isContainment then
      let pattern := Wildcard.surround v.plainText
      return .leaf { l with operand := some (.text (String.ofList pattern)) }
    else return .leaf l
  | none =>
    if l.operator = .equal ∧ f.type = .text then
      return (Criterion.leaf l).or (.leaf ⟨l.path, .equal, some (.text "")⟩)
    else return .leaf l

/-- A criterion in the form that backends expect, which is a normal form too. -/
def prepare (s : EntitySchema) (c : Criterion) : Except QueryError Criterion := do
  return (← c.mapLeaves s.prepareLeaf).flatten

/-! ## Lowering -/

section Lowering

variable {m : Type → Type} [Monad m] [MonadLiftT (Except QueryError) m]

/-- The predicate for a leaf. -/
def lowerLeaf (s : EntitySchema) (b : BackendM m ε) (l : Leaf) : m ε := do
  let field ← s.resolve l.path
  b.compileLeaf l { entity := s.name, field, openLists := s.openLists l.path }

/-- The predicate for the predicates of operands; there is none without operands, and a single one
stands for itself. -/
def lowerJoin (b : BackendM m ε) (c : Connective) : List ε → m (Option ε)
  | [] => return none
  | [e] => return some e
  | es => some <$> b.combine c es

mutual

/-- The predicate for a prepared criterion, if it is a condition at all. -/
def lower (s : EntitySchema) (b : BackendM m ε) : Criterion → m (Option ε)
  | .empty => return none
  | .leaf l => some <$> s.lowerLeaf b l
  | .join c cs => do
    let es ← lowerAll s b cs
    lowerJoin b c es

def lowerAll (s : EntitySchema) (b : BackendM m ε) : List Criterion → m (List ε)
  | [] => return []
  | a :: as => do
    let e ← lower s b a
    let es ← lowerAll s b as
    return e.toList ++ es

end

end Lowering

/-- Compiles a criterion. Without a result there is no restriction. -/
def compile (s : EntitySchema) (b : Backend ε) (c : Criterion) : Except QueryError (Option ε) := do
  s.lower b (← s.prepare c)

end EntitySchema

end EventQuery
