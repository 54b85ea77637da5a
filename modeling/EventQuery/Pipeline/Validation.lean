import EventQuery.Schema.Entity

/-!
# Validation

Every leaf must name a field that the schema knows and compare it with an operator that the field
accepts. A leaf without an operand asks for the presence or absence of a value, which every field
answers, and only equality and inequality ask that.
-/

namespace EventQuery

/-- The field may be compared as the leaf does. -/
def Field.accepts (f : Field) (l : Leaf) : Bool :=
  match l.operand with
  | some _ => f.allows l.operator
  | none => l.operator == .equal || l.operator == .notEqual

namespace EntitySchema

/-- The field of a valid leaf. -/
def checkLeaf (s : EntitySchema) (l : Leaf) : Except QueryError Field := do
  let f ← s.resolve l.path
  if f.accepts l then return f
  else throw (.invalidOperator l.path.text l.operator f.type)

/-- Every leaf is valid; otherwise the error is that of the first that is not. -/
def validate (s : EntitySchema) (c : Criterion) : Except QueryError Unit :=
  c.leaves.forM fun l => do let _ ← s.checkLeaf l

end EntitySchema

end EventQuery
