import EventQuery.Schema.Entity

/-!
# Expansion of logical fields

A leaf on a logical field becomes one leaf for each of its targets. A leaf that selects events is
replaced by an alternative, so that one target is enough; a leaf that excludes them by a
conjunction, so that each target excludes.

In lenient mode an operator that a field does not accept gives way to plain equality or inequality.
-/

namespace EventQuery

namespace EntitySchema

/-- The leaf with equality or inequality for an operator that its field does not accept. -/
def relax (s : EntitySchema) (l : Leaf) : Leaf :=
  match s.field? l.path with
  | some f =>
    if f.allows l.operator then l
    else { l with operator := if l.operator.isNegated then .notEqual else .equal }
  | none => l

/-- The leaf as the mode has it. -/
def adapt (s : EntitySchema) (lenient : Bool) (l : Leaf) : Leaf := if lenient then s.relax l else l

/-- What a leaf stands for. -/
def expandLeaf (s : EntitySchema) (lenient : Bool) (l : Leaf) : Criterion :=
  match s.expansion? l.path.text with
  | none => .leaf (s.adapt lenient l)
  | some e =>
    let onTarget (p : Path) : Criterion :=
      .leaf (s.adapt lenient { l with path := p, operand := l.operand.map e.mapOperand })
    (e.targets.map onTarget).foldl (Criterion.combine (Expansion.connective l)) .empty

/-- The normal form of a criterion with every logical field expanded. -/
def expand (s : EntitySchema) (lenient : Bool) (c : Criterion) : Criterion :=
  (c.substitute (s.expandLeaf lenient)).flatten

end EntitySchema

end EventQuery
