import EventQuery.Pipeline.Expansion
import EventQuery.Proofs.Criterion.Substitution
import EventQuery.Proofs.Schema.Targets

/-!
# Expansion keeps the meaning of criteria

A leaf on a logical field says something of the field's targets: of any of them when it selects
events, of all of them when it excludes events. Read in this way a criterion means the same before
expansion as after it, in joins of any kind and depth and beside leaves on plain fields. A logical
field without targets would stand for no condition, and is left out.
-/

namespace EventQuery

/-- The leaf moved to a target. -/
def Expansion.leafOn (e : Expansion) (l : Leaf) (target : Path) : Leaf :=
  { l with path := target, operand := l.operand.map e.mapOperand }

@[simp] theorem Expansion.leafOn_path (e : Expansion) (l : Leaf) (target : Path) :
    (e.leafOn l target).path = target := rfl

@[simp] theorem Expansion.leafOn_operator (e : Expansion) (l : Leaf) (target : Path) :
    (e.leafOn l target).operator = l.operator := rfl

namespace EntitySchema

variable (s : EntitySchema)

/-- The truth of a leaf whose field may be a logical one, from the truth of leaves on targets and
plain fields. -/
def logicalTruth (v : Leaf → Bool) (l : Leaf) : Bool :=
  match s.expansion? l.path.text with
  | none => v l
  | some e =>
    if l.isNegative then e.targets.all fun p => v (e.leafOn l p)
    else e.targets.any fun p => v (e.leafOn l p)

theorem expandLeaf_of_none {l : Leaf} (h : s.expansion? l.path.text = none) (lenient : Bool) :
    s.expandLeaf lenient l = .leaf (s.adapt lenient l) := by
  rw [expandLeaf, h]

theorem expandLeaf_of_some {l : Leaf} {e : Expansion} (h : s.expansion? l.path.text = some e)
    (lenient : Bool) :
    s.expandLeaf lenient l =
      ((e.targets.map fun p => s.adapt lenient (e.leafOn l p)).map .leaf).foldl
        (Criterion.combine (Expansion.connective l)) .empty := by
  rw [expandLeaf, h, List.map_map]
  rfl

variable {s}

/-- What a leaf stands for is true as the leaf is. -/
theorem eval_expandLeaf (targeted : s.IsTargeted) (lenient : Bool) (v : Leaf → Bool) (l : Leaf) :
    (s.expandLeaf lenient l).eval v =
      some (s.logicalTruth (fun m => v (s.adapt lenient m)) l) := by
  cases h : s.expansion? l.path.text with
  | none => rw [s.expandLeaf_of_none h, logicalTruth, h, Criterion.eval_leaf]
  | some e =>
      have htargets : e.targets ≠ [] := targeted _ e h
      rw [s.expandLeaf_of_some h, Criterion.eval_foldl_combine, Criterion.truths_cons,
        Criterion.eval_empty, Option.toList_none, List.nil_append, Criterion.truths_map_leaf,
        Connective.holds?_of_ne_nil _ (by simpa using htargets), logicalTruth, h]
      cases hnegative : l.isNegative with
      | true => simp [Expansion.connective, hnegative, Connective.holds, Function.comp_def]
      | false => simp [Expansion.connective, hnegative, Connective.holds, Function.comp_def]

theorem eval_expand (targeted : s.IsTargeted) (lenient : Bool) (v : Leaf → Bool) (c : Criterion) :
    (s.expand lenient c).eval v = c.eval (s.logicalTruth fun l => v (s.adapt lenient l)) := by
  rw [expand, Criterion.eval_flatten]
  exact Criterion.eval_substitute _ fun l _ => eval_expandLeaf targeted lenient v l

/-- Strict expansion keeps the meaning of every criterion, whatever its leaves mean, and gives a
normal form. -/
theorem expand_keeps_meaning (targeted : s.IsTargeted) (c : Criterion) :
    (∀ v, (s.expand false c).eval v = c.eval (s.logicalTruth v)) ∧ (s.expand false c).IsFlat :=
  ⟨fun v => eval_expand targeted false v c, Criterion.isFlat_flatten _⟩

/-- An event type whose title stands for two fields. -/
def withTitle : EntitySchema :=
  { EntitySchema.empty "event" with
    expansions := (∅ : Table String Expansion).insert "title"
      (.ofTargets [.single "name", .single "text"]) }

/-- Of an event with a name and no text, a title is found, its absence is not. -/
theorem expand_keeps_meaning_withTitle :
    let titled : Criterion := .leaf (.present (.single "title"))
    let plain : Criterion := .leaf (.absent (.single "text"))
    let v : Leaf → Bool := fun l => l = .present (.single "name") ∨ l = .absent (.single "text")
    withTitle.IsTargeted ∧
      (withTitle.expand false (.join .and [titled, plain])).eval v = some true ∧
      (withTitle.expand false (.join .or [titled.negate, .join .and []])).eval v = some false := by
  intro titled plain v
  have targeted : withTitle.IsTargeted :=
    (isTargeted_empty "event").declareExpansion "title" (List.cons_ne_nil _ _)
  refine ⟨targeted, ?_, ?_⟩
  · rw [(expand_keeps_meaning targeted _).1 v]
    decide
  · rw [(expand_keeps_meaning targeted _).1 v]
    decide

end EntitySchema

end EventQuery
