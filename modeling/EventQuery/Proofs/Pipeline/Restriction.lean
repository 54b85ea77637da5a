import EventQuery.Proofs.Backend.Lowering
import EventQuery.Proofs.Pipeline.Expansion
import EventQuery.Proofs.Pipeline.Flattening

/-!
# When nothing is left of a restriction

A compiled criterion is no restriction only where no leaf is left of it. Of all that happens to a
criterion on its way only the expansion of logical fields can lose leaves: a logical field without
targets stands for nothing, and a comparison with it becomes no condition. Strictness makes no
difference, and neither do preparation, flattening and lowering.
-/

namespace EventQuery

namespace EntitySchema

variable (s : EntitySchema)

/-- The leaf is on a logical field without targets. -/
def StandsForNothing (l : Leaf) : Prop := ∃ e, s.expansion? l.path.text = some e ∧ e.targets = []

instance (l : Leaf) : Decidable (s.StandsForNothing l) :=
  decidable_of_iff ((s.expansion? l.path.text).any (·.targets.isEmpty))
    (by simp [StandsForNothing, Option.any_eq_true])

theorem leaves_expandLeaf_of_some {l : Leaf} {e : Expansion}
    (h : s.expansion? l.path.text = some e) (lenient : Bool) :
    (s.expandLeaf lenient l).leaves = e.targets.map fun p => s.adapt lenient (e.leafOn l p) := by
  rw [s.expandLeaf_of_some h, Criterion.leaves_foldl_combine, Criterion.leaves_empty,
    List.nil_append, List.flatMap_map]
  exact List.flatMap_singleton' _

theorem leaves_expandLeaf_eq_nil_iff (lenient : Bool) (l : Leaf) :
    (s.expandLeaf lenient l).leaves = [] ↔ s.StandsForNothing l := by
  cases h : s.expansion? l.path.text with
  | none => simp [s.expandLeaf_of_none h, StandsForNothing, h]
  | some e => simp [s.leaves_expandLeaf_of_some h, StandsForNothing, h]

/-- Expansion leaves nothing exactly where every leaf stands for nothing. -/
theorem leaves_expand_eq_nil_iff (lenient : Bool) (c : Criterion) :
    (s.expand lenient c).leaves = [] ↔ ∀ l ∈ c.leaves, s.StandsForNothing l := by
  rw [expand, Criterion.leaves_flatten, Criterion.leaves_substitute, List.flatMap_eq_nil_iff]
  exact forall₂_congr fun l _ => s.leaves_expandLeaf_eq_nil_iff lenient l

end EntitySchema

/-- The standard pipeline and a backend make no restriction of a criterion exactly where each of its
leaves is on a logical field without targets. -/
theorem Pipeline.run_compile_eq_none_iff (options : CompileOptions) (s : EntitySchema)
    (b : Backend ε) (c : Criterion) :
    (Pipeline.run (Pipeline.standard options) s c >>= s.compile b) = .ok none ↔
      ∀ l ∈ c.leaves, s.StandsForNothing l := by
  rw [← s.leaves_expand_eq_nil_iff options.lenient]
  constructor
  · intro h
    obtain ⟨expanded, hrun, hcompile⟩ := bind_eq_ok_iff.1 h
    obtain ⟨-, rfl⟩ := run_standard_eq_ok_iff.1 hrun
    exact (s.eq_none_iff_of_compile_ok hcompile).1 rfl
  · intro h
    have hempty : s.expand options.lenient c = .empty :=
      (Criterion.isFlat_flatten _).eq_empty_of_leaves_eq_nil h
    rw [run_standard, hempty]
    rfl

end EventQuery
