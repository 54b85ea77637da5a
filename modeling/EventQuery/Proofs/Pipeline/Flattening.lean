import EventQuery.Pipeline.Basic
import EventQuery.Proofs.Backend.Preparation

/-!
# Compilation sees the normal form only

Criteria that were put together by hand or loaded from storage need not be flat: a join may have
empty operands, a single operand or none, or operands that are joins by the same connective. All
that happens to a criterion on its way to a backend gives the same answer for its normal form, the
error included.

Errors come from leaves, which flattening keeps; the rest is substitution in leaves, which commutes
with flattening.
-/

namespace EventQuery

namespace EntitySchema

variable (s : EntitySchema)

theorem prepare_flatten (c : Criterion) : s.prepare c.flatten = s.prepare c := by
  rw [prepare_eq, prepare_eq, Criterion.flatten_substitute_flatten, Criterion.tryLeaves,
    Criterion.leaves_flatten, Criterion.tryLeaves]

theorem compile_flatten (b : Backend ε) (c : Criterion) :
    s.compile b c.flatten = s.compile b c := by
  rw [compile, compile, prepare_flatten]

theorem expand_flatten (lenient : Bool) (c : Criterion) :
    s.expand lenient c.flatten = s.expand lenient c :=
  Criterion.flatten_substitute_flatten (s.expandLeaf lenient) c

end EntitySchema

namespace Pipeline

/-- The standard pipeline changes a criterion only by expansion, and refuses what does not validate
then. -/
theorem run_standard (options : CompileOptions) (s : EntitySchema) (c : Criterion) :
    run (standard options) s c =
      (s.validate (s.expand options.lenient c)).map fun _ => s.expand options.lenient c := by
  simp only [run, standard, List.foldlM_cons, List.foldlM_nil, Pass.expand, Pass.validate, bind,
    Except.bind]
  cases s.validate (s.expand options.lenient c) <;> rfl

theorem run_standard_eq_ok_iff {options : CompileOptions} {s : EntitySchema} {c r : Criterion} :
    run (standard options) s c = .ok r ↔
      s.validate r = .ok () ∧ s.expand options.lenient c = r := by
  rw [run_standard, map_eq_ok_iff]
  constructor
  · rintro ⟨⟨⟩, valid, rfl⟩
    exact ⟨valid, rfl⟩
  · rintro ⟨valid, rfl⟩
    exact ⟨(), valid, rfl⟩

theorem run_standard_flatten (options : CompileOptions) (s : EntitySchema) (c : Criterion) :
    run (standard options) s c.flatten = run (standard options) s c := by
  rw [run_standard, run_standard, s.expand_flatten]

end Pipeline

/-- Preparation, compilation through any backend and the standard pipeline in either mode answer
for a criterion what they answer for its normal form. -/
theorem compilation_of_normal_form (s : EntitySchema) (c : Criterion) :
    s.prepare c = s.prepare c.flatten ∧
      (∀ (ε : Type) (b : Backend ε), s.compile b c = s.compile b c.flatten) ∧
      ∀ options : CompileOptions,
        Pipeline.run (Pipeline.standard options) s c =
          Pipeline.run (Pipeline.standard options) s c.flatten :=
  ⟨(s.prepare_flatten c).symm, fun _ b => (s.compile_flatten b c).symm,
    fun options => (Pipeline.run_standard_flatten options s c).symm⟩

end EventQuery
