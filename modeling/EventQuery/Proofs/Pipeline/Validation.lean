import EventQuery.Backend.Sqlite
import EventQuery.Proofs.Backend.Calls
import EventQuery.Proofs.Backend.CriteriaText
import EventQuery.Proofs.Pipeline.Flattening

/-!
# What validation spares a backend

A criterion is checked twice, by the pipeline and again when it is prepared for a backend. Both
checks go through its leaves from left to right and stop at the first that the schema refuses, so
they accept the same criteria and refuse the others with the same error.

Preparation changes the leaves, but a prepared leaf keeps its field, and nothing is refused on the
way from a prepared criterion to the calls of the backend. What passed the pipeline can therefore
fail only in the backend's own answers.
-/

namespace EventQuery

namespace EntitySchema

variable (s : EntitySchema)

/-- Why the schema refuses a leaf. -/
inductive Refuses (l : Leaf) : QueryError → Prop
  | unknown (h : s.field? l.path = none) : Refuses l (.unknownPath l.path.text)
  | operator {f : Field} (h : s.field? l.path = some f) (hf : f.accepts l = false) :
      Refuses l (.invalidOperator l.path.text l.operator f.type)

/-- The leftmost leaf of a criterion that the schema does not accept, and why it does not. -/
def RefusesFirst (c : Criterion) (e : QueryError) : Prop :=
  ∃ before l after, c.leaves = before ++ l :: after ∧
    (∀ m ∈ before, ∃ f, s.field? m.path = some f ∧ f.accepts m = true) ∧ s.Refuses l e

theorem checkLeaf_error_iff {l : Leaf} {e : QueryError} :
    s.checkLeaf l = .error e ↔ s.Refuses l e := by
  unfold checkLeaf resolve
  cases hfield : s.field? l.path with
  | none =>
      constructor
      · intro h
        cases h
        exact .unknown hfield
      · rintro (- | ⟨h, -⟩)
        · rfl
        · cases hfield.symm.trans h
  | some f =>
      simp only [bind, Except.bind]
      cases haccepts : f.accepts l with
      | true =>
          constructor
          · intro h
            cases h
          · rintro (h | ⟨h, hf⟩)
            · cases hfield.symm.trans h
            · cases hfield.symm.trans h
              cases haccepts.symm.trans hf
      | false =>
          constructor
          · intro h
            cases h
            exact .operator hfield haccepts
          · rintro (h | ⟨h, -⟩)
            · cases hfield.symm.trans h
            · cases hfield.symm.trans h
              rfl

/-! ## The two checks -/

/-- A leaf is prepared unless the check refuses it, whose error stands. -/
theorem discard_prepareLeaf (l : Leaf) :
    (do let _ ← s.prepareLeaf l : Except QueryError Unit) = (do let _ ← s.checkLeaf l) := by
  cases h : s.checkLeaf l with
  | error e => rw [s.prepareLeaf_of_error h]; rfl
  | ok f => rw [s.prepareLeaf_of_ok h]; rfl

theorem validate_eq_prepare (c : Criterion) :
    s.validate c = (s.prepare c).map fun _ => () := by
  have htry : Criterion.tryLeaves s.prepareLeaf c = s.validate c :=
    congrArg c.leaves.forM (funext s.discard_prepareLeaf)
  rw [prepare_eq, htry]
  cases s.validate c <;> rfl

theorem discard_checkLeaf_error_iff {l : Leaf} {e : QueryError} :
    (do let _ ← s.checkLeaf l : Except QueryError Unit) = .error e ↔ s.Refuses l e := by
  rw [← checkLeaf_error_iff]
  cases s.checkLeaf l <;> simp [bind, Except.bind, pure, Except.pure]

theorem validate_ok_iff {c : Criterion} :
    s.validate c = .ok () ↔
      ∀ l ∈ c.leaves, ∃ f, s.field? l.path = some f ∧ f.accepts l = true := by
  simp only [validate, forM_eq_ok_iff, discard_eq_ok_iff, checkLeaf_ok_iff]

theorem validate_error_iff {c : Criterion} {e : QueryError} :
    s.validate c = .error e ↔ s.RefusesFirst c e := by
  simp only [validate, forM_eq_error_iff, discard_checkLeaf_error_iff, discard_eq_ok_iff,
    checkLeaf_ok_iff, RefusesFirst]

/-! ## Calls after validation -/

/-- The error is the answer of the backend to its last call in compiling the criterion. -/
def IsBackendError (b : Backend ε) (c : Criterion) (e : QueryError) : Prop :=
  ∃ (before : List (Call ε)) (last : Call ε), (s.recordedCompile b c).2 = before ++ [last] ∧
    last.IsGenuine s b ∧ last.answer = .error e

variable {s} {b : Backend ε} {c : Criterion}

/-- A valid criterion fails to compile only where the backend does. -/
theorem isBackendError_of_compile_error (valid : s.validate c = .ok ()) {e : QueryError}
    (h : s.compile b c = .error e) : s.IsBackendError b c e := by
  rw [validate_eq_prepare] at valid
  obtain ⟨r, hr, -⟩ := map_eq_ok_iff.1 valid
  have hcalls := (recordedCompile_spec s b c).2.2 r hr
  obtain ⟨-, before, last, hrecord, hlast, -⟩ := hcalls.error e h
  have hgenuine := hcalls.genuine last (by rw [hrecord]; simp)
  exact ⟨before, last, hrecord, hgenuine, hlast⟩

/-- A backend that has an answer to every call compiles every valid criterion. -/
theorem exists_compile_ok (valid : s.validate c = .ok ())
    (leaf : ∀ l x, ∃ e, b.compileLeaf l x = .ok e) (join : ∀ k es, ∃ e, b.combine k es = .ok e) :
    ∃ e?, s.compile b c = .ok e? := by
  cases h : s.compile b c with
  | ok e? => exact ⟨e?, rfl⟩
  | error e =>
      obtain ⟨before, last, -, hgenuine, hlast⟩ := isBackendError_of_compile_error valid h
      cases last with
      | leaf l x answer =>
          obtain ⟨e', he'⟩ := leaf l x
          cases hlast.symm.trans (hgenuine.2.2.2.trans he')
      | join k es answer =>
          obtain ⟨e', he'⟩ := join k es
          cases hlast.symm.trans (hgenuine.2.trans he')

/-- Validation and preparation accept the same criteria and refuse the others with the same error,
which is that of the leftmost leaf that the schema does not accept. What comes out of the standard
pipeline fails to compile only where the backend answers its last call with an error, and criteria
text never does. -/
theorem refusals_before_backend (s : EntitySchema) :
    (∀ c, s.validate c = (s.prepare c).map fun _ => ()) ∧
      (∀ c e, s.prepare c = .error e ↔ s.RefusesFirst c e) ∧
      ∀ options a c, Pipeline.run (Pipeline.standard options) s a = .ok c →
        (∀ (ε : Type) (b : Backend ε) (e : QueryError), s.compile b c = .error e →
          s.IsBackendError b c e) ∧
        ∃ text?, s.compile Backend.criteriaText c = .ok text? := by
  refine ⟨s.validate_eq_prepare, fun c e => ?_, fun options a c hrun => ?_⟩
  · rw [← validate_error_iff, validate_eq_prepare]
    cases s.prepare c <;> simp [Except.map]
  · rw [Pipeline.run_standard] at hrun
    obtain ⟨⟨⟩, valid, rfl⟩ := map_eq_ok_iff.1 hrun
    exact ⟨fun _ _ _ h => isBackendError_of_compile_error valid h,
      exists_compile_ok valid (fun _ _ => ⟨_, rfl⟩) fun _ _ => ⟨_, rfl⟩⟩

/-- The standard pipeline lets a search by pattern pass beside a presence test; the
SQLite backend is asked about both leaves and refuses the second. -/
theorem refusals_before_backend_pattern :
    let s := (empty "event").declareField (.single "name") (.ofType .text)
    let pattern : Leaf :=
      ⟨.single "name", .comparison (.relation .regex false false), some (.text "x+")⟩
    let c : Criterion := .join .or [.leaf (.present (.single "name")), .leaf pattern]
    let refusal : QueryError := .notCompilable "sqlite" pattern.text Sqlite.Refusal.regex.reason
    Pipeline.run (Pipeline.standard ⟨false⟩) s c = .ok c ∧
      s.compile (.sqlite "document") c = .error refusal ∧
      s.IsBackendError (.sqlite "document") c refusal ∧
      ∃ text?, s.compile Backend.criteriaText c = .ok text? := by
  intro s pattern c refusal
  have hrun : Pipeline.run (Pipeline.standard ⟨false⟩) s c = .ok c := rfl
  have herror : s.compile (.sqlite "document") c = .error refusal := rfl
  obtain ⟨hbackend, htext⟩ := (refusals_before_backend s).2.2 ⟨false⟩ c c hrun
  exact ⟨hrun, herror, hbackend _ _ _ herror, htext⟩

end EntitySchema

end EventQuery
