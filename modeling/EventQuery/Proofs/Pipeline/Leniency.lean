import EventQuery.Proofs.Pipeline.Restriction
import EventQuery.Proofs.Pipeline.Validation

/-!
# Leniency changes operators only

In lenient mode expansion is followed, leaf by leaf, by the replacement of operators that a field
does not accept. Connectives are chosen before, from the leaves as they were written, so that the
lenient expansion is the strict one with other operators on some of its leaves. A criterion that is
valid as it stands has no such leaf, and nothing changes.
-/

namespace EventQuery

namespace EntitySchema

variable (s : EntitySchema)

/-- The leaf compares its field by an operator that the field does not accept. -/
def forbids (l : Leaf) : Bool :=
  l.operand.isSome && (s.field? l.path).any fun f => !f.allows l.operator

/-- The leaf with equality, or inequality if it is negated, for an operator that its field does not
accept. Tests for a value are left alone. -/
def downgrade (l : Leaf) : Leaf :=
  if s.forbids l then { l with operator := if l.operator.isNegated then .notEqual else .equal }
  else l

/-! ## One leaf -/

variable {s} {l : Leaf}

/-- What the field accepts is not replaced, and neither is a test for a value: it may have an
operator that the field does not list, but one that would be replaced by itself. -/
theorem relax_of_accepts {f : Field} (hf : s.field? l.path = some f) (h : f.accepts l = true) :
    s.relax l = l := by
  obtain ⟨path, operator, operand⟩ := l
  simp only [relax, hf]
  cases operand with
  | some v => exact if_pos h
  | none =>
      have hoperator : operator = .equal ∨ operator = .notEqual := by
        simpa [Field.accepts] using h
      obtain rfl | rfl := hoperator <;> exact ite_self _

theorem relax_of_operand {v : Value} (h : l.operand = some v) : s.relax l = s.downgrade l := by
  rw [relax, downgrade, forbids, h]
  cases s.field? l.path with
  | none => rfl
  | some f => cases hallows : f.allows l.operator <;> simp [hallows]

theorem downgrade_of_operand_eq_none (h : l.operand = none) : s.downgrade l = l := by
  rw [downgrade, forbids, h]
  rfl

variable (s l)

@[simp] theorem downgrade_path : (s.downgrade l).path = l.path := by
  unfold downgrade
  split <;> rfl

@[simp] theorem downgrade_operand : (s.downgrade l).operand = l.operand := by
  unfold downgrade
  split <;> rfl

@[simp] theorem isNegative_downgrade : (s.downgrade l).isNegative = l.isNegative := by
  have hnegated : (s.downgrade l).operator.isNegated = l.operator.isNegated := by
    unfold downgrade
    split
    · cases l.operator.isNegated <;> rfl
    · rfl
  rw [Leaf.isNegative, Leaf.isNegative, downgrade_operand, hnegated]

variable {s l}

/-- A field that accepts equality and inequality accepts every comparison after the downgrade. -/
theorem accepts_downgrade {f : Field} (hf : s.field? l.path = some f)
    (plain : f.allows .equal = true ∧ f.allows .notEqual = true)
    (tests : l.operand = none → l.operator = .equal ∨ l.operator = .notEqual) :
    f.accepts (s.downgrade l) = true := by
  cases hoperand : l.operand with
  | none =>
      rw [downgrade_of_operand_eq_none hoperand]
      simpa [Field.accepts, hoperand] using tests hoperand
  | some v =>
      have hallows : f.allows (s.downgrade l).operator = true := by
        unfold downgrade
        split
        · cases l.operator.isNegated
          · exact plain.1
          · exact plain.2
        · simp_all [forbids]
      simpa [Field.accepts, hoperand] using hallows

/-! ## Whole criteria -/

theorem expandLeaf_lenient (s : EntitySchema) (l : Leaf) :
    s.expandLeaf true l = (s.expandLeaf false l).relabel s.relax := by
  cases h : s.expansion? l.path.text with
  | none =>
      rw [s.expandLeaf_of_none h, s.expandLeaf_of_none h]
      rfl
  | some e =>
      rw [s.expandLeaf_of_some h, s.expandLeaf_of_some h, Criterion.relabel_foldl_combine,
        List.map_map, List.map_map, List.map_map]
      rfl

/-- Lenient expansion is strict expansion with the leaves relaxed. -/
theorem expand_lenient (s : EntitySchema) (c : Criterion) :
    s.expand true c = (s.expand false c).relabel s.relax := by
  rw [expand, expand, ← Criterion.flatten_relabel, Criterion.relabel_substitute]
  exact congrArg (fun g => (c.substitute g).flatten) (funext s.expandLeaf_lenient)

/-- A leaf of the strict expansion has the operator of a leaf that was written, and an operand if
that one has. -/
theorem exists_leaf_of_mem_expand {c : Criterion} {m : Leaf} (h : m ∈ (s.expand false c).leaves) :
    ∃ l ∈ c.leaves, m.operator = l.operator ∧ m.operand.isSome = l.operand.isSome := by
  rw [expand, Criterion.leaves_flatten, Criterion.leaves_substitute] at h
  obtain ⟨l, hl, hm⟩ := List.mem_flatMap.1 h
  refine ⟨l, hl, ?_⟩
  cases he : s.expansion? l.path.text with
  | none =>
      rw [s.expandLeaf_of_none he] at hm
      cases List.mem_singleton.1 hm
      exact ⟨rfl, rfl⟩
  | some e =>
      rw [s.leaves_expandLeaf_of_some he] at hm
      obtain ⟨p, -, rfl⟩ := List.mem_map.1 hm
      exact ⟨rfl, Option.isSome_map⟩

/-- Every field accepts equality and inequality when every declared one does, for a field that is
not declared has the operators of its type. -/
theorem allows_of_field? (plain : ∀ p f, s.fields.get? p = some f →
      f.allows .equal = true ∧ f.allows .notEqual = true) {p : Path} {f : Field}
    (h : s.field? p = some f) : f.allows .equal = true ∧ f.allows .notEqual = true := by
  unfold field? at h
  split at h
  · rename_i hg
    cases h
    exact plain _ f hg
  · obtain ⟨type, -, rfl⟩ := Option.map_eq_some_iff.1 h
    cases type <;> decide

end EntitySchema

namespace Pipeline

variable {s : EntitySchema} {c r : Criterion}

/-- What passes the strict pipeline passes the lenient one unchanged. -/
theorem run_lenient_of_run_strict (h : run (standard ⟨false⟩) s c = .ok r) :
    run (standard ⟨true⟩) s c = .ok r := by
  obtain ⟨valid, rfl⟩ := run_standard_eq_ok_iff.1 h
  have hrelax : ∀ l ∈ (s.expand false c).leaves, s.relax l = id l := by
    intro l hl
    obtain ⟨f, hf, haccepts⟩ := s.validate_ok_iff.1 valid l hl
    exact EntitySchema.relax_of_accepts hf haccepts
  refine run_standard_eq_ok_iff.2 ⟨valid, ?_⟩
  rw [EntitySchema.expand_lenient, Criterion.relabel_congr _ hrelax, Criterion.relabel_id]

theorem run_lenient_of_resolves
    (plain : ∀ p f, s.fields.get? p = some f → f.allows .equal = true ∧ f.allows .notEqual = true)
    (tests : ∀ l ∈ c.leaves, l.operand = none → l.operator = .equal ∨ l.operator = .notEqual)
    (resolves : ∀ l ∈ (s.expand false c).leaves, ∃ f, s.resolve l.path = .ok f) :
    run (standard ⟨true⟩) s c = .ok ((s.expand false c).relabel s.downgrade) := by
  have hleaf : ∀ l ∈ (s.expand false c).leaves, ∃ f, s.field? l.path = some f ∧
      f.accepts (s.downgrade l) = true ∧ s.relax l = s.downgrade l := by
    intro l hl
    obtain ⟨f, hf⟩ := resolves l hl
    have hfield := s.resolve_ok_iff.1 hf
    obtain ⟨m, hm, hoperator, hoperand⟩ := EntitySchema.exists_leaf_of_mem_expand hl
    have htests : l.operand = none → l.operator = .equal ∨ l.operator = .notEqual := by
      intro hnone
      rw [hoperator]
      apply tests m hm
      rwa [hnone, eq_comm, Option.isSome_none, Option.isSome_eq_false_iff,
        Option.isNone_iff_eq_none] at hoperand
    have haccepts := EntitySchema.accepts_downgrade hfield
      (EntitySchema.allows_of_field? plain hfield) htests
    refine ⟨f, hfield, haccepts, ?_⟩
    cases hl : l.operand with
    | some v => exact EntitySchema.relax_of_operand hl
    | none =>
        rw [EntitySchema.downgrade_of_operand_eq_none hl] at haccepts ⊢
        exact EntitySchema.relax_of_accepts hfield haccepts
  refine run_standard_eq_ok_iff.2 ⟨s.validate_ok_iff.2 ?_, ?_⟩
  · rw [Criterion.leaves_relabel]
    refine List.forall_mem_map.2 fun l hl => ?_
    obtain ⟨f, hf, haccepts, -⟩ := hleaf l hl
    exact ⟨f, by rw [EntitySchema.downgrade_path, hf], haccepts⟩
  · rw [EntitySchema.expand_lenient]
    exact Criterion.relabel_congr _ fun l hl => (hleaf l hl).choose_spec.2.2

/-- Lenient mode only relaxes operators. It gives what strict mode gives where that succeeds. And
where the fields accept equality and inequality and the paths of the strict expansion exist, it
succeeds: the result is the strict expansion with the leaves downgraded that compare a field by an
operator it does not accept, which keep their paths, their operands and their polarity. -/
theorem lenient_relaxes_operators (s : EntitySchema) (c : Criterion) :
    (∀ r, run (standard ⟨false⟩) s c = .ok r → run (standard ⟨true⟩) s c = .ok r) ∧
      ((∀ p f, s.fields.get? p = some f → f.allows .equal = true ∧ f.allows .notEqual = true) →
        (∀ l ∈ c.leaves, l.operand = none → l.operator = .equal ∨ l.operator = .notEqual) →
        (∀ l ∈ (s.expand false c).leaves, ∃ f, s.resolve l.path = .ok f) →
        run (standard ⟨true⟩) s c = .ok ((s.expand false c).relabel s.downgrade)) ∧
      ∀ l : Leaf, (s.downgrade l).path = l.path ∧ (s.downgrade l).operand = l.operand ∧
        (s.downgrade l).isNegative = l.isNegative :=
  ⟨fun _ => run_lenient_of_run_strict, run_lenient_of_resolves,
    fun l => ⟨s.downgrade_path l, s.downgrade_operand l, s.isNegative_downgrade l⟩⟩

/-- A title stands for a field of text and one of numbers. What it contains is looked for in the
text, and is compared with the number. -/
theorem lenient_relaxes_operators_title :
    let name : Path := .single "name"
    let size : Path := .single "size"
    let s : EntitySchema :=
      { ((EntitySchema.empty "event").declareField name (.ofType .text)).declareField size
          (.ofType .integer) with
        expansions := (∅ : Table String Expansion).insert "title" (.ofTargets [name, size]) }
    let contains (negated : Bool) (p : Path) : Leaf :=
      ⟨p, .comparison (.relation .contains negated false), some (.text "7")⟩
    let c : Criterion := .join .and
      [.leaf (contains false (.single "title")), .leaf (contains true size), .leaf (.absent name)]
    let d : Criterion := .leaf (contains true name)
    s.forbids (contains true size) = true ∧ run (standard ⟨false⟩) s d = .ok d ∧
      run (standard ⟨true⟩) s d = .ok d ∧
      run (standard ⟨true⟩) s c = .ok (.join .and
        [.join .or [.leaf (contains false name), .leaf ⟨size, .equal, some (.text "7")⟩],
          .leaf ⟨size, .notEqual, some (.text "7")⟩, .leaf (.absent name)]) := by
  intro name size s contains c d
  obtain ⟨hstrict, hlenient, -⟩ := lenient_relaxes_operators s c
  have hd : run (standard ⟨false⟩) s d = .ok d := rfl
  have plain : ∀ p f, s.fields.get? p = some f →
      f.allows .equal = true ∧ f.allows .notEqual = true := by
    intro p f hf
    have hmem := (s.fields.mem_entries_iff p f).2 hf
    have hall : ∀ x ∈ s.fields.entries, x.2.allows .equal = true ∧ x.2.allows .notEqual = true := by
      decide
    exact hall _ hmem
  have tests : ∀ l ∈ c.leaves, l.operand = none → l.operator = .equal ∨ l.operator = .notEqual := by
    decide
  have resolves : ∀ l ∈ (s.expand false c).leaves, ∃ f, s.resolve l.path = .ok f := by
    have hall : ∀ l ∈ (s.expand false c).leaves, (s.field? l.path).isSome = true := by decide
    intro l hl
    obtain ⟨f, hf⟩ := Option.isSome_iff_exists.1 (hall l hl)
    exact ⟨f, s.resolve_ok_iff.2 hf⟩
  refine ⟨rfl, hd, (lenient_relaxes_operators s d).1 d hd, ?_⟩
  rw [hlenient plain tests resolves]
  rfl

end Pipeline

end EventQuery
