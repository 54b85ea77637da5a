import EventQuery.Backend.Basic
import EventQuery.Proofs.Criterion.Substitution
import EventQuery.Proofs.Grammar.Paths

/-!
# What preparation makes of a leaf

A valid leaf is prepared to one leaf, except that an absence test on a field of text becomes an
alternative of two. Pinning picks elements of lists and nothing else, so that a prepared leaf
belongs to the field of the leaf it was made from.
-/

namespace EventQuery

theorem Path.canonical_mapSegments (p : Path) {f : Nat → Segment → Segment}
    (names : ∀ n x, (f n x).name = x.name) : (p.mapSegments f).canonical = p.canonical := by
  ext1
  rw [Path.segments_canonical, Path.segments_canonical, Path.segments_mapSegments]
  refine List.ext_getElem (by simp) fun n hn hn' => ?_
  simp [names]

namespace Leaf

/-- The leaf with wildcards in the operand of a containment test. -/
def withWildcards (l : Leaf) : Leaf :=
  if l.operator.isContainment then
    { l with
      operand := l.operand.map fun v => .text (String.ofList (Wildcard.surround v.plainText)) }
  else l

/-- Wildcards are put in once. -/
@[simp] theorem withWildcards_withWildcards (l : Leaf) :
    l.withWildcards.withWildcards = l.withWildcards := by
  by_cases h : l.operator.isContainment = true
  · simp [withWildcards, h, Function.comp_def]
  · simp [withWildcards, h]

@[simp] theorem withWildcards_path (l : Leaf) : l.withWildcards.path = l.path := by
  unfold withWildcards
  split <;> rfl

@[simp] theorem withWildcards_operator (l : Leaf) : l.withWildcards.operator = l.operator := by
  unfold withWildcards
  split <;> rfl

@[simp] theorem isSome_operand_withWildcards (l : Leaf) :
    l.withWildcards.operand.isSome = l.operand.isSome := by
  unfold withWildcards
  split
  · exact Option.isSome_map
  · rfl

theorem withWildcards_of_operand_none {l : Leaf} (h : l.operand = none) :
    l.withWildcards = l := by
  obtain ⟨path, operator, operand⟩ := l
  subst h
  unfold withWildcards
  split <;> rfl

end Leaf

namespace EntitySchema

variable (s : EntitySchema)

theorem resolve_ok_iff {p : Path} {f : Field} : s.resolve p = .ok f ↔ s.field? p = some f := by
  unfold resolve
  cases s.field? p <;> simp

/-- The indices of a path do not matter to its field. -/
theorem field?_congr {p q : Path} (h : p.canonical = q.canonical) : s.field? p = s.field? q := by
  rw [field?, field?, h]

@[simp] theorem canonical_pin (p : Path) : (s.pin p).canonical = p.canonical := by
  refine p.canonical_mapSegments fun n x => ?_
  cases s.list? (p.upTo n) with
  | none => rfl
  | some spec => cases h : x.isExplicit <;> rfl

@[simp] theorem canonical_pinLeaf (l : Leaf) :
    (s.pinLeaf l).path.canonical = l.path.canonical := by
  unfold pinLeaf
  split <;> simp

@[simp] theorem pinLeaf_operator (l : Leaf) : (s.pinLeaf l).operator = l.operator := by
  unfold pinLeaf
  split <;> rfl

@[simp] theorem pinLeaf_operand (l : Leaf) : (s.pinLeaf l).operand = l.operand := by
  unfold pinLeaf
  split <;> rfl

theorem checkLeaf_ok_iff {l : Leaf} {f : Field} :
    s.checkLeaf l = .ok f ↔ s.field? l.path = some f ∧ f.accepts l = true := by
  rw [← resolve_ok_iff, checkLeaf]
  cases s.resolve l.path with
  | error e => simp [bind, Except.bind]
  | ok g =>
      simp only [bind, Except.bind, Except.ok.injEq]
      by_cases hg : g.accepts l = true
      · rw [if_pos hg]
        constructor
        · intro h
          cases h
          exact ⟨rfl, hg⟩
        · rintro ⟨rfl, -⟩
          rfl
      · rw [if_neg hg]
        constructor
        · intro h
          cases h
        · rintro ⟨rfl, h⟩
          exact absurd h hg

/-! ## The prepared leaves -/

/-- The leaf in the form that backends expect: pinned, and with wildcards in the operand of a
containment test. -/
def preparedLeaf (l : Leaf) : Leaf := (s.pinLeaf l).withWildcards

/-- The leaf asks for the absence of a value at a field of text. -/
def isTextAbsence (l : Leaf) : Bool :=
  l.operand.isNone && l.operator == .equal && (s.field? l.path).any (·.type == .text)

/-- The comparison with the empty text that goes with an absence test. -/
def emptyTextLeaf (l : Leaf) : Leaf := ⟨(s.pinLeaf l).path, .equal, some (.text "")⟩

/-- The leaves that a valid leaf is prepared to. -/
def preparedLeaves (l : Leaf) : List Leaf :=
  if s.isTextAbsence l then [s.preparedLeaf l, s.emptyTextLeaf l] else [s.preparedLeaf l]

theorem preparedLeaves_of_textAbsence {l : Leaf} (h : s.isTextAbsence l = true) :
    s.preparedLeaves l = [s.preparedLeaf l, s.emptyTextLeaf l] := if_pos h

theorem preparedLeaves_of_other {l : Leaf} (h : s.isTextAbsence l = false) :
    s.preparedLeaves l = [s.preparedLeaf l] := by
  rw [preparedLeaves, h, if_neg Bool.false_ne_true]

@[simp] theorem preparedLeaf_path (l : Leaf) : (s.preparedLeaf l).path = (s.pinLeaf l).path :=
  Leaf.withWildcards_path _

@[simp] theorem preparedLeaf_operator (l : Leaf) : (s.preparedLeaf l).operator = l.operator := by
  rw [preparedLeaf, Leaf.withWildcards_operator, pinLeaf_operator]

@[simp] theorem isSome_operand_preparedLeaf (l : Leaf) :
    (s.preparedLeaf l).operand.isSome = l.operand.isSome := by
  rw [preparedLeaf, Leaf.isSome_operand_withWildcards, pinLeaf_operand]

theorem mem_preparedLeaves {l m : Leaf} (h : l ∈ s.preparedLeaves m) :
    l = s.preparedLeaf m ∨ s.isTextAbsence m = true ∧ l = s.emptyTextLeaf m := by
  unfold preparedLeaves at h
  split at h
  · rename_i habsence
    rcases List.mem_cons.1 h with h | h
    · exact Or.inl h
    · exact Or.inr ⟨habsence, List.mem_singleton.1 h⟩
  · exact Or.inl (List.mem_singleton.1 h)

/-- A field accepts a prepared leaf as it accepts the leaf. -/
@[simp] theorem accepts_preparedLeaf (f : Field) (l : Leaf) :
    f.accepts (s.preparedLeaf l) = f.accepts l := by
  have hoperand := s.isSome_operand_preparedLeaf l
  unfold Field.accepts
  rw [s.preparedLeaf_operator]
  cases hprepared : (s.preparedLeaf l).operand <;> cases hl : l.operand <;>
    simp [hprepared, hl] at hoperand ⊢

/-- What an absence test on a field of text asks. -/
theorem isTextAbsence_iff {l : Leaf} :
    s.isTextAbsence l = true ↔ l.operand = none ∧ l.operator = .equal ∧
      ∃ f, s.field? l.path = some f ∧ f.type = .text := by
  simp [isTextAbsence, Option.any_eq_true, and_assoc]

theorem path_of_mem_preparedLeaves {l m : Leaf} (h : l ∈ s.preparedLeaves m) :
    l.path = (s.pinLeaf m).path := by
  rcases s.mem_preparedLeaves h with rfl | ⟨-, rfl⟩
  · exact s.preparedLeaf_path m
  · rfl

theorem canonical_of_mem_preparedLeaves {l m : Leaf} (h : l ∈ s.preparedLeaves m) :
    l.path.canonical = m.path.canonical := by
  rw [s.path_of_mem_preparedLeaves h, canonical_pinLeaf]

theorem preparedLeaf_of_operand_none {l : Leaf} (h : l.operand = none) :
    s.preparedLeaf l = s.pinLeaf l :=
  Leaf.withWildcards_of_operand_none (by rw [pinLeaf_operand, h])

theorem prepareLeaf_of_error {l : Leaf} {e : QueryError} (h : s.checkLeaf l = .error e) :
    s.prepareLeaf l = .error e := by
  rw [prepareLeaf, h]
  rfl

theorem prepareLeaf_of_ok {l : Leaf} {f : Field} (h : s.checkLeaf l = .ok f) :
    s.prepareLeaf l = .ok (.joinAll .or ((s.preparedLeaves l).map .leaf)) := by
  have hf := (s.checkLeaf_ok_iff.1 h).1
  rw [prepareLeaf, h, preparedLeaves, isTextAbsence, hf]
  simp only [bind, Except.bind, pinLeaf_operand, pinLeaf_operator]
  cases hv : l.operand with
  | some v =>
      by_cases hc : l.operator.isContainment = true
      · simp [hc, hv, preparedLeaf, Leaf.withWildcards, Criterion.joinAll, pure, Except.pure]
      · simp [hc, preparedLeaf, Leaf.withWildcards, Criterion.joinAll, pure, Except.pure]
  | none =>
      rw [s.preparedLeaf_of_operand_none hv]
      by_cases ht : l.operator = .equal ∧ f.type = .text
      · simp [ht, Criterion.joinAll, Criterion.or, Criterion.combine, emptyTextLeaf, pure,
          Except.pure]
      · simp [ht, Criterion.joinAll, pure, Except.pure]

/-! ## The prepared criterion -/

theorem prepareLeaf_ok_iff {l : Leaf} :
    (∃ a, s.prepareLeaf l = .ok a) ↔ ∃ f, s.checkLeaf l = .ok f := by
  cases h : s.checkLeaf l with
  | error e => simp [s.prepareLeaf_of_error h]
  | ok f => simp [s.prepareLeaf_of_ok h]

theorem prepare_eq (c : Criterion) :
    s.prepare c = (Criterion.tryLeaves s.prepareLeaf c).map fun _ =>
      (c.substitute (Criterion.imageOf s.prepareLeaf)).flatten := by
  rw [prepare, Criterion.mapLeaves_eq]
  cases Criterion.tryLeaves s.prepareLeaf c <;> rfl

/-- A criterion can be prepared when its leaves are valid. The result is the normal form with the
prepared leaves in place of each. -/
theorem prepare_ok_iff {c r : Criterion} :
    s.prepare c = .ok r ↔ (∀ l ∈ c.leaves, ∃ f, s.checkLeaf l = .ok f) ∧
      (c.substitute fun l => .joinAll .or ((s.preparedLeaves l).map .leaf)).flatten = r := by
  have himage : (∀ l ∈ c.leaves, ∃ f, s.checkLeaf l = .ok f) →
      c.substitute (Criterion.imageOf s.prepareLeaf) =
        c.substitute fun l => .joinAll .or ((s.preparedLeaves l).map .leaf) := by
    intro valid
    refine Criterion.substitute_congr _ fun l hl => ?_
    obtain ⟨f, hf⟩ := valid l hl
    exact Criterion.imageOf_of_ok (s.prepareLeaf_of_ok hf)
  rw [prepare_eq]
  cases h : Criterion.tryLeaves s.prepareLeaf c with
  | error e =>
      have invalid : ¬ ∀ l ∈ c.leaves, ∃ f, s.checkLeaf l = .ok f := by
        intro valid
        have := Criterion.tryLeaves_ok_iff.2 fun l hl => s.prepareLeaf_ok_iff.2 (valid l hl)
        rw [h] at this
        cases this
      exact ⟨fun h => (nomatch h), fun h => absurd h.1 invalid⟩
  | ok u =>
      have valid : ∀ l ∈ c.leaves, ∃ f, s.checkLeaf l = .ok f := fun l hl =>
        s.prepareLeaf_ok_iff.1 (Criterion.tryLeaves_ok_iff.1 h l hl)
      rw [← himage valid, Except.map, Except.ok.injEq]
      exact ⟨fun h => ⟨valid, h⟩, fun h => h.2⟩

theorem isFlat_of_prepare_ok {c r : Criterion} (h : s.prepare c = .ok r) : r.IsFlat := by
  obtain ⟨-, rfl⟩ := s.prepare_ok_iff.1 h
  exact Criterion.isFlat_flatten _

theorem leaves_of_prepare_ok {c r : Criterion} (h : s.prepare c = .ok r) :
    r.leaves = c.leaves.flatMap s.preparedLeaves := by
  obtain ⟨-, rfl⟩ := s.prepare_ok_iff.1 h
  rw [Criterion.leaves_flatten, Criterion.leaves_substitute]
  simp [List.flatMap_map]

/-- A leaf of the prepared criterion was made from one that is valid. -/
theorem exists_leaf_of_prepare_ok {c r : Criterion} (h : s.prepare c = .ok r) {l : Leaf}
    (hl : l ∈ r.leaves) :
    ∃ m ∈ c.leaves, l ∈ s.preparedLeaves m ∧ ∃ f, s.checkLeaf m = .ok f := by
  rw [s.leaves_of_prepare_ok h] at hl
  obtain ⟨m, hm, hl⟩ := List.mem_flatMap.1 hl
  exact ⟨m, hm, hl, (s.prepare_ok_iff.1 h).1 m hm⟩

/-- Prepared leaves have fields. -/
theorem resolve_of_prepare_ok {c r : Criterion} (h : s.prepare c = .ok r) :
    ∀ l ∈ r.leaves, ∃ f, s.resolve l.path = .ok f := by
  intro l hl
  obtain ⟨m, -, hl, f, hf⟩ := s.exists_leaf_of_prepare_ok h hl
  refine ⟨f, s.resolve_ok_iff.2 ?_⟩
  rw [s.field?_congr (s.canonical_of_mem_preparedLeaves hl), (s.checkLeaf_ok_iff.1 hf).1]

/-- A prepared leaf has a field, which accepts it unless it was added to an absence test. -/
theorem accepts_of_prepare_ok {c r : Criterion} (h : s.prepare c = .ok r) {l : Leaf}
    (hl : l ∈ r.leaves) :
    ∃ f, s.field? l.path = some f ∧
      (f.accepts l = true ∨
        f.type = .text ∧ ∃ m ∈ c.leaves, s.isTextAbsence m = true ∧ l = s.emptyTextLeaf m) := by
  obtain ⟨m, hm, hl, f, hf⟩ := s.exists_leaf_of_prepare_ok h hl
  obtain ⟨hfield, haccepts⟩ := s.checkLeaf_ok_iff.1 hf
  refine ⟨f, by rw [s.field?_congr (s.canonical_of_mem_preparedLeaves hl), hfield], ?_⟩
  rcases s.mem_preparedLeaves hl with rfl | ⟨habsence, hl⟩
  · exact Or.inl (by rw [s.accepts_preparedLeaf, haccepts])
  · obtain ⟨-, -, g, hg, htype⟩ := s.isTextAbsence_iff.1 habsence
    cases hfield.symm.trans hg
    exact Or.inr ⟨htype, m, hm, habsence, hl⟩

/-- The paths of a prepared criterion have field names, as those have that were read. -/
theorem hasFieldNames_of_prepare_ok {c r : Criterion} (h : s.prepare c = .ok r)
    (parsed : ∀ l ∈ c.leaves, ∃ text, Path.parse text = .ok l.path) :
    ∀ l ∈ r.leaves, l.path.HasFieldNames := by
  intro l hl
  obtain ⟨m, hm, hl, -⟩ := s.exists_leaf_of_prepare_ok h hl
  obtain ⟨text, hm⟩ := parsed m hm
  rw [← Path.hasFieldNames_canonical, s.canonical_of_mem_preparedLeaves hl,
    Path.hasFieldNames_canonical]
  exact Path.hasFieldNames_of_parse hm

end EntitySchema

end EventQuery
