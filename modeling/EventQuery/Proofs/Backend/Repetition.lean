import EventQuery.Proofs.Backend.Lowering
import EventQuery.Proofs.Backend.Pinning

/-!
# Preparing a prepared criterion

The rules of preparation leave what they made alone: an operand that has wildcards gets no more, a
pinned path has no open list, and the comparison with the empty text is no absence test. The absence
test itself, however, is still one. Prepared again it gets a second comparison with the empty text,
which joins the first and changes nothing but the number of leaves.

The field of an absence test need not accept the comparison that was added to it. Where it does not,
the prepared criterion cannot be prepared again.
-/

namespace EventQuery

/-- A criterion whose leaves all stand for themselves. -/
theorem Criterion.substitute_eq_self {g : Leaf → Criterion} {a : Criterion}
    (fixed : ∀ l ∈ a.leaves, g l = .leaf l) : a.substitute g = a :=
  (substitute_congr g fixed).trans (relabel_id a)

namespace EntitySchema

variable (s : EntitySchema)

/-! ## Leaves that are prepared already -/

theorem pinLeaf_of_unambiguous {l : Leaf} (h : s.isAmbiguous l.path = false) : s.pinLeaf l = l := by
  simp [pinLeaf, h]

@[simp] theorem pinLeaf_preparedLeaf (l : Leaf) :
    s.pinLeaf (s.preparedLeaf l) = s.preparedLeaf l := by
  cases h : l.isNegative with
  | true =>
      apply s.pinLeaf_of_unambiguous
      rw [preparedLeaf_path, s.pinLeaf_path_of_negative h, isAmbiguous, openLists_pin]
      rfl
  | false =>
      apply s.pinLeaf_of_positive
      rw [isNegative_preparedLeaf, h]

theorem preparedLeaf_preparedLeaf (l : Leaf) :
    s.preparedLeaf (s.preparedLeaf l) = s.preparedLeaf l := by
  rw [preparedLeaf, pinLeaf_preparedLeaf, preparedLeaf, Leaf.withWildcards_withWildcards]

@[simp] theorem isTextAbsence_preparedLeaf (l : Leaf) :
    s.isTextAbsence (s.preparedLeaf l) = s.isTextAbsence l := by
  have hnone : (s.preparedLeaf l).operand.isNone = l.operand.isNone := by
    rw [← Option.not_isSome, ← Option.not_isSome, isSome_operand_preparedLeaf]
  have hfield : s.field? (s.preparedLeaf l).path = s.field? l.path := by
    apply s.field?_congr
    rw [preparedLeaf_path, canonical_pinLeaf]
  rw [isTextAbsence, isTextAbsence, hnone, preparedLeaf_operator, hfield]

theorem emptyTextLeaf_preparedLeaf (l : Leaf) :
    s.emptyTextLeaf (s.preparedLeaf l) = s.emptyTextLeaf l := by
  rw [emptyTextLeaf, pinLeaf_preparedLeaf, preparedLeaf_path, emptyTextLeaf]

theorem preparedLeaves_preparedLeaf (l : Leaf) :
    s.preparedLeaves (s.preparedLeaf l) = s.preparedLeaves l := by
  rw [preparedLeaves, preparedLeaves, isTextAbsence_preparedLeaf, preparedLeaf_preparedLeaf,
    emptyTextLeaf_preparedLeaf]

theorem preparedLeaves_emptyTextLeaf (l : Leaf) :
    s.preparedLeaves (s.emptyTextLeaf l) = [s.emptyTextLeaf l] := by
  have hpinned : s.pinLeaf (s.emptyTextLeaf l) = s.emptyTextLeaf l :=
    s.pinLeaf_of_positive (s.isNegative_emptyTextLeaf l)
  have hprepared : s.preparedLeaf (s.emptyTextLeaf l) = s.emptyTextLeaf l := by
    rw [preparedLeaf, hpinned]
    rfl
  rw [preparedLeaves, hprepared]
  rfl

/-! ## Which prepared criteria can be prepared -/

variable {s} {c r : Criterion}

theorem emptyTextLeaf_mem_of_prepare_ok (h : s.prepare c = .ok r) {l : Leaf} (hl : l ∈ c.leaves)
    (absence : s.isTextAbsence l = true) : s.emptyTextLeaf l ∈ r.leaves := by
  rw [s.leaves_of_prepare_ok h]
  refine List.mem_flatMap.2 ⟨l, hl, ?_⟩
  simp [preparedLeaves, absence]

theorem field?_emptyTextLeaf (l : Leaf) :
    s.field? (s.emptyTextLeaf l).path = s.field? l.path :=
  s.field?_congr (s.canonical_pinLeaf l)

/-- Only the added comparisons may be refused, where the field does not accept equality. -/
theorem prepare_again_ok_iff (h : s.prepare c = .ok r) :
    (∃ r', s.prepare r = .ok r') ↔ ∀ l ∈ c.leaves, s.isTextAbsence l = true →
      ∃ f, s.field? l.path = some f ∧ f.allows .equal = true := by
  constructor
  · rintro ⟨r', hr'⟩ l hl absence
    obtain ⟨f, hf⟩ := (s.prepare_ok_iff.1 hr').1 _ (emptyTextLeaf_mem_of_prepare_ok h hl absence)
    obtain ⟨hfield, haccepts⟩ := s.checkLeaf_ok_iff.1 hf
    rw [field?_emptyTextLeaf] at hfield
    exact ⟨f, hfield, haccepts⟩
  · intro hallows
    have hvalid : ∀ l ∈ r.leaves, ∃ f, s.checkLeaf l = .ok f := by
      intro l hl
      obtain ⟨f, hfield, haccepts | ⟨-, m, hm, absence, rfl⟩⟩ := s.accepts_of_prepare_ok h hl
      · exact ⟨f, s.checkLeaf_ok_iff.2 ⟨hfield, haccepts⟩⟩
      · obtain ⟨g, hg, hequal⟩ := hallows m hm absence
        rw [← field?_emptyTextLeaf] at hg
        exact ⟨g, s.checkLeaf_ok_iff.2 ⟨hg, hequal⟩⟩
    exact ⟨_, s.prepare_ok_iff.2 ⟨hvalid, rfl⟩⟩

theorem prepare_of_fixed (h : s.prepare c = .ok r)
    (fixed : ∀ l ∈ c.leaves, s.isTextAbsence l = false) : s.prepare r = .ok r := by
  obtain ⟨r', hr'⟩ := (prepare_again_ok_iff h).2 fun l hl absence =>
    absurd absence (by rw [fixed l hl]; decide)
  obtain ⟨-, rfl⟩ := s.prepare_ok_iff.1 hr'
  have hfixed : ∀ l ∈ r.leaves,
      Criterion.joinAll .or ((s.preparedLeaves l).map .leaf) = .leaf l := by
    intro l hl
    obtain ⟨m, hm, hl, -⟩ := s.exists_leaf_of_prepare_ok h hl
    have hprepared := s.preparedLeaves_of_other (fixed m hm)
    rw [hprepared, List.mem_singleton] at hl
    rw [hl, preparedLeaves_preparedLeaf, hprepared]
    rfl
  rw [hr', Criterion.substitute_eq_self hfixed,
    Criterion.flatten_of_isFlat (s.isFlat_of_prepare_ok h)]

/-! ## What the second preparation adds -/

/-- The second list is the first with the comparison with the empty text that follows each absence
test on a field of text written twice. -/
inductive RepeatsAdded (s : EntitySchema) : List Leaf → List Leaf → Prop
  | nil : RepeatsAdded s [] []
  | keep {l : Leaf} {ls ms : List Leaf} (other : s.isTextAbsence l = false)
      (rest : RepeatsAdded s ls ms) : RepeatsAdded s (l :: ls) (l :: ms)
  | again {l : Leaf} {ls ms : List Leaf} (absence : s.isTextAbsence l = true)
      (rest : RepeatsAdded s ls ms) :
      RepeatsAdded s (l :: ⟨l.path, .equal, some (.text "")⟩ :: ls)
        (l :: ⟨l.path, .equal, some (.text "")⟩ :: ⟨l.path, .equal, some (.text "")⟩ :: ms)

theorem repeatsAdded_preparedLeaves (ls : List Leaf) :
    s.RepeatsAdded (ls.flatMap s.preparedLeaves)
      ((ls.flatMap s.preparedLeaves).flatMap s.preparedLeaves) := by
  induction ls with
  | nil => exact .nil
  | cons l ls ih =>
      rw [List.flatMap_cons, List.flatMap_append]
      cases h : s.isTextAbsence l with
      | true =>
          have hprepared := s.preparedLeaves_of_textAbsence h
          have hadded : s.emptyTextLeaf l = ⟨(s.preparedLeaf l).path, .equal, some (.text "")⟩ := by
            rw [preparedLeaf_path]
            rfl
          rw [hprepared, List.flatMap_cons, List.flatMap_cons, preparedLeaves_preparedLeaf,
            preparedLeaves_emptyTextLeaf, hprepared, hadded]
          exact .again (by rw [isTextAbsence_preparedLeaf, h]) ih
      | false =>
          have hprepared := s.preparedLeaves_of_other h
          rw [hprepared, List.flatMap_cons, preparedLeaves_preparedLeaf, hprepared]
          exact .keep (by rw [isTextAbsence_preparedLeaf, h]) ih

/-- Read through its prepared leaves twice, a leaf is as true as when it is read once. -/
theorem readLeaf_readLeaf (s : EntitySchema) (truth : Leaf → Bool) :
    s.readLeaf (s.readLeaf truth) = s.readLeaf truth := by
  funext l
  have hagain : s.readLeaf truth (s.preparedLeaf l) = s.readLeaf truth l := by
    rw [readLeaf, preparedLeaves_preparedLeaf, readLeaf]
  have hadded : s.readLeaf truth (s.emptyTextLeaf l) = truth (s.emptyTextLeaf l) := by
    simp [readLeaf, preparedLeaves_emptyTextLeaf]
  rw [s.readLeaf_eq (s.readLeaf truth), hagain, hadded, readLeaf_eq]
  cases s.isTextAbsence l <;> simp

/-- A prepared criterion is left as it is by preparation if it was made without an absence test on a
field of text. With such tests, on fields that accept equality, only the comparisons with the empty
text are added once more, and no truth of the leaves tells the two apart. -/
theorem prepare_prepared (h : s.prepare c = .ok r) :
    ((∀ l ∈ c.leaves, s.isTextAbsence l = false) → s.prepare r = .ok r) ∧
    ((∀ l ∈ c.leaves, s.isTextAbsence l = true →
        ∃ f, s.field? l.path = some f ∧ f.allows .equal = true) →
      ∃ r', s.prepare r = .ok r' ∧ (∀ truth, r'.eval truth = r.eval truth) ∧
        s.RepeatsAdded r.leaves r'.leaves) := by
  refine ⟨prepare_of_fixed h, fun hallows => ?_⟩
  obtain ⟨r', hr'⟩ := (prepare_again_ok_iff h).2 hallows
  refine ⟨r', hr', fun truth => ?_, ?_⟩
  · rw [s.eval_of_prepare_ok hr', s.eval_of_prepare_ok h, s.eval_of_prepare_ok h,
      readLeaf_readLeaf]
  · rw [s.leaves_of_prepare_ok hr', s.leaves_of_prepare_ok h]
    exact repeatsAdded_preparedLeaves c.leaves

/-- A name that does not contain a word, given as a truth value, is pinned and gets its wildcards
once. With the test for its absence beside it there are three leaves the first time and four the
second. -/
theorem prepare_prepared_name :
    let path (i : Option Index) : Path := ⟨[⟨"source", i⟩, ⟨"name", none⟩], by simp⟩
    let s := ((empty "event").declareList (.single "source") .last).declareField (path none)
      (.ofType .text)
    let without (i : Option Index) (v : Value) : Leaf :=
      ⟨path i, .comparison (.relation .contains true false), some v⟩
    let once := Criterion.leaf (without (some (.position (-1))) (.text "*true*"))
    let c := Criterion.leaf (without none (.bool true))
    let d := Criterion.join .and [c, .leaf (.absent (path (some .any)))]
    s.prepare c = .ok once ∧ s.prepare once = .ok once ∧
      ∃ r r', s.prepare d = .ok r ∧ s.prepare r = .ok r' ∧ r.leaves.length = 3 ∧
        r'.leaves.length = 4 ∧ (∀ truth, r'.eval truth = r.eval truth) ∧
        s.RepeatsAdded r.leaves r'.leaves := by
  intro path s without once c d
  have honce : s.prepare c = .ok once := by rfl
  refine ⟨honce, (prepare_prepared honce).1 (by decide), ?_⟩
  obtain ⟨r, r', hr, hr', hthree, hfour⟩ : ∃ r r', s.prepare d = .ok r ∧ s.prepare r = .ok r' ∧
      r.leaves.length = 3 ∧ r'.leaves.length = 4 := ⟨_, _, rfl, rfl, rfl, rfl⟩
  obtain ⟨r'', hr'', heval, hrepeats⟩ := (prepare_prepared hr).2 (by decide)
  cases hr'.symm.trans hr''
  exact ⟨r, r', hr, hr', hthree, hfour, heval, hrepeats⟩

end EntitySchema

end EventQuery
