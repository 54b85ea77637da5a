import EventQuery.Proofs.Backend.Repetition
import EventQuery.Proofs.Criterion.Algebra
import EventQuery.Proofs.Wildcard.Language

/-!
# Filters and their negations

A comparison and its opposite are never both true of an event: of a stored value one of them is, of
a missing value neither. Of the tests for presence and absence one is always true and never both.
So no criterion is true together with its negation, whatever its shape.

Filters are criteria as they are prepared, and preparation keeps a leaf and its negation apart where
no list is open, with one exception. The absence test of a field of text accepts the empty text too,
which the presence test accepts as well.
-/

namespace EventQuery

namespace OrderTest

/-- The order of texts, by characters. -/
def ordered : OrderTest → List Char → List Char → Bool
  | less, x, y => decide (x < y)
  | lessOrEqual, x, y => !decide (y < x)
  | greater, x, y => decide (y < x)
  | greaterOrEqual, x, y => !decide (x < y)

theorem ordered_negate (o : OrderTest) (x y : List Char) :
    o.negate.ordered x y = !o.ordered x y := by
  cases o <;> simp [negate, ordered]

end OrderTest

/-- What an event stores, and which comparisons the stored values pass. -/
structure StoredValues (α : Type) where
  value? : Path → Option α
  compare : Path → Operator → Value → α → Bool
  /-- Of an operator and its opposite a value passes one. -/
  compare_negate : ∀ p o v x, compare p o.negate v x = !compare p o v x

namespace StoredValues

variable {α : Type} (d : StoredValues α)

/-- The truth of a leaf. What is missing passes no comparison. -/
def holds (l : Leaf) : Bool :=
  match l.operand with
  | some v => (d.value? l.path).any (d.compare l.path l.operator v)
  | none => (d.value? l.path).isSome == l.operator.isNegated

/-- The event is among those that the criterion selects; no condition selects all. -/
def selects (c : Criterion) : Bool := (c.eval d.holds).getD true

/-- The value at the path equals the empty text. -/
def storesEmptyText (p : Path) : Bool := (d.value? p).any (d.compare p .equal (.text ""))

/-- Stored texts. Containment is by wildcards and `regex` decides whether a pattern is found. The
connectives compare nothing, and get opposite answers because they are opposites. -/
def ofTexts (text? : Path → Option (List Char)) (regex : List Char → List Char → Bool) :
    StoredValues (List Char) where
  value? := text?
  compare _ o v x :=
    match o with
    | .comparison (.relation r negated caseless) =>
      let fold (t : List Char) := if caseless then t.map Char.toLower else t
      negated ^^ match r with
        | .equal => fold x == fold v.plainText
        | .contains => Wildcard.globAccepts (Wildcard.toGlob (fold v.plainText)) (fold x)
        | .regex => regex (fold v.plainText) (fold x)
    | .comparison (.order o) => o.ordered x v.plainText
    | .connective c => c == .or
  compare_negate _ o v x := by
    match o with
    | .comparison (.relation r negated caseless) => exact Bool.not_xor negated _
    | .comparison (.order o) => exact o.ordered_negate x v.plainText
    | .connective c => cases c <;> rfl

theorem holds_of_operand {l : Leaf} {v : Value} (h : l.operand = some v) :
    d.holds l = (d.value? l.path).any (d.compare l.path l.operator v) := by
  rw [holds, h]

theorem holds_of_no_operand {l : Leaf} (h : l.operand = none) :
    d.holds l = ((d.value? l.path).isSome == l.operator.isNegated) := by
  rw [holds, h]

/-- A leaf and its negation are not both true. -/
theorem holds_negate_of_holds {l : Leaf}
    (turned : l.operand = none → l.operator.negate.isNegated = !l.operator.isNegated)
    (h : d.holds l = true) : d.holds l.negate = false := by
  cases hoperand : l.operand with
  | none =>
      rw [d.holds_of_no_operand hoperand, beq_iff_eq] at h
      rw [d.holds_of_no_operand (l := l.negate) hoperand, l.negate_path, l.negate_operator,
        turned hoperand, h]
      cases l.operator.isNegated <;> rfl
  | some v =>
      rw [d.holds_of_operand hoperand, Option.any_eq_true] at h
      obtain ⟨x, hx, hpasses⟩ := h
      rw [d.holds_of_operand (l := l.negate) hoperand, l.negate_path, l.negate_operator, hx,
        Option.any_some, d.compare_negate, hpasses, Bool.not_true]

end StoredValues

theorem Leaf.withWildcards_negate (l : Leaf) :
    l.negate.withWildcards = l.withWildcards.negate := by
  by_cases h : l.operator.isContainment = true
  · simp [withWildcards, h, negate]
  · simp [withWildcards, negate_operator, h]

namespace EntitySchema

variable (s : EntitySchema) {α : Type} (d : StoredValues α) {l : Leaf}

/-- On a path without open lists a leaf and its negation are prepared alike. -/
theorem preparedLeaf_negate (h : s.isAmbiguous l.path = false) :
    s.preparedLeaf l.negate = (s.preparedLeaf l).negate := by
  rw [preparedLeaf, preparedLeaf, s.pinLeaf_of_unambiguous h,
    s.pinLeaf_of_unambiguous (l := l.negate) h, Leaf.withWildcards_negate]

/-- Where the empty text is not stored, the comparison that an absence test gets changes nothing. -/
theorem readLeaf_of_no_empty_text
    (filled : s.isTextAbsence l = true → d.holds (s.emptyTextLeaf l) = false) :
    s.readLeaf d.holds l = d.holds (s.preparedLeaf l) := by
  rw [readLeaf_eq]
  cases h : s.isTextAbsence l with
  | false => simp
  | true => simp [filled h]

variable {d}

theorem isNegated_negate_of_accepts {f : Field} (h : f.accepts l = true)
    (hoperand : l.operand = none) : l.operator.negate.isNegated = !l.operator.isNegated := by
  have hequality : l.operator = .equal ∨ l.operator = .notEqual := by
    simpa [Field.accepts, hoperand] using h
  rcases hequality with hequal | hnotEqual
  · rw [hequal]
    rfl
  · rw [hnotEqual]
    rfl

/-- A leaf and its negation, as they are prepared, are not both true of an event. -/
theorem readLeaf_negate_of_readLeaf (valid : ∃ f, s.checkLeaf l = .ok f)
    (unambiguous : s.isAmbiguous l.path = false)
    (filled : l.operand = none → (∃ f, s.field? l.path = some f ∧ f.type = .text) →
      d.storesEmptyText l.path = false)
    (h : s.readLeaf d.holds l = true) : s.readLeaf d.holds l.negate = false := by
  obtain ⟨f, hf⟩ := valid
  have hempty : ∀ m : Leaf, m.path = l.path → m.operand = l.operand →
      s.isTextAbsence m = true → d.holds (s.emptyTextLeaf m) = false := by
    intro m hpath hoperand absence
    obtain ⟨hnone, -, htext⟩ := s.isTextAbsence_iff.1 absence
    rw [emptyTextLeaf, s.pinLeaf_of_unambiguous (hpath ▸ unambiguous), hpath]
    exact filled (hoperand ▸ hnone) (hpath ▸ htext)
  rw [s.readLeaf_of_no_empty_text d (hempty l rfl rfl)] at h
  rw [s.readLeaf_of_no_empty_text d (hempty l.negate rfl rfl), s.preparedLeaf_negate unambiguous]
  -- Without an operand, a leaf that passed its check tests for presence or absence.
  refine d.holds_negate_of_holds (fun hoperand => ?_) h
  apply isNegated_negate_of_accepts (f := f) _ hoperand
  rw [s.accepts_preparedLeaf, (s.checkLeaf_ok_iff.1 hf).2]

/-- A condition selects the events that it is true of when its leaves are read as they are
prepared. -/
theorem selects_of_prepare_ok_iff {c r : Criterion} (h : s.prepare c = .ok r)
    (condition : c.leaves ≠ []) :
    d.selects r = true ↔ c.eval (s.readLeaf d.holds) = some true := by
  have hsome : c.eval (s.readLeaf d.holds) ≠ none :=
    mt (Criterion.eval_eq_none_iff (s.readLeaf d.holds)).1 condition
  obtain ⟨b, hb⟩ := Option.ne_none_iff_exists'.1 hsome
  rw [StoredValues.selects, s.eval_of_prepare_ok h, hb, Option.getD_some, Option.some.injEq]

theorem exists_prepare_leaf {f : Field} (h : s.checkLeaf l = .ok f) :
    ∃ r, s.prepare (.leaf l) = .ok r := by
  have hvalid : ∀ m ∈ (Criterion.leaf l).leaves, ∃ f, s.checkLeaf m = .ok f := by
    intro m hm
    rw [List.mem_singleton.1 hm]
    exact ⟨f, h⟩
  exact ⟨_, s.prepare_ok_iff.2 ⟨hvalid, rfl⟩⟩

theorem selects_of_prepare_leaf_ok_iff {r : Criterion} (h : s.prepare (.leaf l) = .ok r) :
    d.selects r = true ↔ s.readLeaf d.holds l = true := by
  rw [s.selects_of_prepare_ok_iff h (List.cons_ne_nil _ _), Criterion.eval_leaf, Option.some.injEq]

/-! ## The empty text -/

variable {p : Path} {f : Field}

theorem readLeaf_present (unambiguous : s.isAmbiguous p = false) :
    s.readLeaf d.holds (.present p) = (d.value? p).isSome := by
  have hprepared : s.preparedLeaf (.present p) = .present p :=
    (s.preparedLeaf_of_operand_none rfl).trans (s.pinLeaf_of_unambiguous unambiguous)
  have hother : s.isTextAbsence (.present p) = false := rfl
  rw [readLeaf_eq, hprepared, hother, Bool.false_and, Bool.or_false, d.holds_of_no_operand rfl]
  exact beq_true _

theorem readLeaf_absent (hf : s.field? p = some f) (text : f.type = .text)
    (unambiguous : s.isAmbiguous p = false) :
    s.readLeaf d.holds (.absent p) = (!(d.value? p).isSome || d.storesEmptyText p) := by
  have hpinned : s.pinLeaf (.absent p) = .absent p := s.pinLeaf_of_unambiguous unambiguous
  have hprepared : s.preparedLeaf (.absent p) = .absent p :=
    (s.preparedLeaf_of_operand_none rfl).trans hpinned
  have habsence : s.isTextAbsence (.absent p) = true :=
    s.isTextAbsence_iff.2 ⟨rfl, rfl, f, hf, text⟩
  rw [readLeaf_eq, hprepared, habsence, Bool.true_and, d.holds_of_no_operand rfl, emptyTextLeaf,
    hpinned]
  exact congrArg (· || d.storesEmptyText p) (beq_false _)

/-- A presence test on a field of text and its negation both accept the empty text. -/
theorem selects_present_and_negate (hf : s.field? p = some f) (text : f.type = .text)
    (unambiguous : s.isAmbiguous p = false) (empty : d.storesEmptyText p = true) :
    ∃ r n, s.prepare (.leaf (.present p)) = .ok r ∧
      s.prepare (Criterion.leaf (.present p)).negate = .ok n ∧
      d.selects r = true ∧ d.selects n = true := by
  have hnegate : (Criterion.leaf (.present p)).negate = .leaf (.absent p) := rfl
  have hpresent : s.checkLeaf (.present p) = .ok f := s.checkLeaf_ok_iff.2 ⟨hf, rfl⟩
  have habsent : s.checkLeaf (.absent p) = .ok f := s.checkLeaf_ok_iff.2 ⟨hf, rfl⟩
  obtain ⟨r, hr⟩ := s.exists_prepare_leaf hpresent
  obtain ⟨n, hn⟩ := s.exists_prepare_leaf habsent
  rw [hnegate]
  refine ⟨r, n, hr, hn, ?_, ?_⟩
  · have hsome : (d.value? p).isSome = true := by
      cases hvalue : d.value? p with
      | none => simp [StoredValues.storesEmptyText, hvalue] at empty
      | some x => rfl
    rw [s.selects_of_prepare_leaf_ok_iff hr, s.readLeaf_present unambiguous, hsome]
  · rw [s.selects_of_prepare_leaf_ok_iff hn, s.readLeaf_absent hf text unambiguous, empty,
      Bool.or_true]

/-- No event is selected by a criterion and by its negation if no list on its paths is open and no
text that it tests for presence or absence is empty. A presence test on a field of text and its
negation both select the events whose text is empty. -/
theorem prepared_negation_disjoint (s : EntitySchema) (d : StoredValues α) :
    (∀ c r n, c.flatten ≠ .empty → (∀ l ∈ c.leaves, s.isAmbiguous l.path = false) →
      s.prepare c = .ok r → s.prepare c.negate = .ok n →
      (∀ l ∈ c.leaves, l.operand = none → (∃ f, s.field? l.path = some f ∧ f.type = .text) →
        d.storesEmptyText l.path = false) →
      ¬(d.selects r = true ∧ d.selects n = true)) ∧
    ∀ p f, s.field? p = some f → f.type = .text → s.isAmbiguous p = false →
      d.storesEmptyText p = true →
      ∃ r n, s.prepare (.leaf (.present p)) = .ok r ∧
        s.prepare (Criterion.leaf (.present p)).negate = .ok n ∧
        d.selects r = true ∧ d.selects n = true := by
  refine ⟨?_, fun p f hf text unambiguous empty =>
    s.selects_present_and_negate hf text unambiguous empty⟩
  rintro c r n condition unambiguous hr hn filled ⟨hselects, hselectsNegation⟩
  have hleaves : c.leaves ≠ [] := mt Criterion.flatten_eq_empty_iff.2 condition
  have hnegated : c.negate.leaves ≠ [] := by
    rw [Criterion.leaves_negate]
    exact mt List.map_eq_nil_iff.1 hleaves
  have apart : ∀ l ∈ c.leaves,
      s.readLeaf d.holds l = true → s.readLeaf d.holds l.negate = false := fun l hl =>
    s.readLeaf_negate_of_readLeaf ((s.prepare_ok_iff.1 hr).1 l hl) (unambiguous l hl)
      (filled l hl)
  exact Criterion.eval_negate_ne_true apart ((s.selects_of_prepare_ok_iff hr hleaves).1 hselects)
    ((s.selects_of_prepare_ok_iff hn hnegated).1 hselectsNegation)

/-- A named event is selected by a criterion on its name and its size and not by the negation. An
event with an empty name is selected by the test for a name and by its negation. -/
theorem prepared_negation_disjoint_name :
    let name := Path.single "name"
    let size := Path.single "size"
    let s := ((empty "event").declareField name (.ofType .text)).declareField size
      (.ofType .integer)
    let c := Criterion.join .or
      [.leaf (.present name), .join .and
        [.leaf ⟨size, .comparison (.order .less), some (.text "5")⟩,
          .leaf ⟨name, .comparison (.relation .contains false false), some (.text "x")⟩]]
    let named (text : List Char) := StoredValues.ofTexts
      (fun p => if p = name then some text else if p = size then some ['3'] else none) (· == ·)
    (∃ r n, s.prepare c = .ok r ∧ s.prepare c.negate = .ok n ∧
      (named ['a', 'x', 'b']).selects r = true ∧ (named ['a', 'x', 'b']).selects n = false) ∧
    ∃ r n, s.prepare (.leaf (.present name)) = .ok r ∧
      s.prepare (Criterion.leaf (.present name)).negate = .ok n ∧
      (named []).selects r = true ∧ (named []).selects n = true := by
  intro name size s c named
  obtain ⟨disjoint, -⟩ := s.prepared_negation_disjoint (named ['a', 'x', 'b'])
  obtain ⟨-, both⟩ := s.prepared_negation_disjoint (named [])
  obtain ⟨r, n, hr, hn, hselects⟩ : ∃ r n, s.prepare c = .ok r ∧ s.prepare c.negate = .ok n ∧
      (named ['a', 'x', 'b']).selects r = true := ⟨_, _, rfl, rfl, by decide⟩
  refine ⟨⟨r, n, hr, hn, hselects, ?_⟩, both name (.ofType .text) rfl rfl rfl (by decide)⟩
  have happart := disjoint c r n Criterion.noConfusion (by decide) hr hn fun l hl hnone htext => by
    revert l
    decide
  exact Bool.eq_false_iff.2 fun h => happart ⟨hselects, h⟩

end EntitySchema

end EventQuery
