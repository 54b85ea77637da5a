import EventQuery.Proofs.Backend.Preparation
import EventQuery.Proofs.Errors
import Mathlib.Data.List.Forall2

/-!
# The truth of compiled criteria

Predicates of a backend are opaque, but they may be read as truth values. If the backend's joins
read as conjunctions and disjunctions, the predicate of a criterion reads as the criterion does when
its leaves are read as their own predicates. Neither preparation nor lowering loses, adds or mixes
up a connective.
-/

namespace EventQuery

/-- Truth values for predicates under which the backend joins them as the connective says. Joins of
fewer than two are left open. -/
def Backend.JoinsAs (b : Backend ε) (holds : ε → Bool) : Prop :=
  ∀ c es e, 2 ≤ es.length → b.combine c es = .ok e → holds e = c.holds (es.map holds)

/-- A backend whose predicates are truth values: leaves that exclude events are false. -/
def Backend.polarity : Backend Bool where
  name := "polarity"
  compileLeaf l _ := .ok !l.isNegative
  combine c es := .ok (c.holds es)

/-- The backend can join whatever predicates it made. -/
def Backend.JoinsAll (b : Backend ε) : Prop := ∀ c es, ∃ e, b.combine c es = .ok e

theorem Backend.joinsAs_polarity : Backend.polarity.JoinsAs id := by
  intro c es e _ h
  cases h
  rw [List.map_id]
  rfl

namespace EntitySchema

variable (s : EntitySchema) (b : Backend ε) (holds : ε → Bool)

/-- The truth of a leaf's predicate. -/
def leafHolds (l : Leaf) : Bool :=
  match s.lowerLeaf b l with
  | .ok e => holds e
  | .error _ => false

/-- A leaf read through the leaves it is prepared to: one of them, or both of an absence test on a
field of text, is enough. -/
def readLeaf (truth : Leaf → Bool) (l : Leaf) : Bool := (s.preparedLeaves l).any truth

theorem readLeaf_eq (truth : Leaf → Bool) (l : Leaf) :
    s.readLeaf truth l =
      (truth (s.preparedLeaf l) || s.isTextAbsence l && truth (s.emptyTextLeaf l)) := by
  cases h : s.isTextAbsence l with
  | true => simp [readLeaf, s.preparedLeaves_of_textAbsence h]
  | false => simp [readLeaf, s.preparedLeaves_of_other h]

theorem preparedLeaves_ne_nil (l : Leaf) : s.preparedLeaves l ≠ [] := by
  unfold preparedLeaves
  split <;> simp

theorem eval_preparedLeaves (truth : Leaf → Bool) (l : Leaf) :
    (Criterion.joinAll .or ((s.preparedLeaves l).map .leaf)).eval truth =
      some (s.readLeaf truth l) := by
  rw [Criterion.eval_joinAll, Criterion.truths_map_leaf,
    Connective.holds?_of_ne_nil _ (by simpa using s.preparedLeaves_ne_nil l)]
  simp [Connective.holds, readLeaf, List.any_map]

/-- Preparation keeps the meaning of a criterion, given that of its prepared leaves. -/
theorem eval_of_prepare_ok {c r : Criterion} (h : s.prepare c = .ok r) (truth : Leaf → Bool) :
    r.eval truth = c.eval (s.readLeaf truth) := by
  obtain ⟨-, rfl⟩ := s.prepare_ok_iff.1 h
  rw [Criterion.eval_flatten]
  exact Criterion.eval_substitute _ fun l _ => s.eval_preparedLeaves truth l

variable {b holds}

theorem holds?_of_lowerJoin_ok (hb : b.JoinsAs holds) {c : Connective} {es : List ε}
    {e? : Option ε} (h : lowerJoin b c es = .ok e?) : e?.map holds = c.holds? (es.map holds) := by
  match es with
  | [] =>
      cases h
      rfl
  | [e] =>
      cases h
      simp [Connective.holds?]
  | x :: y :: zs =>
      obtain ⟨e, he, rfl⟩ := map_eq_ok_iff.1 h
      rw [Option.map_some, Connective.holds?_of_ne_nil _ (by simp), hb c _ e (by simp) he]

/-- Operands are lowered one by one, and those that are no condition are left out. -/
theorem lowerAll_ok_iff {cs : List Criterion} {es : List ε} :
    s.lowerAll b cs = .ok es ↔
      ∃ es?, List.Forall₂ (fun a e? => s.lower b a = .ok e?) cs es? ∧
        es = es?.flatMap Option.toList := by
  induction cs generalizing es with
  | nil =>
      constructor
      · intro h
        cases h
        exact ⟨[], .nil, rfl⟩
      · rintro ⟨es?, hes, rfl⟩
        cases hes
        rfl
  | cons a as ih =>
      constructor
      · intro h
        obtain ⟨e?, he, h⟩ := bind_eq_ok_iff.1 h
        obtain ⟨es', hes, h⟩ := bind_eq_ok_iff.1 h
        cases h
        obtain ⟨es?, hes?, rfl⟩ := ih.1 hes
        exact ⟨e? :: es?, .cons he hes?, rfl⟩
      · rintro ⟨es?, hes, rfl⟩
        cases hes with
        | cons he hes => rw [lowerAll, he, ih.2 ⟨_, hes, rfl⟩]; rfl

/-- Induction over a criterion and what it is lowered to. -/
@[elab_as_elim]
theorem lower_induct {motive : Criterion → Option ε → Prop} (empty : motive .empty none)
    (leaf : ∀ l e, s.lowerLeaf b l = .ok e → motive (.leaf l) (some e))
    (join : ∀ c cs es? e?, List.Forall₂ motive cs es? →
      lowerJoin b c (es?.flatMap Option.toList) = .ok e? → motive (.join c cs) e?)
    {r : Criterion} {e? : Option ε} (h : s.lower b r = .ok e?) : motive r e? := by
  induction r generalizing e? with
  | empty =>
      cases h
      exact empty
  | leaf l =>
      obtain ⟨e, he, rfl⟩ := map_eq_ok_iff.1 h
      exact leaf l e he
  | join c cs ih =>
      obtain ⟨es, hes, hjoin⟩ := bind_eq_ok_iff.1 h
      obtain ⟨es?, hes?, rfl⟩ := s.lowerAll_ok_iff.1 hes
      refine join c cs es? e? ?_ hjoin
      exact ((List.forall₂_and_left _ _).2 ⟨fun a ha => ha, hes?⟩).imp fun a _ h => ih a h.1 h.2

/-- A lowered criterion reads as the criterion does. -/
theorem eval_of_lower_ok (hb : b.JoinsAs holds) {r : Criterion} {e? : Option ε}
    (h : s.lower b r = .ok e?) : e?.map holds = r.eval (s.leafHolds b holds) := by
  refine s.lower_induct rfl (fun l e he => ?_) (fun c cs es? e? hes hjoin => ?_) h
  · rw [Criterion.eval_leaf, leafHolds, he, Option.map_some]
  · have htruths : (es?.flatMap Option.toList).map holds =
        Criterion.truths (s.leafHolds b holds) cs := by
      clear hjoin
      induction hes with
      | nil => rfl
      | cons he hes ih =>
          rw [List.flatMap_cons, List.map_append, ih, Criterion.truths_cons, ← he,
            Option.toList_map]
    rw [holds?_of_lowerJoin_ok hb hjoin, Criterion.eval_join, htruths]

/-- A compiled criterion reads as the criterion itself. -/
theorem eval_of_compile_ok (hb : b.JoinsAs holds) {c : Criterion} {e? : Option ε}
    (h : s.compile b c = .ok e?) :
    e?.map holds = c.eval (s.readLeaf (s.leafHolds b holds)) := by
  obtain ⟨r, hr, h⟩ := bind_eq_ok_iff.1 h
  rw [s.eval_of_lower_ok hb h, s.eval_of_prepare_ok hr]

/-! ## Where lowering fails -/

theorem exists_lowerJoin_ok (hb : b.JoinsAll) (c : Connective) (es : List ε) :
    ∃ e?, lowerJoin b c es = .ok e? := by
  match es with
  | [] => exact ⟨none, rfl⟩
  | [e] => exact ⟨some e, rfl⟩
  | x :: y :: zs =>
      obtain ⟨e, he⟩ := hb c (x :: y :: zs)
      exact ⟨some e, map_eq_ok_iff.2 ⟨e, he, rfl⟩⟩

/-- If joining never fails, lowering is going through the leaves from left to right. -/
theorem lower_eq_forM (hb : b.JoinsAll) (r : Criterion) :
    (s.lower b r).map (fun _ => ()) = r.leaves.forM fun l => (s.lowerLeaf b l).map fun _ => () := by
  induction r with
  | empty => rfl
  | leaf l =>
      rw [lower, Criterion.leaves, List.forM_eq_forM, List.forM_cons]
      cases s.lowerLeaf b l <;> rfl
  | join c cs ih =>
      have hall : (s.lowerAll b cs).map (fun _ => ()) =
          cs.forM fun a => a.leaves.forM fun l => (s.lowerLeaf b l).map fun _ => () := by
        induction cs with
        | nil => rfl
        | cons a as ihas =>
            have has := ihas fun x hx => ih x (List.mem_cons_of_mem a hx)
            rw [List.forM_eq_forM] at has ⊢
            rw [lowerAll, List.forM_cons, ← ih a List.mem_cons_self, ← has]
            cases s.lower b a with
            | error e => rfl
            | ok e? => cases s.lowerAll b as <;> rfl
      rw [Criterion.leaves_join, Criterion.forM_flatMap_leaves, ← hall, lower]
      cases s.lowerAll b cs with
      | error e => rfl
      | ok es =>
          obtain ⟨e?, he⟩ := exists_lowerJoin_ok hb c es
          exact congrArg (Except.map fun _ => ()) he

/-- What is lowered without an error has leaves that each are. -/
theorem exists_lower_ok_iff (hb : b.JoinsAll) {r : Criterion} :
    (∃ e?, s.lower b r = .ok e?) ↔ ∀ l ∈ r.leaves, ∃ e, s.lowerLeaf b l = .ok e := by
  have h : (s.lower b r).map (fun _ => ()) = .ok () ↔ _ := s.lower_eq_forM hb r ▸ forM_eq_ok_iff
  simpa only [map_eq_ok_iff, and_true] using h

/-- The error of a criterion is that of its first leaf that has one. -/
theorem lower_eq_error_iff (hb : b.JoinsAll) {r : Criterion} {e : QueryError} :
    s.lower b r = .error e ↔ ∃ before l after, r.leaves = before ++ l :: after ∧
      (∀ m ∈ before, ∃ x, s.lowerLeaf b m = .ok x) ∧ s.lowerLeaf b l = .error e := by
  have h : (s.lower b r).map (fun _ => ()) = .error e ↔ _ :=
    s.lower_eq_forM hb r ▸ forM_eq_error_iff
  simpa only [map_eq_ok_iff, map_eq_error_iff, and_true] using h

/-! ## Compiled criteria -/

/-- Every backend's joins are true where all predicates are. -/
theorem joinsAs_true (b : Backend ε) : b.JoinsAs fun _ => true := by
  intro c es e two _
  match es, two with
  | x :: y :: zs, _ => cases c <;> simp [Connective.holds]

/-- The result is no restriction only where the criterion has no leaf. -/
theorem eq_none_iff_of_compile_ok {c : Criterion} {e? : Option ε} (h : s.compile b c = .ok e?) :
    e? = none ↔ c.leaves = [] := by
  rw [← Criterion.eval_eq_none_iff, ← s.eval_of_compile_ok (joinsAs_true b) h,
    Option.map_eq_none_iff]

end EntitySchema

end EventQuery
