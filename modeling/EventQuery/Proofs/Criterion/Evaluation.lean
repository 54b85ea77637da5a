import EventQuery.Proofs.Criterion.NormalForm
import Mathlib.Data.List.Basic

/-!
# The truth of criteria

Once its leaves have truth values, a criterion is true, false, or no condition at all. Operands that
are no condition do not count, so that a join without any other is none itself.

Flattening keeps this truth, whatever the leaves are, and replacing leaves by criteria replaces
their truth.
-/

namespace EventQuery

/-- The conjunction or disjunction of truth values. -/
def Connective.holds : Connective → List Bool → Bool
  | .and, bs => bs.all id
  | .or, bs => bs.any id

/-- The same where nothing at all is no condition. -/
def Connective.holds? (c : Connective) (bs : List Bool) : Option Bool :=
  if bs = [] then none else some (c.holds bs)

namespace Connective

theorem holds_append (c : Connective) (xs ys : List Bool) :
    c.holds (xs ++ ys) = c.holds [c.holds xs, c.holds ys] := by
  cases c <;> simp [holds]

@[simp] theorem holds_singleton (c : Connective) (b : Bool) : c.holds [b] = b := by
  cases c <;> simp [holds]

/-- Where truth values differ, only a disjunction holds. -/
theorem holds_of_mem (c : Connective) {bs : List Bool} (holds : true ∈ bs) (fails : false ∈ bs) :
    c.holds bs = (c == .or) := by
  cases c with
  | and => exact List.all_eq_false.2 ⟨false, fails, by decide⟩
  | or => exact List.any_eq_true.2 ⟨true, holds, rfl⟩

@[simp] theorem holds?_nil (c : Connective) : c.holds? [] = none := rfl

theorem holds?_of_ne_nil (c : Connective) {bs : List Bool} (h : bs ≠ []) :
    c.holds? bs = some (c.holds bs) := if_neg h

@[simp] theorem holds?_toList (c : Connective) (x : Option Bool) : c.holds? x.toList = x := by
  cases x with
  | none => rfl
  | some b => rw [Option.toList_some, holds?_of_ne_nil c (by simp), holds_singleton]

@[simp] theorem holds?_eq_none_iff (c : Connective) (bs : List Bool) :
    c.holds? bs = none ↔ bs = [] := by
  simp [holds?]

/-- Two groups of truth values count as their own conjunctions or disjunctions. -/
theorem holds?_append (c : Connective) (xs ys : List Bool) :
    c.holds? (xs ++ ys) = c.holds? ((c.holds? xs).toList ++ (c.holds? ys).toList) := by
  by_cases hx : xs = []
  · simp [hx]
  by_cases hy : ys = []
  · simp [hy]
  rw [holds?_of_ne_nil c (by simp [hx]), holds?_of_ne_nil c hx, holds?_of_ne_nil c hy,
    holds_append]
  rfl

theorem holds?_append_congr {c : Connective} {xs xs' ys ys' : List Bool}
    (hx : c.holds? xs = c.holds? xs') (hy : c.holds? ys = c.holds? ys') :
    c.holds? (xs ++ ys) = c.holds? (xs' ++ ys') := by
  rw [c.holds?_append xs, c.holds?_append xs', hx, hy]

theorem holds?_and_eq_true_iff {bs : List Bool} :
    Connective.and.holds? bs = some true ↔ bs ≠ [] ∧ ∀ b ∈ bs, b = true := by
  by_cases h : bs = []
  · simp [h]
  · simp [holds?_of_ne_nil _ h, holds, h]

theorem holds?_or_eq_true_iff {bs : List Bool} :
    Connective.or.holds? bs = some true ↔ true ∈ bs := by
  by_cases h : bs = []
  · simp [h]
  · simp [holds?_of_ne_nil _ h, holds]

end Connective

namespace Criterion

mutual

/-- The truth of a criterion under the truth of its leaves; none if it is no condition. -/
def eval (v : Leaf → Bool) : Criterion → Option Bool
  | empty => none
  | leaf l => some (v l)
  | join c cs => c.holds? (truths v cs)

/-- The truth values of those operands that are conditions. -/
def truths (v : Leaf → Bool) : List Criterion → List Bool
  | [] => []
  | a :: as => (a.eval v).toList ++ truths v as

end

variable (v : Leaf → Bool)

@[simp] theorem eval_empty : empty.eval v = none := rfl

@[simp] theorem eval_leaf (l : Leaf) : (leaf l).eval v = some (v l) := rfl

theorem eval_join (c : Connective) (cs : List Criterion) :
    (join c cs).eval v = c.holds? (truths v cs) := rfl

@[simp] theorem truths_nil : truths v [] = [] := rfl

@[simp] theorem truths_cons (a : Criterion) (as : List Criterion) :
    truths v (a :: as) = (a.eval v).toList ++ truths v as := rfl

theorem truths_eq (cs : List Criterion) : truths v cs = cs.flatMap fun a => (a.eval v).toList := by
  induction cs with
  | nil => rfl
  | cons a as ih => rw [truths_cons, ih, List.flatMap_cons]

theorem mem_truths {b : Bool} {cs : List Criterion} :
    b ∈ truths v cs ↔ ∃ a ∈ cs, a.eval v = some b := by
  simp [truths_eq]

theorem truths_map_leaf (ls : List Leaf) : truths v (ls.map leaf) = ls.map v := by
  induction ls with
  | nil => rfl
  | cons l ls ih => rw [List.map_cons, truths_cons, eval_leaf, ih]; rfl

theorem truths_append (xs ys : List Criterion) :
    truths v (xs ++ ys) = truths v xs ++ truths v ys := by
  rw [truths_eq, truths_eq, truths_eq, List.flatMap_append]

@[simp] theorem eval_joinAll (c : Connective) (xs : List Criterion) :
    (joinAll c xs).eval v = c.holds? (truths v xs) := by
  match xs with
  | [] => rfl
  | [x] => rw [truths_cons, truths_nil, List.append_nil, Connective.holds?_toList]; rfl
  | x :: y :: zs => rfl

/-- The operands of a criterion under a connective are true together exactly when it is. -/
theorem holds?_truths_operandsUnder (c : Connective) (a : Criterion) :
    c.holds? (truths v (a.operandsUnder c)) = a.eval v := by
  cases a with
  | empty => rfl
  | leaf l => simp [operandsUnder, Connective.holds?]
  | join d ds =>
      by_cases hd : d = c
      · subst hd
        rw [operandsUnder, if_pos rfl, eval_join]
      · rw [operandsUnder, if_neg hd, truths_cons, truths_nil, List.append_nil,
          Connective.holds?_toList]

/-- Flattening keeps the truth of a criterion. -/
@[simp] theorem eval_flatten (a : Criterion) : a.flatten.eval v = a.eval v := by
  induction a with
  | empty => rfl
  | leaf l => rfl
  | join c cs ih =>
      rw [flatten_join, eval_joinAll, eval_join]
      induction cs with
      | nil => rfl
      | cons a as ihas =>
          rw [flattenOperands_cons, truths_append, truths_cons]
          refine Connective.holds?_append_congr ?_
            (ihas fun b hb => ih b (List.mem_cons_of_mem a hb))
          rw [holds?_truths_operandsUnder, ih a List.mem_cons_self, Connective.holds?_toList]

/-- Combining from the left joins truth values. -/
theorem eval_foldl_combine (c : Connective) (a : Criterion) (as : List Criterion) :
    (as.foldl (combine c) a).eval v = c.holds? (truths v (a :: as)) := by
  rw [← eval_flatten, flatten_foldl_combine, eval_flatten, eval_join]

/-- A criterion is no condition exactly when it has no leaf. -/
theorem eval_eq_none_iff {a : Criterion} : a.eval v = none ↔ a.leaves = [] := by
  induction a with
  | empty => simp
  | leaf l => simp
  | join c cs ih =>
      rw [eval_join, Connective.holds?_eq_none_iff, truths_eq, leaves_join,
        List.flatMap_eq_nil_iff, List.flatMap_eq_nil_iff]
      exact forall₂_congr fun a ha => by rw [Option.toList_eq_nil_iff, ih a ha]

/-- Whether a criterion is a condition does not hang on the truth of its leaves. -/
theorem eval_eq_none_congr (v w : Leaf → Bool) (a : Criterion) :
    a.eval v = none ↔ a.eval w = none := by
  rw [eval_eq_none_iff, eval_eq_none_iff]

/-- Making leaves true keeps a true criterion true: no node of it negates. -/
theorem eval_mono {v w : Leaf → Bool} {a : Criterion}
    (implies : ∀ l ∈ a.leaves, v l = true → w l = true) (h : a.eval v = some true) :
    a.eval w = some true := by
  induction a with
  | empty => cases h
  | leaf l => exact congrArg some (implies l (List.mem_singleton_self l) (Option.some.inj h))
  | join c cs ih =>
      have hmono : ∀ a ∈ cs, a.eval v = some true → a.eval w = some true := fun a ha =>
        ih a ha fun l hl => implies l (mem_leaves_join ha hl)
      rw [eval_join] at h ⊢
      cases c with
      | and =>
          rw [Connective.holds?_and_eq_true_iff] at h ⊢
          obtain ⟨hcondition, hall⟩ := h
          constructor
          · have hnone := eval_eq_none_congr v w (join .and cs)
            simp only [eval_join, Connective.holds?_eq_none_iff] at hnone
            exact mt hnone.2 hcondition
          · intro b hb
            obtain ⟨a, ha, hb⟩ := (mem_truths w).1 hb
            have hsome : a.eval v ≠ none := mt (eval_eq_none_congr v w a).1 (by simp [hb])
            obtain ⟨b', hb'⟩ := Option.ne_none_iff_exists'.1 hsome
            have htrue : b' = true := hall b' ((mem_truths v).2 ⟨a, ha, hb'⟩)
            exact Option.some.inj (hb.symm.trans (hmono a ha (htrue ▸ hb')))
      | or =>
          rw [Connective.holds?_or_eq_true_iff, mem_truths] at h ⊢
          obtain ⟨a, ha, htrue⟩ := h
          exact ⟨a, ha, hmono a ha htrue⟩

/-- `flatten` computes the normal form and changes nothing that is in it already. It keeps every
leaf in its place, and the truth of the criterion whatever the truth of the leaves. -/
theorem flatten_reaches_normal_form (a : Criterion) :
    a.flatten.IsFlat ∧ (a.flatten = a ↔ a.IsFlat) ∧ a.flatten.flatten = a.flatten ∧
      a.flatten.leaves = a.leaves ∧ ∀ v, a.flatten.eval v = a.eval v := by
  have hfixed : a.flatten = a ↔ a.IsFlat := by
    constructor
    · intro h
      exact h ▸ a.isFlat_flatten
    · exact flatten_of_isFlat
  exact ⟨a.isFlat_flatten, hfixed, flatten_flatten a, leaves_flatten a, fun v => eval_flatten v a⟩

end Criterion

end EventQuery
