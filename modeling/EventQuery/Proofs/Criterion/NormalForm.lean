import EventQuery.Criterion.Basic

/-!
# The normal form of criteria

What `flatten` promises: a join has at least two operands, and none of them is empty or a join by
the same connective. Flattening reaches this form, keeps the leaves in their order, and is the
empty criterion only where there is no leaf at all.

A flat criterion and its operands under a connective determine one another, so that most facts on
flattening are facts on lists of operands.
-/

namespace EventQuery.Criterion

/-- Induction over a criterion and the operands of its joins. -/
@[elab_as_elim, induction_eliminator]
theorem induct {motive : Criterion → Prop} (empty : motive empty) (leaf : ∀ l, motive (leaf l))
    (join : ∀ c cs, (∀ a ∈ cs, motive a) → motive (join c cs)) (a : Criterion) : motive a := by
  refine @Criterion.rec motive (fun cs => ∀ a ∈ cs, motive a) empty leaf join ?_ ?_ a
  · intro b hb
    cases hb
  · intro head tail hhead htail b hb
    rcases List.mem_cons.1 hb with rfl | hb
    · exact hhead
    · exact htail b hb

/-- The connective of a join. -/
def connective? : Criterion → Option Connective
  | join c _ => some c
  | _ => none

/-- A criterion that may be an operand in a normal form by `c`: it is a condition, and not a join by
`c` itself. -/
def IsProperUnder (c : Connective) (a : Criterion) : Prop := a ≠ empty ∧ a.connective? ≠ some c

/-- The normal form. -/
inductive IsFlat : Criterion → Prop
  | empty : IsFlat empty
  | leaf (l : Leaf) : IsFlat (leaf l)
  | join {c : Connective} {cs : List Criterion} (two : 2 ≤ cs.length)
      (flat : ∀ a ∈ cs, IsFlat a) (proper : ∀ a ∈ cs, a.IsProperUnder c) : IsFlat (join c cs)

@[simp] theorem flatten_empty : empty.flatten = empty := rfl

@[simp] theorem flatten_leaf (l : Leaf) : (leaf l).flatten = leaf l := rfl

theorem flatten_join (c : Connective) (cs : List Criterion) :
    (join c cs).flatten = joinAll c (flattenOperands c cs) := rfl

@[simp] theorem flattenOperands_nil (c : Connective) : flattenOperands c [] = [] := rfl

theorem flattenOperands_cons (c : Connective) (a : Criterion) (as : List Criterion) :
    flattenOperands c (a :: as) = a.flatten.operandsUnder c ++ flattenOperands c as := rfl

@[simp] theorem negate_empty : empty.negate = empty := rfl

@[simp] theorem negate_leaf (l : Leaf) : (leaf l).negate = leaf l.negate := rfl

@[simp] theorem negate_join (c : Connective) (cs : List Criterion) :
    (join c cs).negate = join c.negate (cs.map negate) :=
  congrArg (join c.negate) (negateAll_eq cs)

/-! ## Operands of flat criteria -/

theorem operandsUnder_of_isProperUnder {c : Connective} {a : Criterion} (h : a.IsProperUnder c) :
    a.operandsUnder c = [a] := by
  cases a with
  | empty => exact absurd rfl h.1
  | leaf l => rfl
  | join d ds =>
      have hne : d ≠ c := fun e => h.2 (congrArg some e)
      exact if_neg hne

theorem isFlat_joinAll {c : Connective} {xs : List Criterion} (flat : ∀ x ∈ xs, x.IsFlat)
    (proper : ∀ x ∈ xs, x.IsProperUnder c) : (joinAll c xs).IsFlat := by
  match xs with
  | [] => exact .empty
  | [x] => exact flat x (List.mem_singleton_self x)
  | x :: y :: zs => exact .join (by simp) flat proper

/-- The operands of a join can be read off it again. -/
theorem operandsUnder_joinAll {c : Connective} {xs : List Criterion}
    (proper : ∀ x ∈ xs, x.IsProperUnder c) : (joinAll c xs).operandsUnder c = xs := by
  match xs with
  | [] => rfl
  | [x] => exact operandsUnder_of_isProperUnder (proper x (List.mem_singleton_self x))
  | x :: y :: zs => exact if_pos rfl

/-- A flat criterion is the join of its operands. -/
theorem joinAll_operandsUnder {a : Criterion} (h : a.IsFlat) (c : Connective) :
    joinAll c (a.operandsUnder c) = a := by
  cases h with
  | empty => rfl
  | leaf l => rfl
  | @join d ds two flat proper =>
      by_cases hd : d = c
      · subst hd
        match ds, two with
        | x :: y :: zs, _ => simp [operandsUnder, joinAll]
      · simp [operandsUnder, hd, joinAll]

theorem isFlat_of_mem_operandsUnder {a x : Criterion} (h : a.IsFlat) {c : Connective}
    (hx : x ∈ a.operandsUnder c) : x.IsFlat ∧ x.IsProperUnder c := by
  cases h with
  | empty => cases hx
  | leaf l =>
      rw [List.mem_singleton.1 hx]
      exact ⟨.leaf l, by simp [IsProperUnder, connective?]⟩
  | @join d ds two flat proper =>
      by_cases hd : d = c
      · subst hd
        have hx : x ∈ ds := by simpa [operandsUnder] using hx
        exact ⟨flat x hx, proper x hx⟩
      · have hx : x = join d ds := by simpa [operandsUnder, hd] using hx
        subst hx
        exact ⟨.join two flat proper, by simp [IsProperUnder, connective?, hd]⟩

/-! ## Flattening reaches the normal form -/

theorem mem_flattenOperands {c : Connective} {cs : List Criterion} {x : Criterion} :
    x ∈ flattenOperands c cs ↔ ∃ a ∈ cs, x ∈ a.flatten.operandsUnder c := by
  rw [flattenOperands_eq, List.mem_flatMap]

theorem isFlat_flatten (a : Criterion) : a.flatten.IsFlat := by
  induction a with
  | empty => exact .empty
  | leaf l => exact .leaf l
  | join c cs ih =>
      have hops : ∀ x ∈ flattenOperands c cs, x.IsFlat ∧ x.IsProperUnder c := by
        intro x hx
        obtain ⟨a, ha, hx⟩ := mem_flattenOperands.1 hx
        exact isFlat_of_mem_operandsUnder (ih a ha) hx
      exact isFlat_joinAll (fun x hx => (hops x hx).1) (fun x hx => (hops x hx).2)

theorem isProperUnder_of_mem_flattenOperands {c : Connective} {cs : List Criterion}
    {x : Criterion} (hx : x ∈ flattenOperands c cs) : x.IsProperUnder c := by
  obtain ⟨a, -, hx⟩ := mem_flattenOperands.1 hx
  exact (isFlat_of_mem_operandsUnder a.isFlat_flatten hx).2

/-- What the normal form of a join by `c` contributes to a join by `c`. -/
theorem operandsUnder_flatten_join (c : Connective) (cs : List Criterion) :
    (join c cs).flatten.operandsUnder c = flattenOperands c cs :=
  operandsUnder_joinAll fun _ hx => isProperUnder_of_mem_flattenOperands hx

theorem flatten_of_isFlat {a : Criterion} (h : a.IsFlat) : a.flatten = a := by
  induction h with
  | empty => rfl
  | leaf l => rfl
  | @join c cs two flat proper ih =>
      have hops : ∀ as : List Criterion, (∀ a ∈ as, a ∈ cs) → flattenOperands c as = as := by
        intro as
        induction as with
        | nil => exact fun _ => rfl
        | cons a as ihas =>
            intro hsub
            have ha := hsub a List.mem_cons_self
            rw [flattenOperands_cons, ih a ha, operandsUnder_of_isProperUnder (proper a ha),
              ihas fun b hb => hsub b (List.mem_cons_of_mem a hb)]
            rfl
      rw [flatten_join, hops cs fun _ => id]
      match cs, two with
      | x :: y :: zs, _ => rfl

@[simp] theorem flatten_flatten (a : Criterion) : a.flatten.flatten = a.flatten :=
  flatten_of_isFlat a.isFlat_flatten

/-! ## Joins built in other ways -/

theorem operandsUnder_flatten_combine (c : Connective) (a b : Criterion) :
    (combine c a b).flatten.operandsUnder c =
      a.flatten.operandsUnder c ++ b.flatten.operandsUnder c := by
  have hjoin : (join c [a, b]).flatten.operandsUnder c =
      a.flatten.operandsUnder c ++ b.flatten.operandsUnder c := by
    rw [operandsUnder_flatten_join, flattenOperands_cons, flattenOperands_cons,
      flattenOperands_nil, List.append_nil]
  cases a with
  | empty => rw [combine_empty_left]; rfl
  | leaf l =>
      cases b with
      | empty => rw [combine_empty_right, flatten_empty, operandsUnder, List.append_nil]
      | leaf m => exact hjoin
      | join d ds => exact hjoin
  | join d ds =>
      cases b with
      | empty => rw [combine_empty_right, flatten_empty, operandsUnder, List.append_nil]
      | leaf m => exact hjoin
      | join e es => exact hjoin

/-- Combining from the left is joining, in normal form. -/
theorem flatten_foldl_combine (c : Connective) (a : Criterion) (as : List Criterion) :
    (as.foldl (combine c) a).flatten = (join c (a :: as)).flatten := by
  induction as generalizing a with
  | nil =>
      rw [List.foldl_nil, flatten_join, flattenOperands_cons, flattenOperands_nil, List.append_nil,
        joinAll_operandsUnder a.isFlat_flatten]
  | cons b as ih =>
      rw [List.foldl_cons, ih, flatten_join, flatten_join, flattenOperands_cons,
        operandsUnder_flatten_combine, flattenOperands_cons, flattenOperands_cons,
        List.append_assoc]

theorem flatten_join_congr {c : Connective} {as bs : List Criterion}
    (h : as.map flatten = bs.map flatten) : (join c as).flatten = (join c bs).flatten := by
  have hops : ∀ cs, flattenOperands c cs = (cs.map flatten).flatMap (operandsUnder c) := by
    intro cs
    rw [flattenOperands_eq, List.flatMap_map]
  rw [flatten_join, flatten_join, hops, hops, h]

/-! ## Leaves -/

@[simp] theorem leaves_empty : empty.leaves = [] := rfl

@[simp] theorem leaves_leaf (l : Leaf) : (leaf l).leaves = [l] := rfl

@[simp] theorem leaves_join (c : Connective) (cs : List Criterion) :
    (join c cs).leaves = cs.flatMap leaves := leavesOfAll_eq cs

theorem mem_leaves_join {c : Connective} {cs : List Criterion} {a : Criterion} {l : Leaf}
    (ha : a ∈ cs) (hl : l ∈ a.leaves) : l ∈ (join c cs).leaves := by
  rw [leaves_join]
  exact List.mem_flatMap.2 ⟨a, ha, hl⟩

@[simp] theorem leaves_joinAll (c : Connective) (xs : List Criterion) :
    (joinAll c xs).leaves = xs.flatMap leaves := by
  match xs with
  | [] => rfl
  | [x] => simp [joinAll]
  | x :: y :: zs => simp [joinAll]

theorem flatMap_leaves_operandsUnder (c : Connective) (a : Criterion) :
    (a.operandsUnder c).flatMap leaves = a.leaves := by
  cases a with
  | empty => rfl
  | leaf l => rfl
  | join d ds =>
      by_cases hd : d = c
      · simp [operandsUnder, hd]
      · simp [operandsUnder, hd]

theorem leaves_combine (c : Connective) (a b : Criterion) :
    (combine c a b).leaves = a.leaves ++ b.leaves := by
  cases a <;> cases b <;> simp [combine]

theorem leaves_foldl_combine (c : Connective) (a : Criterion) (as : List Criterion) :
    (as.foldl (combine c) a).leaves = a.leaves ++ as.flatMap leaves := by
  induction as generalizing a with
  | nil => simp
  | cons b as ih =>
      rw [List.foldl_cons, ih, leaves_combine, List.flatMap_cons, List.append_assoc]

@[simp] theorem leaves_negate (a : Criterion) : a.negate.leaves = a.leaves.map Leaf.negate := by
  induction a with
  | empty => rfl
  | leaf l => rfl
  | join c cs ih =>
      rw [negate_join, leaves_join, leaves_join, List.flatMap_map, List.map_flatMap,
        List.flatMap_def, List.flatMap_def, List.map_congr_left ih]

/-- Flattening keeps every leaf, once and in its place. -/
@[simp] theorem leaves_flatten (a : Criterion) : a.flatten.leaves = a.leaves := by
  induction a with
  | empty => rfl
  | leaf l => rfl
  | join c cs ih =>
      have hops : (flattenOperands c cs).flatMap leaves = cs.flatMap leaves := by
        induction cs with
        | nil => rfl
        | cons a as ihas =>
            rw [flattenOperands_cons, List.flatMap_append, flatMap_leaves_operandsUnder,
              ih a List.mem_cons_self, ihas fun b hb => ih b (List.mem_cons_of_mem a hb)]
            rfl
      rw [flatten_join, leaves_joinAll, hops, leaves_join]

theorem IsFlat.eq_empty_of_leaves_eq_nil {a : Criterion} (h : a.IsFlat) (hl : a.leaves = []) :
    a = .empty := by
  induction h with
  | empty => rfl
  | leaf l => cases hl
  | @join c cs two flat proper ih =>
      match cs, two with
      | x :: y :: zs, _ =>
          have hx : x.leaves = [] := by
            rw [leaves_join, List.flatMap_cons] at hl
            exact (List.append_eq_nil_iff.1 hl).1
          exact absurd (ih x List.mem_cons_self hx) (proper x List.mem_cons_self).1

/-- Only a criterion without leaves flattens to no condition. -/
theorem flatten_eq_empty_iff {a : Criterion} : a.flatten = empty ↔ a.leaves = [] := by
  constructor
  · intro h
    rw [← leaves_flatten, h, leaves_empty]
  · intro h
    exact a.isFlat_flatten.eq_empty_of_leaves_eq_nil (by rw [leaves_flatten, h])

end EventQuery.Criterion
