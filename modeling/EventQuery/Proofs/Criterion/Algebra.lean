import EventQuery.Proofs.Criterion.Evaluation

/-!
# The algebra of criteria

Up to normal form, combination is associative and needs only the normal forms of what it combines.
The empty criterion is its identity. Negation exchanges the connectives, undoes itself and commutes
with flattening, and it gives the opposite truth wherever it does so for the leaves.
-/

namespace EventQuery

namespace Operator

theorem isNegated_negate {o : Operator} (ordering : o.isOrdering = false)
    (connective : o.isConnective = false) : o.negate.isNegated = !o.isNegated := by
  cases o with
  | comparison c =>
      cases c with
      | relation r negated caseless => rfl
      | order t => cases ordering
  | connective c => cases connective

/-- The opposite of an ordering is an ordering, and no ordering counts as negated. -/
theorem isNegated_negate_of_isOrdering {o : Operator} (h : o.isOrdering = true) :
    o.negate.isNegated = o.isNegated := by
  cases o with
  | comparison c =>
      cases c with
      | relation r negated caseless => cases h
      | order t => rfl
  | connective c => rfl

@[simp] theorem isContainment_negate (o : Operator) : o.negate.isContainment = o.isContainment := by
  cases o with
  | comparison c =>
      cases c with
      | relation r negated caseless => cases r <;> rfl
      | order t => rfl
  | connective c => rfl

theorem negate_ne (o : Operator) : o.negate ≠ o := by
  cases o with
  | comparison c =>
      cases c with
      | relation r negated caseless => cases negated <;> simp [negate, Comparison.negate]
      | order t => cases t <;> decide
  | connective c => cases c <;> decide

end Operator

namespace Leaf

theorem negate_operator (l : Leaf) : l.negate.operator = l.operator.negate := rfl

theorem isNegative_negate {l : Leaf} (ordering : l.operator.isOrdering = false)
    (connective : l.operator.isConnective = false) : l.negate.isNegative = !l.isNegative := by
  rw [isNegative, isNegative, negate_operand, negate_operator,
    Operator.isNegated_negate ordering connective]
  split <;> rfl

/-- A leaf that compares by order and its negation both select events, or both exclude them. -/
theorem isNegative_negate_of_isOrdering {l : Leaf} (h : l.operator.isOrdering = true) :
    l.negate.isNegative = l.isNegative := by
  rw [isNegative, isNegative, negate_operand, negate_operator,
    Operator.isNegated_negate_of_isOrdering h]

end Leaf

namespace Connective

theorem negate_inj {c d : Connective} : c.negate = d.negate ↔ c = d := by
  cases c <;> cases d <;> decide

theorem negate_ne (c : Connective) : c.negate ≠ c := by
  cases c <;> decide

theorem holds_negate (c : Connective) (bs : List Bool) :
    c.negate.holds (bs.map not) = !c.holds bs := by
  cases c with
  | and =>
      show (bs.map not).any id = !bs.all id
      rw [List.any_map, List.not_all_eq_any_not]
      rfl
  | or =>
      show (bs.map not).all id = !bs.any id
      rw [List.all_map, List.not_any_eq_all_not]
      rfl

theorem holds?_negate (c : Connective) (bs : List Bool) :
    c.negate.holds? (bs.map not) = (c.holds? bs).map not := by
  by_cases hbs : bs = []
  · simp [hbs]
  · rw [holds?_of_ne_nil c hbs, holds?_of_ne_nil c.negate (by simpa using hbs), holds_negate,
      Option.map_some]

end Connective

namespace Criterion

/-! ## Combination -/

/-- The normal form of a combination, from those of its operands. -/
theorem flatten_combine (c : Connective) (a b : Criterion) :
    (combine c a b).flatten =
      joinAll c (a.flatten.operandsUnder c ++ b.flatten.operandsUnder c) := by
  rw [← operandsUnder_flatten_combine, joinAll_operandsUnder (isFlat_flatten _)]

theorem flatten_combine_flatten (c : Connective) (a b : Criterion) :
    (combine c a.flatten b.flatten).flatten = (combine c a b).flatten := by
  rw [flatten_combine, flatten_combine, flatten_flatten, flatten_flatten]

theorem flatten_combine_assoc (c : Connective) (a b d : Criterion) :
    (combine c (combine c a b) d).flatten = (combine c a (combine c b d)).flatten := by
  rw [flatten_combine c (combine c a b), flatten_combine c a (combine c b d),
    operandsUnder_flatten_combine, operandsUnder_flatten_combine, List.append_assoc]

/-! ## Negation -/

theorem negate_combine (c : Connective) (a b : Criterion) :
    (combine c a b).negate = combine c.negate a.negate b.negate := by
  cases a <;> cases b <;> rfl

theorem negate_negate (a : Criterion) : a.negate.negate = a := by
  induction a with
  | empty => rfl
  | leaf l => rw [negate_leaf, negate_leaf, l.negate_negate]
  | join c cs ih =>
      have hcs : cs.map (negate ∘ negate) = cs := (List.map_congr_left ih).trans cs.map_id
      rw [negate_join, negate_join, List.map_map, hcs, c.negate_negate]

theorem operandsUnder_negate (c : Connective) (a : Criterion) :
    a.negate.operandsUnder c.negate = (a.operandsUnder c).map negate := by
  cases a with
  | empty => rfl
  | leaf l => rfl
  | join d ds =>
      rw [negate_join, operandsUnder, operandsUnder]
      by_cases hd : d = c
      · rw [if_pos hd, if_pos (Connective.negate_inj.2 hd)]
      · rw [if_neg hd, if_neg fun h => hd (Connective.negate_inj.1 h), List.map_singleton,
          negate_join]

theorem negate_joinAll (c : Connective) (xs : List Criterion) :
    (joinAll c xs).negate = joinAll c.negate (xs.map negate) := by
  match xs with
  | [] => rfl
  | [x] => rfl
  | x :: y :: zs => exact negate_join c (x :: y :: zs)

theorem flatten_negate (a : Criterion) : a.negate.flatten = a.flatten.negate := by
  induction a with
  | empty => rfl
  | leaf l => rfl
  | join c cs ih =>
      have hops : flattenOperands c.negate (cs.map negate) = (flattenOperands c cs).map negate := by
        rw [flattenOperands_eq, flattenOperands_eq, List.flatMap_map, List.map_flatMap]
        exact List.flatMap_congr fun a ha => by rw [ih a ha, operandsUnder_negate]
      rw [negate_join, flatten_join, flatten_join, negate_joinAll, hops]

/-- A negated criterion is true as the criterion is false when its leaves are read as the opposites
of the negated ones. -/
theorem eval_negate_of_opposite {v w : Leaf → Bool} {a : Criterion}
    (opposite : ∀ l ∈ a.leaves, v l.negate = !w l) :
    a.negate.eval v = (a.eval w).map not := by
  induction a with
  | empty => rfl
  | leaf l => exact congrArg some (opposite l (List.mem_singleton_self l))
  | join c cs ih =>
      rw [leaves_join] at opposite
      have htruths : truths v (cs.map negate) = (truths w cs).map not := by
        rw [truths_eq, truths_eq, List.flatMap_map, List.map_flatMap]
        refine List.flatMap_congr fun a ha => ?_
        rw [ih a ha fun l hl => opposite l (List.mem_flatMap_of_mem ha hl), Option.toList_map]
      rw [negate_join, eval_join, eval_join, htruths, Connective.holds?_negate]

/-- Where negating a leaf turns its truth round, so does negating a criterion. -/
theorem eval_negate {v : Leaf → Bool} {a : Criterion}
    (opposite : ∀ l ∈ a.leaves, v l.negate = !v l) :
    a.negate.eval v = (a.eval v).map not :=
  eval_negate_of_opposite opposite

/-- Where no leaf is true together with its negation, neither is a criterion. -/
theorem eval_negate_ne_true {v : Leaf → Bool} {a : Criterion}
    (apart : ∀ l ∈ a.leaves, v l = true → v l.negate = false) (h : a.eval v = some true) :
    a.negate.eval v ≠ some true := by
  -- A leaf counts as true for the negated criterion as long as its negation is not.
  have hrelaxed : a.eval (fun l => !v l.negate) = some true :=
    eval_mono (fun l hl htrue => by rw [apart l hl htrue, Bool.not_false]) h
  have hnegate := eval_negate_of_opposite (v := v) (w := fun l => !v l.negate) (a := a)
    fun l _ => (Bool.not_not _).symm
  rw [hnegate, hrelaxed]
  decide

theorem eval_negate_eq_none_iff (v : Leaf → Bool) (a : Criterion) :
    a.negate.eval v = none ↔ a.eval v = none := by
  rw [eval_eq_none_iff, eval_eq_none_iff, leaves_negate, List.map_eq_nil_iff]

/-! ## The laws together -/

/-- The laws of combination by either connective and of negation, for all criteria. -/
theorem combine_negate_laws (c : Connective) (a b d : Criterion) :
    (combine c a b).flatten = (combine c a.flatten b.flatten).flatten ∧
      (combine c (combine c a b) d).flatten = (combine c a (combine c b d)).flatten ∧
      combine c empty a = a ∧ combine c a empty = a ∧
      (combine c a b).negate = combine c.negate a.negate b.negate ∧
      a.negate.negate = a ∧ a.negate.flatten = a.flatten.negate ∧
      ∀ v, (a.negate.eval v = none ↔ a.eval v = none) ∧
        ((∀ l ∈ a.leaves, v l.negate = !v l) → a.negate.eval v = (a.eval v).map not) :=
  ⟨(flatten_combine_flatten c a b).symm, flatten_combine_assoc c a b d, combine_empty_left c a,
    combine_empty_right c a, negate_combine c a b, negate_negate a, flatten_negate a,
    fun v => ⟨eval_negate_eq_none_iff v a, eval_negate⟩⟩

/-- Two leaves beside joins of one operand and of none; leaves that exclude events are false. -/
theorem combine_negate_laws_degenerate :
    let a : Criterion := join .or [leaf (.present (.single "x")), join .and [],
      join .and [join .or [leaf ⟨.single "y", .comparison (.relation .regex true false),
        some (.text "z")⟩]]]
    let v : Leaf → Bool := fun l => !l.isNegative
    (∀ l ∈ a.leaves, v l.negate = !v l) ∧ a.eval v = some true ∧
      a.negate.eval v = some false := by
  intro a v
  have opposite : ∀ l ∈ a.leaves, v l.negate = !v l := by decide
  have htrue : a.eval v = some true := rfl
  obtain ⟨-, -, -, -, -, -, -, hnegate⟩ := combine_negate_laws .and a a a
  refine ⟨opposite, htrue, ?_⟩
  rw [(hnegate v).2 opposite, htrue]
  rfl

end Criterion

end EventQuery
