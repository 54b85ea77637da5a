import EventQuery.Proofs.Decimal.Rounding
import EventQuery.Proofs.Json.Data

/-!
# What JSON text can stand for

Numbers are read as integers of 64 bits or as finite numbers, whatever is written, and nothing is
read that is nested deeper than the reader goes.
-/

namespace EventQuery.Json

/-! ## Numbers -/

theorem gather_lt {n : Nat} (h : n < 2 ^ 64) (ds : List Char) : (gather n ds).1 < 2 ^ 64 := by
  induction ds generalizing n with
  | nil => exact h
  | cons d ds ih =>
      rw [gather]
      split
      · rename_i hfits
        exact ih hfits
      · exact h

theorem atLeastOne_power {places : Nat} (h : places ≤ maxPower) :
    Binary64.AtLeastOne (power places) := by
  have hgreatest : 10 ^ maxPower * Binary64.unitsPerOne < Binary64.greatestUnits := by
    decide +kernel
  have hpower : 10 ^ places ≤ 10 ^ maxPower := Nat.pow_le_pow_right (by decide) h
  rw [power, Nat.pow_eq]
  apply Binary64.atLeastOne_ofNat (Nat.pow_pos (by decide))
  exact Nat.lt_of_le_of_lt (Nat.mul_le_mul_right _ hpower) hgreatest

/-- Products are looked at before they are taken, and division makes numbers smaller. -/
theorem isFinite_of_scale? {n : Nat} (hn : n < 2 ^ 64) {exponent : Int} {x : Binary64}
    (h : scale? n exponent = some x) : x.isFinite = true := by
  have hwhole : Binary64.Within 64 (.ofNat n) :=
    Binary64.within_of_lt_two_pow false hn (by decide)
  simp only [scale?] at h
  split at h
  · rw [← Option.some.inj h]
    exact hwhole.isFinite
  split at h
  · cases h
  split at h
  · split at h
    · rename_i hfinite
      rw [← Option.some.inj h]
      exact hfinite
    · cases h
  split at h
  · rename_i hplaces
    rw [← Option.some.inj h]
    exact (hwhole.div (atLeastOne_power hplaces) (by decide)).isFinite
  split at h
  · rename_i hplaces
    have hfirst := hwhole.div (atLeastOne_power (Nat.le_refl maxPower)) (by decide)
    rw [← Option.some.inj h]
    exact (hfirst.div (atLeastOne_power (by omega)) (by decide)).isFinite
  · rw [← Option.some.inj h]
    rfl

/-- What is read in place of a number. -/
theorem toData?_cases {n : Numeral} {d : Data} (h : n.toData? = some d) :
    (∃ i : Int, d = .int i ∧ -2 ^ 63 ≤ i ∧ i < 2 ^ 64) ∨
      ∃ x : Binary64, d = .float x ∧ x.isFinite = true := by
  have hfloat : ∀ {m : Nat} {exponent : Int}, m < 2 ^ 64 →
      (scale? m exponent).map (Numeral.toData?.signed n.negative) = some d →
      ∃ x : Binary64, d = .float x ∧ x.isFinite = true := by
    intro m exponent hm h
    obtain ⟨x, hx, rfl⟩ := Option.map_eq_some_iff.1 h
    have hfinite := isFinite_of_scale? hm hx
    refine ⟨_, rfl, ?_⟩
    split
    · rw [Binary64.isFinite_neg]
      exact hfinite
    · exact hfinite
  have hwhole := gather_lt (n := 0) (by decide) n.whole
  rw [Numeral.toData?] at h
  split at h
  rename_i significand dropped hgather
  rw [hgather] at hwhole
  split at h
  · split at h
    · cases h
      refine Or.inl ⟨significand, rfl, by omega, ?_⟩
      exact Int.ofNat_lt.2 hwhole
    · split at h
      · rename_i hnegative
        cases h
        have hbound : significand ≤ 2 ^ 63 := hnegative.2.2
        exact Or.inl ⟨-significand, rfl, by omega, by omega⟩
      · exact Or.inr (hfloat hwhole h)
  · have hall := gather_lt hwhole (n.fraction.getD [])
    exact Or.inr (hfloat hall h)

/-! ## Trees -/

section Trees

variable {k : Nat}

theorem forall_mem_of_itemsToData? {P : Data → Prop} (step : ∀ v d, Node.toData? k v = some d → P d)
    {vs : List Node} {ds : List Data} (h : itemsToData? k vs = some ds) : ∀ d ∈ ds, P d := by
  induction vs generalizing ds with
  | nil =>
      cases h
      exact nofun
  | cons v vs ih =>
      obtain ⟨d, hd, h⟩ := Option.bind_eq_some_iff.1 h
      obtain ⟨ds, hds, h⟩ := Option.bind_eq_some_iff.1 h
      cases h
      exact List.forall_mem_cons.2 ⟨step v d hd, ih hds⟩

theorem forall_mem_of_membersToData? {P : Data → Prop}
    (step : ∀ v d, Node.toData? k v = some d → P d) {ps : List (List Char × Node)}
    {ms : List (String × Data)} (h : membersToData? k ps = some ms) : ∀ m ∈ ms, P m.2 := by
  induction ps generalizing ms with
  | nil =>
      cases h
      exact nofun
  | cons p ps ih =>
      obtain ⟨name, -, h⟩ := Option.bind_eq_some_iff.1 h
      obtain ⟨d, hd, h⟩ := Option.bind_eq_some_iff.1 h
      obtain ⟨ms, hms, h⟩ := Option.bind_eq_some_iff.1 h
      cases h
      exact List.forall_mem_cons.2 ⟨step p.2 d hd, ih hms⟩

/-- What is read is data that JSON has, with finite numbers, and is not nested too deep. -/
theorem covers_of_toData? {v : Node} {d : Data} (h : v.toData? k = some d) :
    Covers (fun x => x.isFinite = true) d ∧ d.depth ≤ k := by
  induction k using Nat.strongRecOn generalizing v d with
  | _ k ih =>
      rw [Node.toData?.eq_def] at h
      cases v with
      | null =>
          cases h
          exact ⟨.null, Nat.zero_le k⟩
      | bool b =>
          cases h
          exact ⟨.bool b, Nat.zero_le k⟩
      | number n =>
          obtain ⟨i, rfl, lower, upper⟩ | ⟨x, rfl, hx⟩ := toData?_cases h
          · exact ⟨.int i lower upper, Nat.zero_le k⟩
          · exact ⟨.float x hx, Nat.zero_le k⟩
      | string body =>
          obtain ⟨s, -, rfl⟩ := Option.map_eq_some_iff.1 h
          exact ⟨.text s, Nat.zero_le k⟩
      | array items =>
          cases k with
          | zero => cases h
          | succ k =>
              obtain ⟨ds, hds, rfl⟩ := Option.map_eq_some_iff.1 h
              have hall := forall_mem_of_itemsToData? (fun v d => ih k (Nat.lt_succ_self k)) hds
              refine ⟨.array ds fun d hd => (hall d hd).1, ?_⟩
              exact Nat.succ_le_succ (Data.depthOfAll_le_iff.2 fun d hd => (hall d hd).2)
      | object members =>
          cases k with
          | zero => cases h
          | succ k =>
              obtain ⟨ms, hms, rfl⟩ := Option.map_eq_some_iff.1 h
              have hall := forall_mem_of_membersToData? (fun v d => ih k (Nat.lt_succ_self k)) hms
              refine ⟨.record ms fun m hm => (hall m hm).1, ?_⟩
              exact Nat.succ_le_succ (Data.depthOfMembers_le_iff.2 fun m hm => (hall m hm).2)

theorem forall_mem_of_mapM_eq_some {α β : Type} {f : α → Option β} {P : β → Prop}
    (step : ∀ x y, f x = some y → P y) {xs : List α} {ys : List β} (h : xs.mapM f = some ys) :
    ∀ y ∈ ys, P y := by
  induction xs generalizing ys with
  | nil =>
      cases h
      exact nofun
  | cons x xs ih =>
      rw [List.mapM_cons] at h
      obtain ⟨y, hy, h⟩ := Option.bind_eq_some_iff.1 h
      obtain ⟨ys, hys, h⟩ := Option.bind_eq_some_iff.1 h
      cases h
      exact List.forall_mem_cons.2 ⟨step x y hy, ih hys⟩

/-- So it is where an object is read for some of its members only. -/
theorem covers_of_restricted? {names : List String} {v : Node} {d : Data}
    (h : v.restricted? names = some d) :
    Covers (fun x => x.isFinite = true) d ∧ d.depth ≤ maxDepth := by
  cases v with
  | object members =>
      obtain ⟨named, -, h⟩ := Option.bind_eq_some_iff.1 h
      obtain ⟨kept, hkept, h⟩ := Option.bind_eq_some_iff.1 h
      cases h
      have hall : ∀ m ∈ kept,
          Covers (fun x => x.isFinite = true) m.2 ∧ m.2.depth ≤ maxDepth - 1 := by
        refine forall_mem_of_mapM_eq_some (fun p m hm => ?_) hkept
        obtain ⟨d, hd, hm⟩ := Option.bind_eq_some_iff.1 hm
        cases hm
        exact covers_of_toData? hd
      refine ⟨.record kept fun m hm => (hall m hm).1, ?_⟩
      exact Nat.succ_le_succ (Data.depthOfMembers_le_iff.2 fun m hm => (hall m hm).2)
  | _ => exact covers_of_toData? h

end Trees

end EventQuery.Json
