import EventQuery.Decimal.Binary64
import Mathlib.Algebra.Order.Ring.Int

/-!
# Where rounding stays finite

A quotient below the greatest number is rounded to a finite one, between the powers of two on both
sides of the quotient. So whole numbers of 64 bits are finite, and division by a number that is at
least one never leads out of the format.
-/

namespace EventQuery.Binary64

/-- The place in which one has a single bit. -/
def unitPlace : Nat := 1074

/-- The last place of the format. -/
def lastPlace : Nat := 2045

/-- The greatest finite number in units. -/
def greatestUnits : Nat := (2 ^ 53 - 1) * 2 ^ lastPlace

theorem unitsPerOne_eq : unitsPerOne = 2 ^ unitPlace := by decide +kernel

theorem unitsPerOne_pos : 0 < unitsPerOne := by
  rw [unitsPerOne_eq]
  exact Nat.two_pow_pos _

theorem greatestUnits_lt : greatestUnits < 2 ^ (53 + lastPlace) := by
  rw [greatestUnits, Nat.pow_add]
  have hlast : 0 < 2 ^ lastPlace := Nat.two_pow_pos _
  omega

theorem two_pow_mul_le_greatestUnits {k : Nat} (h : k ≤ 1023) :
    2 ^ k * unitsPerOne ≤ greatestUnits := by
  have hgreatest : 2 ^ 1023 * unitsPerOne ≤ greatestUnits := by decide +kernel
  have hpower : ∀ {j}, k ≤ j → 2 ^ k * unitsPerOne ≤ 2 ^ j * unitsPerOne :=
    fun h => Nat.mul_le_mul_right _ (Nat.pow_le_pow_right (by decide) h)
  exact Nat.le_trans (hpower h) hgreatest

theorem roundHalfEven_bounds (num den : Nat) :
    num / den ≤ roundHalfEven num den ∧ roundHalfEven num den ≤ num / den + 1 := by
  rw [roundHalfEven]
  split <;> omega

/-! ## The place of a quotient -/

section Place

variable (q : Nat)

/-- The place in which a quotient keeps 53 bits. -/
def placeOf : Nat := q.log2 - 52

/-- The bits that are kept. -/
def keptOf : Nat := q / 2 ^ placeOf q

theorem keptOf_mul_le : keptOf q * 2 ^ placeOf q ≤ q := Nat.div_mul_le_self _ _

theorem keptOf_lt : keptOf q < 2 ^ 53 := by
  apply Nat.div_lt_of_lt_mul
  calc q < 2 ^ (q.log2 + 1) := Nat.lt_log2_self
    _ ≤ 2 ^ (placeOf q + 53) := by
      apply Nat.pow_le_pow_right (by decide)
      rw [placeOf]
      omega
    _ = 2 ^ placeOf q * 2 ^ 53 := Nat.pow_add _ _ _

variable {q}

theorem ne_zero_of_placeOf (h : placeOf q ≠ 0) : q ≠ 0 := by
  intro hq
  rw [hq] at h
  exact h rfl

theorem log2_eq_of_placeOf (h : placeOf q ≠ 0) : q.log2 = 52 + placeOf q := by
  rw [placeOf] at h ⊢
  omega

theorem le_keptOf (h : placeOf q ≠ 0) : 2 ^ 52 ≤ keptOf q := by
  apply (Nat.le_div_iff_mul_le (Nat.two_pow_pos _)).2
  rw [← Nat.pow_add, ← log2_eq_of_placeOf h]
  exact Nat.log2_self_le (ne_zero_of_placeOf h)

/-- A power of two below the quotient is below the bits that are kept. -/
theorem two_pow_le_keptOf {k : Nat} (h : 2 ^ k ≤ q) : 2 ^ k ≤ keptOf q * 2 ^ placeOf q := by
  by_cases hplace : placeOf q = 0
  · rw [keptOf, hplace, Nat.pow_zero, Nat.div_one, Nat.mul_one]
    exact h
  · have hk : k ≤ 52 + placeOf q := by
      rw [← log2_eq_of_placeOf hplace]
      exact (Nat.le_log2 (ne_zero_of_placeOf hplace)).2 h
    calc 2 ^ k ≤ 2 ^ (52 + placeOf q) := Nat.pow_le_pow_right (by decide) hk
      _ = 2 ^ 52 * 2 ^ placeOf q := Nat.pow_add _ _ _
      _ ≤ keptOf q * 2 ^ placeOf q := Nat.mul_le_mul_right _ (le_keptOf hplace)

/-- A power of two above the quotient is not passed when the kept bits are rounded up. -/
theorem keptOf_succ_le_two_pow {k : Nat} (h : q < 2 ^ k) :
    (keptOf q + 1) * 2 ^ placeOf q ≤ 2 ^ k := by
  by_cases hplace : placeOf q = 0
  · rw [keptOf, hplace, Nat.pow_zero, Nat.div_one, Nat.mul_one]
    exact h
  · have hk : 53 + placeOf q ≤ k := by
      have hlog := (Nat.log2_lt (ne_zero_of_placeOf hplace)).2 h
      have hplace' := log2_eq_of_placeOf hplace
      omega
    calc (keptOf q + 1) * 2 ^ placeOf q ≤ 2 ^ 53 * 2 ^ placeOf q :=
          Nat.mul_le_mul_right _ (keptOf_lt q)
      _ = 2 ^ (53 + placeOf q) := (Nat.pow_add _ _ _).symm
      _ ≤ 2 ^ k := Nat.pow_le_pow_right (by decide) hk

theorem placeOf_le (h : q < greatestUnits) : placeOf q ≤ lastPlace := by
  by_cases hplace : placeOf q = 0
  · rw [hplace]
    exact Nat.zero_le _
  · have hlog := (Nat.log2_lt (ne_zero_of_placeOf hplace)).2 (Nat.lt_trans h greatestUnits_lt)
    have hplace' := log2_eq_of_placeOf hplace
    omega

/-- In the last place the kept bits are not all ones, so that there no quotient is rounded up to the
place behind. -/
theorem keptOf_succ_lt (h : q < greatestUnits) (last : placeOf q = lastPlace) :
    keptOf q + 1 < 2 ^ 53 := by
  have hbelow := Nat.lt_of_le_of_lt (keptOf_mul_le q) h
  rw [last, greatestUnits] at hbelow
  have hkept := Nat.lt_of_mul_lt_mul_right hbelow
  omega

end Place

/-! ## Rounded quotients -/

/-- Kept bits that are rounded down or up make a number of the format. -/
theorem exists_ofUnits_eq (negative : Bool) {q rounded : Nat} (h : q < greatestUnits)
    (lower : keptOf q ≤ rounded) (upper : rounded ≤ keptOf q + 1) :
    ∃ m, (if rounded < Nat.pow 2 53 then ofUnits negative rounded (placeOf q)
        else ofUnits negative (Nat.pow 2 52) (placeOf q + 1)) = .finite negative m ∧
      m.units = rounded * 2 ^ placeOf q := by
  have hplace := placeOf_le h
  by_cases hsmall : rounded < Nat.pow 2 53
  · have hcanonical : Canonical rounded (placeOf q) := by
      refine ⟨hsmall, ?_, hplace⟩
      by_cases hzero : placeOf q = 0
      · exact Or.inl hzero
      · exact Or.inr (Nat.le_trans (le_keptOf hzero) lower)
    exact ⟨⟨rounded, placeOf q, hcanonical⟩, (if_pos hsmall).trans (dif_pos hcanonical), rfl⟩
  · have hkept := keptOf_lt q
    have hrounded : rounded = 2 ^ 53 := by
      rw [Nat.pow_eq] at hsmall
      omega
    have hnext : placeOf q + 1 ≤ lastPlace := by
      have hlast : placeOf q ≠ lastPlace := by
        intro hlast
        have hfew := keptOf_succ_lt h hlast
        omega
      omega
    have hcanonical : Canonical (Nat.pow 2 52) (placeOf q + 1) :=
      ⟨by decide, Or.inr (Nat.le_refl _), hnext⟩
    refine ⟨⟨Nat.pow 2 52, placeOf q + 1, hcanonical⟩, ?_, ?_⟩
    · exact (if_neg hsmall).trans (dif_pos hcanonical)
    · calc 2 ^ 52 * 2 ^ (placeOf q + 1) = 2 ^ 53 * 2 ^ placeOf q := by omega
        _ = rounded * 2 ^ placeOf q := by rw [hrounded]

/-- A quotient below the greatest number is finite, between the kept bits and the next ones up. -/
theorem exists_ofRatio_eq (negative : Bool) {num den q : Nat} (hq : num * unitsPerOne / den = q)
    (h : q < greatestUnits) :
    ∃ m, ofRatio negative num den = .finite negative m ∧
      keptOf q * 2 ^ placeOf q ≤ m.units ∧ m.units ≤ (keptOf q + 1) * 2 ^ placeOf q := by
  have hfloor : num * unitsPerOne / (den * Nat.pow 2 (placeOf q)) = keptOf q := by
    rw [← Nat.div_div_eq_div_mul, hq]
    rfl
  obtain ⟨lower, upper⟩ :=
    roundHalfEven_bounds (num * unitsPerOne) (den * Nat.pow 2 (placeOf q))
  rw [hfloor] at lower upper
  obtain ⟨m, hm, hunits⟩ := exists_ofUnits_eq negative h lower upper
  refine ⟨m, ?_, ?_, ?_⟩
  · rw [ofRatio, hq]
    exact hm
  · rw [hunits]
    exact Nat.mul_le_mul_right _ lower
  · rw [hunits]
    exact Nat.mul_le_mul_right _ upper

/-- The number is finite and no greater than `2 ^ k`. -/
def Within (k : Nat) (x : Binary64) : Prop :=
  ∃ s m, x = .finite s m ∧ m.units ≤ 2 ^ k * unitsPerOne

/-- The number is finite and at least one. -/
def AtLeastOne (x : Binary64) : Prop := ∃ s m, x = .finite s m ∧ unitsPerOne ≤ m.units

theorem Within.isFinite {k : Nat} {x : Binary64} (h : Within k x) : x.isFinite = true := by
  obtain ⟨s, m, rfl, -⟩ := h
  rfl

theorem within_ofRatio (negative : Bool) {num den k : Nat}
    (h : num * unitsPerOne / den < 2 ^ k * unitsPerOne) (hk : k ≤ 1023) :
    Within k (ofRatio negative num den) := by
  obtain ⟨m, hm, -, hupper⟩ :=
    exists_ofRatio_eq negative rfl (Nat.lt_of_lt_of_le h (two_pow_mul_le_greatestUnits hk))
  refine ⟨negative, m, hm, Nat.le_trans hupper ?_⟩
  rw [unitsPerOne_eq, ← Nat.pow_add] at h ⊢
  exact keptOf_succ_le_two_pow h

theorem within_of_lt_two_pow (negative : Bool) {n k : Nat} (h : n < 2 ^ k) (hk : k ≤ 1023) :
    Within k (ofRatio negative n 1) := by
  apply within_ofRatio negative _ hk
  rw [Nat.div_one]
  exact Nat.mul_lt_mul_of_pos_right h unitsPerOne_pos

theorem atLeastOne_ofNat {n : Nat} (pos : 0 < n) (h : n * unitsPerOne < greatestUnits) :
    AtLeastOne (ofNat n) := by
  obtain ⟨m, hm, hlower, -⟩ := exists_ofRatio_eq false (Nat.div_one _) h
  have hone : 2 ^ unitPlace ≤ n * unitsPerOne := by
    rw [← unitsPerOne_eq]
    exact Nat.le_mul_of_pos_left _ pos
  refine ⟨false, m, hm, ?_⟩
  rw [unitsPerOne_eq] at hlower hone ⊢
  exact Nat.le_trans (two_pow_le_keptOf hone) hlower

/-- Division by a number that is at least one adds no more than the rounding does. -/
theorem Within.div {k : Nat} {x y : Binary64} (hx : Within k x) (hy : AtLeastOne y)
    (hk : k + 1 ≤ 1023) : Within (k + 1) (x.div y) := by
  obtain ⟨s, m, rfl, hm⟩ := hx
  obtain ⟨t, n, rfl, hn⟩ := hy
  have hpos : 0 < n.units := Nat.lt_of_lt_of_le unitsPerOne_pos hn
  have hsignificand : n.significand ≠ 0 := by
    intro hzero
    rw [Magnitude.units, hzero, Nat.zero_mul] at hpos
    exact Nat.lt_irrefl 0 hpos
  have hpower : 2 ^ k < 2 ^ (k + 1) := Nat.pow_lt_pow_right (by decide) (Nat.lt_succ_self k)
  rw [Binary64.div, if_neg hsignificand]
  apply within_ofRatio _ _ hk
  calc m.units * unitsPerOne / n.units ≤ m.units * n.units / n.units :=
        Nat.div_le_div_right (Nat.mul_le_mul_left _ hn)
    _ = m.units := Nat.mul_div_cancel _ hpos
    _ ≤ 2 ^ k * unitsPerOne := hm
    _ < 2 ^ (k + 1) * unitsPerOne := Nat.mul_lt_mul_of_pos_right hpower unitsPerOne_pos

theorem isFinite_neg (x : Binary64) : x.neg.isFinite = x.isFinite := by
  cases x <;> rfl

end EventQuery.Binary64
