import EventQuery.Proofs.Decimal.Rounding
import Mathlib.Algebra.Order.Ring.Nat

/-!
# Decimals as quotients

A decimal is rounded as the quotient of two whole numbers that it is, and the branches that save
work round no differently. So only the value of a decimal matters, and not how many of its zeros are
digits. The sign passes through, a quotient that is a number of the format is kept as it is, and a
whole number is rounded to a whole number.
-/

namespace EventQuery.Binary64

/-! ## Rounding to whole numbers -/

theorem roundHalfEven_mul {c : Nat} (h : 0 < c) (num den : Nat) :
    roundHalfEven (num * c) (den * c) = roundHalfEven num den := by
  have hless : den * c < 2 * (num % den * c) ↔ den < 2 * (num % den) := by
    rw [← Nat.mul_assoc]
    exact Nat.mul_lt_mul_right h
  have htie : 2 * (num % den * c) = den * c ↔ 2 * (num % den) = den := by
    rw [← Nat.mul_assoc]
    exact Nat.mul_left_inj (Nat.ne_of_gt h)
  simp only [roundHalfEven, Nat.mul_div_mul_right _ _ h, Nat.mul_mod_mul_right, hless, htie]

theorem roundHalfEven_exact {den : Nat} (h : 0 < den) (n : Nat) :
    roundHalfEven (n * den) den = n := by
  simp only [roundHalfEven, Nat.mul_mod_left, Nat.mul_div_cancel _ h]
  rw [if_neg]
  omega

theorem roundHalfEven_eq_zero {num den : Nat} (h : 2 * num < den) : roundHalfEven num den = 0 := by
  have hdiv : num / den = 0 := Nat.div_eq_of_lt (by omega)
  have hmod : num % den = num := Nat.mod_eq_of_lt (by omega)
  simp only [roundHalfEven, hdiv, hmod]
  rw [if_neg]
  omega

/-! ## Quotients -/

section Quotients

variable {negative : Bool} {num den : Nat} {m : Magnitude}

theorem ofUnits_eq_finite_iff {significand place : Nat} :
    ofUnits negative significand place = .finite negative m ↔
      significand = m.significand ∧ place = m.place := by
  unfold ofUnits
  split
  · obtain ⟨significand', place', h'⟩ := m
    simp
  · rename_i hcanonical
    refine ⟨nofun, ?_⟩
    rintro ⟨rfl, rfl⟩
    exact absurd m.canonical hcanonical

/-- What a quotient is rounded to, given its rounded bits and their place. -/
def ofRounded (negative : Bool) (rounded place : Nat) : Binary64 :=
  if rounded < Nat.pow 2 53 then ofUnits negative rounded place
  else ofUnits negative (Nat.pow 2 52) (place + 1)

theorem ofRatio_eq {q : Nat} (hq : num * unitsPerOne / den = q) :
    ofRatio negative num den =
      ofRounded negative (roundHalfEven (num * unitsPerOne) (den * 2 ^ placeOf q))
        (placeOf q) := by
  rw [← hq]
  rfl

theorem ofRounded_of_lt {rounded place : Nat} (h : rounded < 2 ^ 53) :
    ofRounded negative rounded place = ofUnits negative rounded place := if_pos h

/-- The sign makes no difference to the size. -/
theorem ofRatio_eq_finite_iff :
    ofRatio negative num den = .finite negative m ↔ ofRatio false num den = .finite false m := by
  simp only [ofRatio_eq rfl]
  unfold ofRounded
  split
  · rw [ofUnits_eq_finite_iff, ofUnits_eq_finite_iff]
  · rw [ofUnits_eq_finite_iff, ofUnits_eq_finite_iff]

/-- A quotient may be reduced. -/
theorem ofRatio_mul {c : Nat} (h : 0 < c) :
    ofRatio negative (num * c) (den * c) = ofRatio negative num den := by
  have hquotient : num * c * unitsPerOne / (den * c) = num * unitsPerOne / den := by
    rw [Nat.mul_right_comm, Nat.mul_div_mul_right _ _ h]
  rw [ofRatio_eq hquotient, ofRatio_eq rfl, Nat.mul_right_comm num, Nat.mul_right_comm den,
    roundHalfEven_mul h]

/-- Less than half a unit is rounded to zero. -/
theorem ofRatio_of_lt (h : 2 * (num * unitsPerOne) < den) :
    ofRatio negative num den = zero negative := by
  have hquotient : num * unitsPerOne / den = 0 := Nat.div_eq_of_lt (by omega)
  have hplace : placeOf 0 = 0 := rfl
  rw [ofRatio_eq hquotient, hplace, Nat.pow_zero, Nat.mul_one, roundHalfEven_eq_zero h]
  rfl

/-- What has more bits than the format is infinite. -/
theorem ofRatio_of_le {k : Nat} (hk : 1024 ≤ k) (h : 2 ^ k * den ≤ num) (hden : 0 < den) :
    ofRatio negative num den = .infinite negative := by
  have hquotient : 2 ^ (k + unitPlace) ≤ num * unitsPerOne / den := by
    rw [Nat.le_div_iff_mul_le hden, unitsPerOne_eq]
    calc 2 ^ (k + unitPlace) * den = 2 ^ k * den * 2 ^ unitPlace := by
          rw [Nat.pow_add, Nat.mul_right_comm]
      _ ≤ num * 2 ^ unitPlace := Nat.mul_le_mul_right _ h
  have hlog : k + unitPlace ≤ (num * unitsPerOne / den).log2 :=
    (Nat.le_log2 (Nat.ne_of_gt (Nat.lt_of_lt_of_le (Nat.two_pow_pos _) hquotient))).2 hquotient
  have hunit : unitPlace = 1074 := rfl
  have hinfinite : ∀ significand place, 2045 < place →
      ofUnits negative significand place = .infinite negative :=
    fun significand place hplace => dif_neg fun hcanonical => by
      have hle := hcanonical.2.2
      omega
  rw [ofRatio_eq rfl, ofRounded, placeOf]
  split
  · exact hinfinite _ _ (by omega)
  · exact hinfinite _ _ (by omega)

theorem placeOf_units (m : Magnitude) : placeOf m.units = m.place := by
  obtain ⟨significand, place, hbits, hplace, -⟩ := m
  rw [Nat.pow_eq] at hbits
  show (significand * 2 ^ place).log2 - 52 = place
  rcases hplace with rfl | hnormal
  · rw [Nat.pow_zero, Nat.mul_one]
    by_cases hzero : significand = 0
    · rw [hzero]
      rfl
    · have hlog := (Nat.log2_lt hzero).2 hbits
      omega
  · rw [Nat.pow_eq] at hnormal
    have hpos : significand * 2 ^ place ≠ 0 :=
      Nat.mul_ne_zero (by omega) (Nat.ne_of_gt (Nat.two_pow_pos _))
    have hlower : 52 + place ≤ (significand * 2 ^ place).log2 := by
      rw [Nat.le_log2 hpos, Nat.pow_add]
      exact Nat.mul_le_mul_right _ hnormal
    have hupper : (significand * 2 ^ place).log2 < 53 + place := by
      rw [Nat.log2_lt hpos, Nat.pow_add]
      exact Nat.mul_lt_mul_of_pos_right hbits (Nat.two_pow_pos _)
    omega

/-- A number of the format is rounded to itself. -/
theorem ofRatio_exact (hden : 0 < den) (h : num * unitsPerOne = m.units * den) :
    ofRatio negative num den = .finite negative m := by
  have hquotient : num * unitsPerOne / den = m.units := by rw [h, Nat.mul_div_cancel _ hden]
  have hrounded : roundHalfEven (num * unitsPerOne) (den * 2 ^ m.place) = m.significand := by
    have hunits : num * unitsPerOne = m.significand * (den * 2 ^ m.place) := by
      rw [h, Magnitude.units, Nat.pow_eq, Nat.mul_assoc, Nat.mul_comm den]
    rw [hunits]
    exact roundHalfEven_exact (Nat.mul_pos hden (Nat.two_pow_pos _)) _
  rw [ofRatio_eq hquotient, placeOf_units, hrounded, ofRounded_of_lt m.canonical.1,
    ofUnits_eq_finite_iff]
  exact ⟨rfl, rfl⟩

theorem units_of_ofRounded {rounded place : Nat} (hrounded : rounded ≤ 2 ^ 53)
    (h : ofRounded negative rounded place = .finite negative m) :
    m.units = rounded * 2 ^ place := by
  unfold ofRounded at h
  rw [Magnitude.units, Nat.pow_eq]
  split at h
  · obtain ⟨rfl, rfl⟩ := ofUnits_eq_finite_iff.1 h
    rfl
  · rename_i hlarge
    obtain ⟨hsignificand, hplace⟩ := ofUnits_eq_finite_iff.1 h
    have heq : rounded = 2 ^ 53 := by
      rw [Nat.pow_eq] at hlarge
      omega
    rw [← hsignificand, ← hplace, heq, Nat.pow_eq, Nat.pow_succ]
    omega

/-- A whole number is rounded to a whole number. -/
theorem unitsPerOne_dvd_of_ofRatio_one {n : Nat} (h : ofRatio negative n 1 = .finite negative m) :
    unitsPerOne ∣ m.units := by
  have hupper : roundHalfEven (n * unitsPerOne) (1 * 2 ^ placeOf (n * unitsPerOne)) ≤ 2 ^ 53 := by
    rw [Nat.one_mul]
    have hbound := (roundHalfEven_bounds (n * unitsPerOne) (2 ^ placeOf (n * unitsPerOne))).2
    have hkept := keptOf_lt (n * unitsPerOne)
    rw [keptOf] at hkept
    omega
  rw [ofRatio_eq (Nat.div_one _)] at h
  rw [units_of_ofRounded hupper h, Nat.one_mul, unitsPerOne_eq]
  generalize hplace : placeOf (n * 2 ^ unitPlace) = place
  rcases Nat.le_total unitPlace place with hle | hle
  · exact Nat.dvd_mul_left_of_dvd (Nat.pow_dvd_pow 2 hle) _
  · -- all bits of the number are kept
    have hsplit : n * 2 ^ unitPlace = n * 2 ^ (unitPlace - place) * 2 ^ place := by
      rw [Nat.mul_assoc, ← Nat.pow_add, Nat.sub_add_cancel hle]
    rw [hsplit, roundHalfEven_exact (Nat.two_pow_pos _), ← hsplit]
    exact Nat.dvd_mul_left _ _

/-- Equal quotients are rounded alike. -/
theorem ofRatio_congr {num' den' : Nat} (hden : 0 < den) (hden' : 0 < den')
    (h : num * den' = num' * den) : ofRatio negative num den = ofRatio negative num' den' := by
  rw [← ofRatio_mul hden', h, Nat.mul_comm den, ofRatio_mul hden]

end Quotients

/-! ## Decimals -/

/-- A decimal is rounded as the quotient that it is. -/
theorem ofDecimal_eq_ofRatio (negative : Bool) (d : Decimal) :
    ofDecimal negative d = ofRatio negative (d.digits * 10 ^ d.exponent.toNat)
      (10 ^ (-d.exponent).toNat) := by
  have hten : ∀ k, 2 ^ k ≤ 10 ^ k := fun k => Nat.pow_le_pow_left (by decide) k
  unfold ofDecimal
  split
  · rename_i hsmall
    refine (ofRatio_of_lt ?_).symm
    rcases hsmall with hzero | hsmall
    · rw [hzero, Nat.zero_mul, Nat.zero_mul, Nat.mul_zero]
      exact Nat.pow_pos (by decide)
    · have hexponent : d.exponent.toNat = 0 := by omega
      have hbits : d.digits < 2 ^ (d.digits.log2 + 1) := Nat.lt_log2_self
      have hunit : unitPlace = 1074 := rfl
      rw [hexponent, Nat.pow_zero, Nat.mul_one, unitsPerOne_eq]
      calc 2 * (d.digits * 2 ^ unitPlace) = d.digits * 2 ^ (unitPlace + 1) := by
            rw [Nat.pow_succ, Nat.mul_comm 2, Nat.mul_assoc]
        _ < 2 ^ (d.digits.log2 + 1) * 2 ^ (unitPlace + 1) :=
            Nat.mul_lt_mul_of_pos_right hbits (Nat.two_pow_pos _)
        _ = 2 ^ (d.digits.log2 + 1 + (unitPlace + 1)) := (Nat.pow_add _ _ _).symm
        _ ≤ 2 ^ (-d.exponent).toNat := Nat.pow_le_pow_right (by decide) (by omega)
        _ ≤ 10 ^ (-d.exponent).toNat := hten _
  · rename_i hsmall
    have hpos : 0 < d.digits := Nat.pos_of_ne_zero fun hzero => hsmall (Or.inl hzero)
    split
    · rename_i hlarge
      have hexponent : (-d.exponent).toNat = 0 := by omega
      have hk : 1024 ≤ d.exponent.toNat := by omega
      rw [hexponent, Nat.pow_zero]
      refine (ofRatio_of_le hk ?_ Nat.one_pos).symm
      rw [Nat.mul_one]
      exact Nat.le_trans (hten _) (Nat.le_mul_of_pos_left _ hpos)
    · split
      · rename_i hexponent
        have hzero : (-d.exponent).toNat = 0 := by omega
        rw [hzero]
        rfl
      · have hzero : d.exponent.toNat = 0 := by omega
        rw [hzero, Nat.pow_zero, Nat.mul_one]
        rfl

/-- Zeros at the end may be digits or count in the exponent. -/
theorem ofDecimal_mul_pow (negative : Bool) (n k : Nat) (exponent : Int) :
    ofDecimal negative ⟨n * 10 ^ k, exponent⟩ = ofDecimal negative ⟨n, exponent + k⟩ := by
  have hpos : ∀ j : Nat, 0 < 10 ^ j := fun j => Nat.pow_pos (by decide)
  rw [ofDecimal_eq_ofRatio, ofDecimal_eq_ofRatio]
  refine ofRatio_congr (hpos _) (hpos _) ?_
  have hexponents : k + exponent.toNat + (-(exponent + k)).toNat =
      (exponent + k).toNat + (-exponent).toNat := by
    omega
  simp only [Nat.mul_assoc, ← Nat.pow_add]
  rw [← hexponents, Nat.add_assoc]

theorem ofDecimal_eq_finite_iff {negative : Bool} {d : Decimal} {m : Magnitude} :
    ofDecimal negative d = .finite negative m ↔ ofDecimal false d = .finite false m := by
  rw [ofDecimal_eq_ofRatio, ofDecimal_eq_ofRatio, ofRatio_eq_finite_iff]

/-- A decimal that is a whole number reads as one. -/
theorem unitsPerOne_dvd_of_ofDecimal {negative : Bool} {d : Decimal} {m : Magnitude}
    (whole : 0 ≤ d.exponent) (h : ofDecimal negative d = .finite negative m) :
    unitsPerOne ∣ m.units := by
  have hzero : (-d.exponent).toNat = 0 := by omega
  rw [ofDecimal_eq_ofRatio, hzero] at h
  exact unitsPerOne_dvd_of_ofRatio_one h

end EventQuery.Binary64
