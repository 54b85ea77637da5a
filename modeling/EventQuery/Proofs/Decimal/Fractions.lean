import EventQuery.Proofs.Decimal.Layout
import EventQuery.Proofs.Decimal.Literals
import EventQuery.Proofs.Decimal.Quotients

/-!
# Numbers with a fraction

The shortest decimal of a number reads back as the number, however long its digits are. Without the
zeros at its end it has digits behind the point exactly if the number is no whole number, so that an
operand with a fraction is written with a point and one without is written as an integer.
-/

namespace EventQuery

namespace Digits

theorem foldl_value (n : Nat) (s : List Char) :
    s.foldl (fun n c => 10 * n + (c.toNat - '0'.toNat)) n = n * 10 ^ s.length + value s := by
  induction s generalizing n with
  | nil => simp
  | cons c s ih =>
      rw [value, List.foldl_cons, List.foldl_cons, ih, ih (10 * 0 + _), List.length_cons,
        Nat.pow_succ, Nat.mul_zero, Nat.zero_add, Nat.add_mul, Nat.add_assoc]
      congr 1
      rw [Nat.mul_comm 10 n, Nat.mul_assoc, Nat.mul_comm 10]

theorem value_append (s t : List Char) : value (s ++ t) = value s * 10 ^ t.length + value t := by
  rw [value, List.foldl_append]
  exact foldl_value _ t

theorem value_cons (c : Char) (s : List Char) :
    value (c :: s) = (c.toNat - '0'.toNat) * 10 ^ s.length + value s := by
  rw [value, List.foldl_cons, foldl_value, Nat.mul_zero, Nat.zero_add]

theorem value_zeros (k : Nat) : value (List.replicate k '0') = 0 :=
  value_of_zeros fun _ hc => List.eq_of_mem_replicate hc

theorem value_append_zeros (s : List Char) (k : Nat) :
    value (s ++ List.replicate k '0') = value s * 10 ^ k := by
  rw [value_append, value_zeros, List.length_replicate, Nat.add_zero]

theorem value_zeros_append (k : Nat) (s : List Char) :
    value (List.replicate k '0' ++ s) = value s := by
  rw [value_append, value_zeros, Nat.zero_mul, Nat.zero_add]

theorem value_lt {s : List Char} (h : ∀ c ∈ s, c.isDigit = true) : value s < 10 ^ s.length := by
  induction s with
  | nil => decide
  | cons c s ih =>
      have hs := ih fun d hd => h d (List.mem_cons_of_mem c hd)
      have hc : c.toNat ≤ 57 := (Char.isDigit_iff_toNat.1 (h c List.mem_cons_self)).2
      have hzero : '0'.toNat = 48 := rfl
      have hdigit : (c.toNat - '0'.toNat) * 10 ^ s.length ≤ 9 * 10 ^ s.length :=
        Nat.mul_le_mul_right _ (by omega)
      rw [value_cons, List.length_cons, Nat.pow_succ]
      omega

end Digits

namespace Decimal

/-- The digits that are kept, and how many zeros count in the exponent instead. -/
theorem significant_eq (d : Decimal) :
    ∃ kept k, d.significant = (kept, d.exponent + (k : Nat)) ∧
      Digits.ofNat d.digits = kept ++ List.replicate k '0' ∧ kept.getLast? ≠ some '0' := by
  generalize hdigits : Digits.ofNat d.digits = digits
  have hzeros : (digits.reverse.takeWhile (· = '0')).reverse =
      List.replicate (digits.reverse.takeWhile (· = '0')).length '0' := by
    rw [List.eq_replicate_iff, List.length_reverse]
    exact ⟨rfl, fun c hc => by simpa using List.mem_takeWhile_imp (List.mem_reverse.1 hc)⟩
  have hsplit : digits = (digits.reverse.dropWhile (· = '0')).reverse ++
      List.replicate (digits.reverse.takeWhile (· = '0')).length '0' := by
    rw [← hzeros, ← List.reverse_append, List.takeWhile_append_dropWhile, List.reverse_reverse]
  refine ⟨_, _, ?_, hsplit, ?_⟩
  · rw [significant, hdigits]
    have hlength := congrArg List.length hsplit
    rw [List.length_append, List.length_replicate] at hlength
    congr 3
    omega
  · rw [List.getLast?_reverse]
    intro hlast
    have hne := List.head?_dropWhile_not (· = '0') digits.reverse
    rw [hlast] at hne
    exact absurd rfl (of_decide_eq_false hne)

/-- The zeros that are not kept make no difference to the value. -/
theorem exists_digits_eq (d : Decimal) :
    ∃ k : Nat, d.digits = Digits.value d.significant.1 * 10 ^ k ∧
      d.significant.2 = d.exponent + k := by
  obtain ⟨kept, k, hkept, hdigits, -⟩ := d.significant_eq
  refine ⟨k, ?_, by rw [hkept]⟩
  rw [← Digits.value_ofNat d.digits, hdigits, Digits.value_append_zeros, hkept]

/-- As many zeros as possible count in the exponent. -/
theorem le_exponent_of_digits_eq {d : Decimal} {n k : Nat} (hd : d.digits ≠ 0)
    (h : d.digits = n * 10 ^ k) : d.exponent + k ≤ d.significant.2 := by
  obtain ⟨kept, j, hkept, hdigits, hlast⟩ := d.significant_eq
  have hvalue : Digits.value kept * 10 ^ j = n * 10 ^ k := by
    rw [← Digits.value_append_zeros, ← hdigits, Digits.value_ofNat, h]
  rw [hkept]
  by_contra hlt
  have hjk : j < k := by omega
  have hpos : 0 < 10 ^ j := Nat.pow_pos (by decide)
  -- the value of the kept digits would end in a zero
  have hkeptValue : Digits.value kept = n * 10 ^ (k - j - 1) * 10 := by
    apply Nat.mul_right_cancel hpos
    rw [hvalue, Nat.mul_assoc, Nat.mul_assoc, ← Nat.pow_succ', ← Nat.pow_add]
    congr 2
    omega
  rcases List.eq_nil_or_concat' kept with rfl | ⟨ds, c, rfl⟩
  · rw [Digits.value_nil, Nat.zero_mul] at hvalue
    exact hd (h.trans hvalue.symm)
  · have hc : c.isDigit = true := by
      refine Digits.isDigit_of_mem_ofNat (n := d.digits) ?_
      rw [hdigits]
      simp
    obtain ⟨hlower, hupper⟩ := Char.isDigit_iff_toNat.1 hc
    have hne : c.toNat ≠ 48 := by
      intro heq
      refine hlast ?_
      rw [List.getLast?_concat, ← Char.ofNat_toNat c, heq]
    have hzero : '0'.toNat = 48 := rfl
    have hnine : '9'.toNat = 57 := rfl
    rw [Digits.value_append, Digits.value_cons, Digits.value_nil, List.length_singleton,
      List.length_nil, Nat.pow_one, Nat.pow_zero, hzero] at hkeptValue
    omega

end Decimal

namespace Binary64

/-- The number is finite and no whole number. -/
def hasFraction : Binary64 → Bool
  | finite _ m => m.units % unitsPerOne ≠ 0
  | _ => false

variable {m : Magnitude} {tie : Tie}

/-! ## Shortest decimals -/

theorem exact_eq (m : Magnitude) :
    m.exact = ⟨m.units * 5 ^ unitPlace, -(unitPlace : Int)⟩ := by
  have hfive : Nat.pow 5 1074 = 5 ^ unitPlace := by decide +kernel
  rw [Magnitude.exact, hfive]
  rfl

theorem ofDecimal_exact (negative : Bool) (m : Magnitude) :
    ofDecimal negative m.exact = .finite negative m := by
  have hpos : 0 < 10 ^ unitPlace := Nat.pow_pos (by decide)
  have hten : 10 ^ unitPlace = 5 ^ unitPlace * 2 ^ unitPlace := by
    rw [← Nat.mul_pow]
  rw [exact_eq, ofDecimal_eq_ofRatio]
  simp only [Int.neg_neg, Int.toNat_natCast, Int.toNat_neg_natCast, Nat.pow_zero, Nat.mul_one]
  refine ofRatio_exact hpos ?_
  rw [unitsPerOne_eq, hten, Nat.mul_assoc]

theorem ofDecimal_shortest (negative : Bool) (m : Magnitude) (tie : Tie) :
    ofDecimal negative (m.shortest tie) = .finite negative m := by
  rw [Magnitude.shortest]
  cases hfound : (List.range 17).findSome? fun n => m.candidate? tie (n + 1) with
  | none => exact ofDecimal_exact negative m
  | some d =>
      obtain ⟨count, -, hcount⟩ := List.exists_of_findSome?_eq_some hfound
      exact ofDecimal_eq_finite_iff.2 (ofDecimal_of_candidate? hcount)

/-- The zeros that are not kept make no difference to the number read. -/
theorem ofDecimal_significant (negative : Bool) (d : Decimal) :
    ofDecimal negative ⟨Digits.value d.significant.1, d.significant.2⟩ = ofDecimal negative d := by
  obtain ⟨k, hdigits, hexponent⟩ := d.exists_digits_eq
  rw [hexponent, ← ofDecimal_mul_pow, ← hdigits]

/-! ## Whole numbers -/

theorem value_lt_pow_length (n : Nat) : n < 10 ^ (Digits.ofNat n).length := by
  have h := Digits.value_lt fun c (hc : c ∈ Digits.ofNat n) => Digits.isDigit_of_mem_ofNat hc
  rwa [Digits.value_ofNat] at h

theorem scaled_div_unitsPerOne {n : Nat} (h : m.units = n * unitsPerOne) :
    m.scaled / unitsPerOne = n * 10 ^ scale := by
  rw [Magnitude.scaled, h, Nat.pow_eq, Nat.mul_right_comm, Nat.mul_div_cancel _ unitsPerOne_pos]

/-- A whole number reads back from its digits. -/
theorem readsBack_of_units_eq {n : Nat} (h : m.units = n * unitsPerOne) :
    m.readsBack 0 n = true := by
  rw [Magnitude.readsBack, beq_iff_eq, ofDecimal_eq_ofRatio]
  refine ofRatio_exact Nat.one_pos ?_
  simp [h]

theorem isSome_neighbour?_of_readsBack {readsBack : Nat → Bool} {lower : Nat}
    (h : readsBack lower = true) (prefersUpper : Bool) (exponent : Int) :
    (neighbour? readsBack prefersUpper lower exponent).isSome = true := by
  rw [neighbour?, h]
  cases readsBack (lower + 1) <;> rfl

theorem exponent_of_candidate? {count : Nat} {d : Decimal} (h : m.candidate? tie count = some d) :
    d.exponent = ((Digits.ofNat (m.scaled / unitsPerOne)).length - count : Nat) - (scale : Int) :=
  (readsBack_of_neighbour? h).2

/-- A whole number has a candidate without a fraction. -/
theorem isSome_candidate?_of_units_eq {n : Nat} (h : m.units = n * unitsPerOne) {count : Nat}
    (hcount : (Digits.ofNat (m.scaled / unitsPerOne)).length = count + scale) :
    (m.candidate? tie count).isSome = true := by
  have hdropped : (Digits.ofNat (m.scaled / unitsPerOne)).length - count = scale := by omega
  have hlower : m.scaled / unitsPerOne / Nat.pow 10 scale = n := by
    rw [scaled_div_unitsPerOne h, Nat.pow_eq, Nat.mul_div_cancel _ (Nat.pow_pos (by decide))]
  rw [Magnitude.candidate?]
  simp only [hdropped, hlower, Int.sub_self]
  exact isSome_neighbour?_of_readsBack (readsBack_of_units_eq h) _ _

/-- The first number below a bound for which there is a result. -/
theorem findSome?_range_min {β : Type} {f : Nat → Option β} {n : Nat} {b : β}
    (h : (List.range n).findSome? f = some b) :
    ∃ k < n, f k = some b ∧ ∀ j < k, f j = none := by
  obtain ⟨before, k, after, hsplit, hk, hbefore⟩ := List.findSome?_eq_some_iff.1 h
  have hrange : ∀ j, j < n ↔ j ∈ before ++ k :: after := fun j => by rw [← hsplit, List.mem_range]
  have hsorted : (before ++ k :: after).Pairwise (· < ·) := hsplit ▸ List.pairwise_lt_range
  refine ⟨k, (hrange k).2 (by simp), hk, fun j hj => hbefore j ?_⟩
  have hkn := (hrange k).2 (by simp)
  rcases List.mem_append.1 ((hrange j).1 (Nat.lt_trans hj hkn)) with hmem | hmem
  · exact hmem
  · rcases List.mem_cons.1 hmem with rfl | hmem
    · exact absurd hj (Nat.lt_irrefl j)
    · have hlt := (List.pairwise_cons.1 (List.pairwise_append.1 hsorted).2.1).1 j hmem
      omega

/-- The digits of a whole number of format reach down to the point at most. -/
theorem le_exponent_of_shortest (hm : m.significand ≠ 0) {n : Nat}
    (h : m.units = n * unitsPerOne) : 0 ≤ (m.shortest tie).significant.2 := by
  have hunits : m.units ≠ 0 := Nat.mul_ne_zero hm (Nat.ne_of_gt (Nat.two_pow_pos _))
  have hn : 0 < n := Nat.pos_of_ne_zero fun hzero => hunits (by rw [h, hzero, Nat.zero_mul])
  have hdigits := digits_shortest_ne_zero hm tie
  have hlength : scale < (Digits.ofNat (m.scaled / unitsPerOne)).length := by
    have hlt := value_lt_pow_length (m.scaled / unitsPerOne)
    rw [scaled_div_unitsPerOne h] at hlt ⊢
    exact (Nat.pow_lt_pow_iff_right (by decide)).1
      (Nat.lt_of_le_of_lt (Nat.le_mul_of_pos_left _ hn) hlt)
  rw [Magnitude.shortest] at hdigits ⊢
  cases hfound : (List.range 17).findSome? fun n => m.candidate? tie (n + 1) with
  | none =>
      rw [hfound, Option.getD_none] at hdigits
      rw [Option.getD_none]
      have hvalue : m.exact.digits = n * 10 ^ unitPlace := by
        have hten : 10 ^ unitPlace = 2 ^ unitPlace * 5 ^ unitPlace := by
          rw [← Nat.mul_pow]
        rw [exact_eq, h, unitsPerOne_eq, hten, Nat.mul_assoc]
      have hexponent : m.exact.exponent = -(unitPlace : Int) := by rw [exact_eq]
      have hle := Decimal.le_exponent_of_digits_eq hdigits hvalue
      omega
  | some d =>
      rw [hfound, Option.getD_some] at hdigits
      rw [Option.getD_some]
      obtain ⟨count, -, hcount, hfirst⟩ := findSome?_range_min hfound
      have hexponent := exponent_of_candidate? hcount
      obtain ⟨k, -, hk⟩ := d.exists_digits_eq
      by_contra hneg
      -- a candidate without a fraction would have been found before
      have hbefore := hfirst ((Digits.ofNat (m.scaled / unitsPerOne)).length - scale - 1) (by omega)
      have hsome : (m.candidate? tie
          ((Digits.ofNat (m.scaled / unitsPerOne)).length - scale - 1 + 1)).isSome = true :=
        isSome_candidate?_of_units_eq h (by omega)
      rw [hbefore] at hsome
      cases hsome

/-- The digits reach behind the point exactly if the number is no whole number. -/
theorem exponent_nonneg_iff (hm : m.significand ≠ 0) :
    0 ≤ (m.shortest tie).significant.2 ↔ unitsPerOne ∣ m.units := by
  constructor
  · intro h
    have hread := (ofDecimal_significant false (m.shortest tie)).trans
      (ofDecimal_shortest false m tie)
    exact unitsPerOne_dvd_of_ofDecimal h hread
  · rintro ⟨n, hn⟩
    exact le_exponent_of_shortest hm (hn.trans (Nat.mul_comm _ _))

end Binary64

/-! ## How operands are written -/

namespace Value

open Binary64 Digits

variable {m : Magnitude} {ds : List Char} {exponent : Int}

theorem areDigits_zero : AreDigits ['0'] :=
  ⟨List.cons_ne_nil _ _, List.forall_mem_singleton.2 rfl⟩

theorem areDigits_writePositional (hds : AreDigits ds) (h : 0 ≤ exponent) :
    AreDigits (floatLayout.writePositional ds exponent) := by
  have hsuffix : floatLayout.wholeSuffix.toList = [] := by decide
  rw [Layout.writePositional, if_pos h, hsuffix, List.append_nil]
  refine ⟨by simp [hds.1], fun c hc => ?_⟩
  rcases List.mem_append.1 hc with hc | hc
  · exact hds.2 c hc
  · rw [List.eq_of_mem_replicate hc]
    rfl

/-- With digits behind the point there are digits in front of it too. -/
theorem exists_point_of_writePositional (hds : AreDigits ds) (h : exponent < 0) :
    ∃ whole fraction, AreDigits whole ∧ AreDigits fraction ∧
      floatLayout.writePositional ds exponent = whole ++ '.' :: fraction ∧
      value (whole ++ fraction) = value ds ∧ -(fraction.length : Int) = exponent := by
  unfold Layout.writePositional
  extract_lets point
  rw [if_neg (by omega)]
  split
  · rename_i hpoint
    refine ⟨_, _, ⟨?_, ?_⟩, ⟨?_, ?_⟩, rfl, ?_, ?_⟩
    · rw [ne_eq, List.take_eq_nil_iff, not_or]
      exact ⟨by omega, hds.1⟩
    · exact fun c hc => hds.2 c (List.mem_of_mem_take hc)
    · rw [ne_eq, List.drop_eq_nil_iff]
      omega
    · exact fun c hc => hds.2 c (List.mem_of_mem_drop hc)
    · rw [List.take_append_drop]
    · rw [List.length_drop]
      omega
  · rename_i hpoint
    refine ⟨['0'], _, areDigits_zero, ⟨by simp [hds.1], fun c hc => ?_⟩, rfl, ?_, ?_⟩
    · rcases List.mem_append.1 hc with hc | hc
      · rw [List.eq_of_mem_replicate hc]
        rfl
      · exact hds.2 c hc
    · rw [List.singleton_append, value_cons, value_zeros_append]
      simp
    · rw [List.length_append, List.length_replicate]
      omega

theorem areDigits_significant (hm : m.significand ≠ 0) (tie : Tie) :
    AreDigits (m.shortest tie).significant.1 :=
  ⟨Decimal.significant_ne_nil (digits_shortest_ne_zero hm tie),
    fun _ => Decimal.isDigit_of_mem_significant⟩

theorem writeMagnitude_of_ne (hm : m.significand ≠ 0) :
    floatLayout.writeMagnitude m = floatLayout.writePositional
      (m.shortest floatLayout.tie).significant.1 (m.shortest floatLayout.tie).significant.2 := by
  rw [Layout.writeMagnitude, if_neg hm]
  exact if_pos rfl

/-- A whole number is written in digits alone. -/
theorem areDigits_writeMagnitude (h : unitsPerOne ∣ m.units) :
    AreDigits (floatLayout.writeMagnitude m) := by
  by_cases hm : m.significand = 0
  · rw [Layout.writeMagnitude, if_pos hm]
    exact areDigits_zero
  · rw [writeMagnitude_of_ne hm]
    exact areDigits_writePositional (areDigits_significant hm _) ((exponent_nonneg_iff hm).2 h)

/-- A number with a fraction is written with a point, and its digits read back as the number. -/
theorem exists_point_of_writeMagnitude (h : ¬unitsPerOne ∣ m.units) :
    ∃ whole fraction, AreDigits whole ∧ AreDigits fraction ∧
      floatLayout.writeMagnitude m = whole ++ '.' :: fraction ∧
      ∀ negative, ofDecimal negative ⟨value (whole ++ fraction), -fraction.length⟩ =
        .finite negative m := by
  have hm : m.significand ≠ 0 := by
    intro hzero
    rw [Magnitude.units, hzero, Nat.zero_mul] at h
    exact h (Nat.dvd_zero _)
  have hexponent : (m.shortest floatLayout.tie).significant.2 < 0 := by
    rw [← Int.not_le, exponent_nonneg_iff hm]
    exact h
  obtain ⟨whole, fraction, hwhole, hfraction, htext, hvalue, hlength⟩ :=
    exists_point_of_writePositional (areDigits_significant hm floatLayout.tie) hexponent
  refine ⟨whole, fraction, hwhole, hfraction, (writeMagnitude_of_ne hm).trans htext, ?_⟩
  intro negative
  rw [hvalue, hlength]
  exact (ofDecimal_significant negative _).trans (ofDecimal_shortest negative m _)

end Value

end EventQuery
