import EventQuery.Value
import Mathlib.Data.List.TakeWhile

/-!
# Numbers are written without signs of the grammar

Digits are read back as the number they were made of. The text of a value that is not text itself
consists of letters, digits, minus signs and points, and there is always some: the shortest decimal
of a number other than zero has a digit left when its trailing zeros are gone.
-/

namespace EventQuery

namespace Digits

theorem value_ofNat (n : Nat) : value (ofNat n) = n := Nat.ofDigitChars_ten_toDigits

theorem isDigit_of_mem_ofNat {n : Nat} {c : Char} (h : c ∈ ofNat n) : c.isDigit = true :=
  Nat.isDigit_of_mem_toDigits (by decide) (by decide) h

theorem ofNat_ne_nil (n : Nat) : ofNat n ≠ [] := Nat.toDigits_ne_nil

theorem ofInt_ne_nil (n : Int) : ofInt n ≠ [] := by
  rw [ofInt]
  split
  · exact List.cons_ne_nil _ _
  · exact ofNat_ne_nil _

theorem value_of_zeros {s : List Char} (h : ∀ c ∈ s, c = '0') : value s = 0 := by
  induction s with
  | nil => rfl
  | cons c s ih =>
      obtain rfl := h c List.mem_cons_self
      exact ih fun d hd => h d (List.mem_cons_of_mem _ hd)

end Digits

/-! ## The digits that are written -/

namespace Decimal

theorem isDigit_of_mem_significant {d : Decimal} {c : Char} (h : c ∈ d.significant.1) :
    c.isDigit = true := by
  refine Digits.isDigit_of_mem_ofNat (n := d.digits) ?_
  exact List.mem_reverse.1 ((List.dropWhile_suffix _).subset (List.mem_reverse.1 h))

theorem significant_ne_nil {d : Decimal} (h : d.digits ≠ 0) : d.significant.1 ≠ [] := by
  intro hnil
  have hzeros : ∀ c ∈ Digits.ofNat d.digits, c = '0' := by
    have hdropped := List.reverse_eq_nil_iff.1 hnil
    intro c hc
    simpa using List.dropWhile_eq_nil_iff.1 hdropped c (List.mem_reverse.2 hc)
  apply h
  rw [← Digits.value_ofNat d.digits, Digits.value_of_zeros hzeros]

end Decimal

namespace Binary64

theorem readsBack_of_neighbour? {readsBack : Nat → Bool} {prefersUpper : Bool} {lower : Nat}
    {exponent : Int} {d : Decimal}
    (h : neighbour? readsBack prefersUpper lower exponent = some d) :
    readsBack d.digits = true ∧ d.exponent = exponent := by
  unfold neighbour? at h
  split at h
  · rename_i hlower hupper
    cases h
    cases prefersUpper
    · exact ⟨hlower, rfl⟩
    · exact ⟨hupper, rfl⟩
  · rename_i hlower hupper
    cases h
    exact ⟨hlower, rfl⟩
  · rename_i hlower hupper
    cases h
    exact ⟨hupper, rfl⟩
  · cases h

theorem candidate?_eq (m : Magnitude) (tie : Tie) (count : Nat) :
    ∃ prefersUpper lower exponent, m.candidate? tie count =
      neighbour? (m.readsBack exponent) prefersUpper lower exponent := ⟨_, _, _, rfl⟩

theorem ofDecimal_of_candidate? {m : Magnitude} {tie : Tie} {count : Nat} {d : Decimal}
    (h : m.candidate? tie count = some d) : ofDecimal false d = .finite false m := by
  obtain ⟨prefersUpper, lower, exponent, heq⟩ := candidate?_eq m tie count
  obtain ⟨hdigits, rfl⟩ := readsBack_of_neighbour? (heq ▸ h)
  exact eq_of_beq hdigits

/-- A decimal without value reads back as zero only. -/
theorem digits_ne_zero_of_candidate? {m : Magnitude} (hm : m.significand ≠ 0) {tie : Tie}
    {count : Nat} {d : Decimal} (h : m.candidate? tie count = some d) : d.digits ≠ 0 := by
  intro hd
  have hzero : ofDecimal false d = zero false := by
    rw [ofDecimal, if_pos (Or.inl hd)]
  rw [ofDecimal_of_candidate? h] at hzero
  cases hzero
  exact hm rfl

theorem digits_shortest_ne_zero {m : Magnitude} (hm : m.significand ≠ 0) (tie : Tie) :
    (m.shortest tie).digits ≠ 0 := by
  rw [Magnitude.shortest]
  cases hfound : (List.range 17).findSome? fun n => m.candidate? tie (n + 1) with
  | none =>
      have hunits : m.units ≠ 0 := Nat.mul_ne_zero hm (Nat.ne_of_gt (Nat.two_pow_pos _))
      have hpower : ∀ n, Nat.pow 5 n ≠ 0 := fun n => Nat.ne_of_gt (Nat.pow_pos (by decide))
      intro hexact
      rcases Nat.mul_eq_zero.1 hexact with h | h
      · exact hunits h
      · exact hpower 1074 h
  | some d =>
      obtain ⟨count, -, hcount⟩ := List.exists_of_findSome?_eq_some hfound
      exact digits_ne_zero_of_candidate? hm hcount

end Binary64

/-! ## Bare text -/

/-- The characters of values that are not text. -/
def isBareChar (c : Char) : Bool := c.isAlphanum || c == '-' || c == '.'

theorem isBareChar_of_isDigit {c : Char} (h : c.isDigit = true) : isBareChar c = true := by
  simp [isBareChar, Char.isAlphanum, h]

/-- Characters of one class, at least one. -/
def IsBare (s : List Char) : Prop := s ≠ [] ∧ ∀ c ∈ s, isBareChar c = true

instance (s : List Char) : Decidable (IsBare s) :=
  decidable_of_iff ((!s.isEmpty && s.all isBareChar) = true) (by simp [IsBare])

theorem IsBare.cons {c : Char} {s : List Char} (hc : isBareChar c = true) (h : IsBare s) :
    IsBare (c :: s) :=
  ⟨List.cons_ne_nil _ _, List.forall_mem_cons.2 ⟨hc, h.2⟩⟩

theorem isBare_ofInt (n : Int) : IsBare (Digits.ofInt n) := by
  refine ⟨Digits.ofInt_ne_nil n, fun c hc => ?_⟩
  rw [Digits.ofInt] at hc
  split at hc
  · rcases List.mem_cons.1 hc with rfl | hc
    · decide
    · exact isBareChar_of_isDigit (Digits.isDigit_of_mem_ofNat hc)
  · exact isBareChar_of_isDigit (Digits.isDigit_of_mem_ofNat hc)

namespace Value

theorem isBare_writePositional {ds : List Char} (hne : ds ≠ [])
    (hds : ∀ c ∈ ds, c.isDigit = true) (exponent : Int) :
    IsBare (floatLayout.writePositional ds exponent) := by
  have digit : ∀ c ∈ ds, isBareChar c = true := fun c hc => isBareChar_of_isDigit (hds c hc)
  have zero : ∀ n, ∀ c ∈ List.replicate n '0', isBareChar c = true := fun n c hc => by
    rw [List.eq_of_mem_replicate hc]
    decide
  unfold Binary64.Layout.writePositional
  extract_lets point
  split
  · refine ⟨by simp [hne], fun c hc => ?_⟩
    rw [List.append_assoc, List.mem_append] at hc
    rcases hc with hc | hc
    · exact digit c hc
    · exact zero exponent.toNat c (by simpa [floatLayout] using hc)
  · split
    · refine ⟨by simp, fun c hc => ?_⟩
      rcases List.mem_append.1 hc with hc | hc
      · exact digit c (List.mem_of_mem_take hc)
      · rcases List.mem_cons.1 hc with rfl | hc
        · decide
        · exact digit c (List.mem_of_mem_drop hc)
    · refine IsBare.cons (by decide) ⟨List.cons_ne_nil _ _, List.forall_mem_cons.2 ⟨by decide, ?_⟩⟩
      intro c hc
      rcases List.mem_append.1 hc with hc | hc
      · exact zero _ c hc
      · exact digit c hc

theorem isBare_writeMagnitude (m : Binary64.Magnitude) : IsBare (floatLayout.writeMagnitude m) := by
  by_cases hm : m.significand = 0
  · rw [Binary64.Layout.writeMagnitude, if_pos hm]
    decide
  · have hne := Decimal.significant_ne_nil (Binary64.digits_shortest_ne_zero hm floatLayout.tie)
    have hds := fun c =>
      Decimal.isDigit_of_mem_significant (d := m.shortest floatLayout.tie) (c := c)
    rw [Binary64.Layout.writeMagnitude, if_neg hm]
    generalize (m.shortest floatLayout.tie).significant = written at hne hds ⊢
    obtain ⟨ds, exponent⟩ := written
    exact isBare_writePositional hne hds exponent

theorem isBare_write (x : Binary64) : IsBare (floatLayout.write x) := by
  cases x with
  | nan => decide
  | infinite negative => cases negative <;> decide
  | finite negative m =>
      rw [Binary64.Layout.write]
      split
      · exact .cons (by decide) (isBare_writeMagnitude m)
      · exact isBare_writeMagnitude m

theorem spelling_of_ne_text {v : Value} (h : ∀ s, v ≠ .text s) : v.spelling = v.plainText := by
  cases v with
  | text s => exact absurd rfl (h s)
  | _ => rfl

/-- A value that is not text is written in letters, digits, minus signs and points. -/
theorem isBare_plainText {v : Value} (h : ∀ s, v ≠ .text s) : IsBare v.plainText := by
  cases v with
  | bool b => cases b <;> decide
  | int n => exact isBare_ofInt n.toInt
  | float x => exact isBare_write x
  | text s => exact absurd rfl (h s)

end Value

end EventQuery
