import EventQuery.Json.Reader
import EventQuery.Json.Writer
import EventQuery.Proofs.Decimal.Layout
import Mathlib.Algebra.Order.Ring.Int

/-!
# JSON numbers are read back

A number ends where the text does, or at the comma or the bracket behind it, so that what is read
from its text alone is also read from a longer text. Integers of 64 bits are read back as they are.
-/

namespace EventQuery

namespace Digits

/-- Only zero begins with a zero. -/
theorem ofNat_head_ne_zero {n : Nat} (h : n ≠ 0) : (ofNat n).head? ≠ some '0' := by
  induction n using Nat.strongRecOn with
  | _ n ih =>
      by_cases hsmall : n < 10
      · rw [ofNat, Nat.toDigits_of_lt_base hsmall]
        clear ih
        revert h
        revert n
        decide
      · have hquotient : n / 10 ≠ 0 := by omega
        have hhead := ih (n / 10) (by omega) hquotient
        rw [ofNat, Nat.toDigits_of_base_le (by decide) (by omega), ← ofNat]
        obtain ⟨c, cs, hcs⟩ := List.exists_cons_of_ne_nil (ofNat_ne_nil (n / 10))
        rw [hcs] at hhead ⊢
        exact hhead

end Digits

namespace Json

/-! ## The parts of a number -/

/-- Digits, at least one. -/
def someDigits? (s : List Char) : Option (List Char × List Char) :=
  if (digits s).1 = [] then none else some (digits s)

theorem someDigits?_eq_some_iff {s ds t : List Char} :
    someDigits? s = some (ds, t) ↔ digits s = (ds, t) ∧ ds ≠ [] := by
  rw [someDigits?]
  constructor
  · intro h
    split at h
    · cases h
    · rename_i hne
      have heq := Option.some.inj h
      rw [heq] at hne
      exact ⟨heq, hne⟩
  · intro h
    rw [h.1, if_neg h.2]

theorem whole?_eq_some_iff {s w t : List Char} :
    whole? s = some (w, t) ↔ someDigits? s = some (w, t) ∧ ∀ c cs, w ≠ '0' :: c :: cs := by
  rw [someDigits?_eq_some_iff, whole?]
  generalize digits s = d
  constructor
  · intro h
    split at h
    · cases h
    · cases h
    · rename_i hsome hzero
      cases h
      exact ⟨⟨rfl, hsome⟩, hzero⟩
  · intro h
    obtain ⟨⟨rfl, hsome⟩, hzero⟩ := h
    split
    · rename_i heq
      exact absurd (Prod.mk.inj heq).1 hsome
    · rename_i heq
      exact absurd (Prod.mk.inj heq).1 (hzero _ _)
    · rename_i heq
      rw [heq]

theorem fraction?_point (s : List Char) :
    fraction? ('.' :: s) = (someDigits? s).map fun p => (some p.1, p.2) := by
  rw [fraction?, someDigits?]
  generalize digits s = d
  obtain ⟨_ | ⟨c, ds⟩, t⟩ := d <;> rfl

theorem fraction?_of_ne {s : List Char} (h : ∀ c ∈ s.head?, c ≠ '.') :
    fraction? s = some (none, s) := by
  cases s with
  | nil => rfl
  | cons c s =>
      unfold fraction?
      split
      · rename_i heq
        cases heq
        exact absurd rfl (h '.' rfl)
      · rfl

/-- The digits of an exponent, told whether a minus sign stood before them. -/
def exponentDigits? (negative : Bool) (s : List Char) :
    Option (Option (Bool × List Char) × List Char) :=
  (someDigits? s).map fun p => (some (negative, p.1), p.2)

theorem exponentBody?_cons (c : Char) (s : List Char) :
    exponentBody? (c :: s) =
      if c = '-' then exponentDigits? true s
      else if c = '+' then exponentDigits? false s
      else exponentDigits? false (c :: s) := by
  have hdigits : ∀ negative s, exponentDigits? negative s =
      if (digits s).1 = [] then none else some (some (negative, (digits s).1), (digits s).2) := by
    intro negative s
    rw [exponentDigits?, someDigits?]
    split <;> rfl
  rw [hdigits, hdigits, hdigits]
  unfold exponentBody?
  split
  rename_i heq
  split at heq
  · rename_i hcons
    cases hcons
    cases heq
    rw [if_pos rfl]
    generalize digits s = d
    obtain ⟨_ | ⟨c, ds⟩, t⟩ := d <;> rfl
  · rename_i hcons
    cases hcons
    cases heq
    rw [if_neg (by decide), if_pos rfl]
    generalize digits s = d
    obtain ⟨_ | ⟨c, ds⟩, t⟩ := d <;> rfl
  · rename_i hminus hplus
    cases heq
    rw [if_neg fun hc => hminus s (by rw [hc]), if_neg fun hc => hplus s (by rw [hc])]
    generalize digits (c :: s) = d
    obtain ⟨_ | ⟨c, ds⟩, t⟩ := d <;> rfl

theorem exponent?_of_ne {s : List Char} (h : ∀ c ∈ s.head?, c ≠ 'e' ∧ c ≠ 'E') :
    exponent? s = some (none, s) := by
  cases s with
  | nil => rfl
  | cons c s =>
      unfold exponent?
      split
      · rename_i heq
        cases heq
        exact absurd rfl (h 'e' rfl).1
      · rename_i heq
        cases heq
        exact absurd rfl (h 'E' rfl).2
      · rfl

/-! ## Where values end -/

/-- The text does not go on with a value. -/
def EndsValue (rest : List Char) : Prop := ∀ c ∈ rest.head?, c = ',' ∨ c = ']' ∨ c = '\x7d'

theorem EndsValue.comma (rest : List Char) : EndsValue (',' :: rest) := by
  rintro c ⟨⟩
  exact Or.inl rfl

theorem EndsValue.bracket (rest : List Char) : EndsValue (']' :: rest) := by
  rintro c ⟨⟩
  exact Or.inr (Or.inl rfl)

theorem EndsValue.brace (rest : List Char) : EndsValue ('\x7d' :: rest) := by
  rintro c ⟨⟩
  exact Or.inr (Or.inr rfl)

section Ends

variable {rest : List Char} (ends : EndsValue rest)

include ends

theorem EndsValue.forall_head (P : Char → Prop) (comma : P ',') (bracket : P ']')
    (brace : P '\x7d') : ∀ c ∈ rest.head?, P c := by
  intro c hc
  obtain rfl | rfl | rfl := ends c hc
  · exact comma
  · exact bracket
  · exact brace

theorem digits_append (s : List Char) :
    digits (s ++ rest) = ((digits s).1, (digits s).2 ++ rest) := by
  have hstop := ends.forall_head (fun c => c.isDigit = false) rfl rfl rfl
  induction s with
  | nil =>
      cases rest with
      | nil => rfl
      | cons c rest => simp [digits, hstop c rfl]
  | cons c s ih =>
      simp only [digits, Prod.mk.injEq] at ih
      by_cases hc : c.isDigit = true
      · simp [digits, hc, ih]
      · simp [digits, hc]

theorem someDigits?_append {s ds t : List Char} (h : someDigits? s = some (ds, t)) :
    someDigits? (s ++ rest) = some (ds, t ++ rest) := by
  obtain ⟨hdigits, hne⟩ := someDigits?_eq_some_iff.1 h
  rw [someDigits?_eq_some_iff, digits_append ends, hdigits]
  exact ⟨rfl, hne⟩

theorem whole?_append {s w t : List Char} (h : whole? s = some (w, t)) :
    whole? (s ++ rest) = some (w, t ++ rest) := by
  rw [whole?_eq_some_iff] at h ⊢
  exact ⟨someDigits?_append ends h.1, h.2⟩

theorem fraction?_append {s t : List Char} {f : Option (List Char)}
    (h : fraction? s = some (f, t)) : fraction? (s ++ rest) = some (f, t ++ rest) := by
  cases s with
  | nil =>
      cases h
      exact fraction?_of_ne (ends.forall_head (· ≠ '.') (by decide) (by decide) (by decide))
  | cons c s =>
      by_cases hc : c = '.'
      · subst hc
        rw [fraction?_point] at h
        obtain ⟨⟨ds, u⟩, hds, h⟩ := Option.map_eq_some_iff.1 h
        cases h
        rw [List.cons_append, fraction?_point, someDigits?_append ends hds]
        rfl
      · have hne : ∀ s' : List Char, ∀ d ∈ (c :: s').head?, d ≠ '.' := by
          rintro s' d ⟨⟩
          exact hc
        rw [fraction?_of_ne (hne s)] at h
        cases h
        exact fraction?_of_ne (hne (s ++ rest))

theorem exponentBody?_append {s t : List Char} {e : Option (Bool × List Char)}
    (h : exponentBody? s = some (e, t)) : exponentBody? (s ++ rest) = some (e, t ++ rest) := by
  have hdigits : ∀ {negative s}, exponentDigits? negative s = some (e, t) →
      exponentDigits? negative (s ++ rest) = some (e, t ++ rest) := by
    intro negative s h
    obtain ⟨⟨ds, u⟩, hds, h⟩ := Option.map_eq_some_iff.1 h
    cases h
    rw [exponentDigits?, someDigits?_append ends hds]
    rfl
  cases s with
  | nil => cases h
  | cons c s =>
      rw [exponentBody?_cons] at h
      rw [List.cons_append, exponentBody?_cons]
      split at h
      · rename_i hc
        rw [if_pos hc]
        exact hdigits h
      · rename_i hminus
        rw [if_neg hminus]
        split at h
        · rename_i hc
          rw [if_pos hc]
          exact hdigits h
        · rename_i hplus
          rw [if_neg hplus]
          exact hdigits h

theorem exponent?_append {s t : List Char} {e : Option (Bool × List Char)}
    (h : exponent? s = some (e, t)) : exponent? (s ++ rest) = some (e, t ++ rest) := by
  cases s with
  | nil =>
      cases h
      exact exponent?_of_ne (ends.forall_head (fun c => c ≠ 'e' ∧ c ≠ 'E') (by decide) (by decide)
        (by decide))
  | cons c s =>
      by_cases hc : c = 'e' ∨ c = 'E'
      · obtain rfl | rfl := hc
        · exact exponentBody?_append ends h
        · exact exponentBody?_append ends h
      · have hne : ∀ s' : List Char, ∀ d ∈ (c :: s').head?, d ≠ 'e' ∧ d ≠ 'E' := by
          rintro s' d ⟨⟩
          exact not_or.1 hc
        rw [exponent?_of_ne (hne s)] at h
        cases h
        exact exponent?_of_ne (hne (s ++ rest))

theorem numeral?_append {negative : Bool} {s t : List Char} {v : Node}
    (h : numeral? negative s = some (v, t)) :
    numeral? negative (s ++ rest) = some (v, t ++ rest) := by
  rw [numeral?] at h ⊢
  obtain ⟨⟨w, s1⟩, hw, h⟩ := Option.bind_eq_some_iff.1 h
  obtain ⟨⟨f, s2⟩, hf, h⟩ := Option.bind_eq_some_iff.1 h
  obtain ⟨⟨e, s3⟩, he, h⟩ := Option.bind_eq_some_iff.1 h
  cases h
  refine Option.bind_eq_some_iff.2 ⟨_, whole?_append ends hw, ?_⟩
  refine Option.bind_eq_some_iff.2 ⟨_, fraction?_append ends hf, ?_⟩
  exact Option.bind_eq_some_iff.2 ⟨_, exponent?_append ends he, rfl⟩

end Ends

/-! ## Numbers as values -/

theorem ne_of_isDigit {c d : Char} (hc : c.isDigit = true) (hd : d.isDigit = false) : c ≠ d := by
  intro heq
  rw [heq, hd] at hc
  cases hc

theorem skipSpace_cons_of_ne {c : Char} (h : isSpace c = false) (s : List Char) :
    skipSpace (c :: s) = c :: s := by
  rw [skipSpace, List.dropWhile_cons, h]
  rfl

theorem isSpace_of_isDigit {c : Char} (h : c.isDigit = true) : isSpace c = false := by
  simp [isSpace, ne_of_isDigit h]

theorem value?_minus (fuel : Nat) (s : List Char) :
    value? (fuel + 1) ('-' :: s) = numeral? true s := by
  rw [value?, skipSpace_cons_of_ne (by decide)]
  rfl

theorem value?_digit (fuel : Nat) {c : Char} (h : c.isDigit = true) (s : List Char) :
    value? (fuel + 1) (c :: s) = numeral? false (c :: s) := by
  have hne : ∀ d, d.isDigit = false → c ≠ d := fun d => ne_of_isDigit h
  rw [value?, skipSpace_cons_of_ne (isSpace_of_isDigit h)]
  split
  all_goals rename_i heq
  all_goals try exact absurd (List.cons.inj heq).1 (hne _ (by decide))
  rfl

theorem exists_digit_of_numeral? {negative : Bool} {s : List Char} {p : Node × List Char}
    (h : numeral? negative s = some p) : ∃ c t, s = c :: t ∧ c.isDigit = true := by
  rw [numeral?] at h
  obtain ⟨⟨w, t⟩, hw, -⟩ := Option.bind_eq_some_iff.1 h
  obtain ⟨hdigits, hne⟩ := someDigits?_eq_some_iff.1 (whole?_eq_some_iff.1 hw).1
  cases s with
  | nil =>
      cases hdigits
      exact absurd rfl hne
  | cons c s =>
      refine ⟨c, s, rfl, ?_⟩
      by_contra hc
      rw [digits, List.takeWhile_cons, if_neg hc] at hdigits
      cases hdigits
      exact hne rfl

/-- A value that is a number begins with a minus sign or with a digit. -/
theorem exists_numeral?_of_value? {fuel : Nat} {s t : List Char} {n : Numeral}
    (h : value? fuel s = some (.number n, t)) :
    (∃ u, skipSpace s = '-' :: u ∧ numeral? true u = some (.number n, t)) ∨
      numeral? false (skipSpace s) = some (.number n, t) := by
  cases fuel with
  | zero => cases h
  | succ fuel =>
      rw [value?] at h
      split at h
      · split at h
        · cases h
        · obtain ⟨p, -, h⟩ := Option.map_eq_some_iff.1 h
          cases h
      · split at h
        · cases h
        · obtain ⟨p, -, h⟩ := Option.map_eq_some_iff.1 h
          cases h
      · obtain ⟨p, -, h⟩ := Option.map_eq_some_iff.1 h
        cases h
      · rename_i u heq
        exact Or.inl ⟨u, heq, h⟩
      · obtain ⟨p, -, h⟩ := Option.map_eq_some_iff.1 h
        cases h
      · obtain ⟨p, -, h⟩ := Option.map_eq_some_iff.1 h
        cases h
      · obtain ⟨p, -, h⟩ := Option.map_eq_some_iff.1 h
        cases h
      · exact Or.inr h

theorem exists_head_of_value?_number {fuel : Nat} {s t : List Char} {n : Numeral}
    (h : value? fuel s = some (.number n, t)) :
    ∃ c ∈ (skipSpace s).head?, c = '-' ∨ c.isDigit = true := by
  obtain ⟨u, hs, -⟩ | hn := exists_numeral?_of_value? h
  · exact ⟨'-', by rw [hs]; rfl, Or.inl rfl⟩
  · obtain ⟨c, u, hs, hc⟩ := exists_digit_of_numeral? hn
    exact ⟨c, by rw [hs]; rfl, Or.inr hc⟩

/-- A number that is read from a text alone is read when more text follows. -/
theorem value?_number_append {fuel : Nat} {s t rest : List Char} {n : Numeral}
    (h : value? fuel s = some (.number n, t)) (ends : EndsValue rest) (fuel' : Nat) :
    value? (fuel' + 1) (s ++ rest) = some (.number n, t ++ rest) := by
  have hskip : ∀ c u, isSpace c = false → skipSpace s = c :: u →
      value? (fuel' + 1) (s ++ rest) = value? (fuel' + 1) (c :: (u ++ rest)) := by
    intro c u hc hs
    have heq : skipSpace (s ++ rest) = skipSpace (c :: (u ++ rest)) := by
      rw [skipSpace_cons_of_ne hc, skipSpace, List.dropWhile_append, ← skipSpace, hs]
      rfl
    rw [value?, value?, heq]
  obtain ⟨u, hs, hn⟩ | hn := exists_numeral?_of_value? h
  · rw [hskip '-' u (by decide) hs, value?_minus, numeral?_append ends hn]
  · obtain ⟨c, u, hs, hc⟩ := exists_digit_of_numeral? hn
    rw [hskip c u (isSpace_of_isDigit hc) hs, value?_digit fuel' hc, ← List.cons_append,
      ← hs, numeral?_append ends hn]

/-! ## Numbers that are written -/

/-- The text of a floating-point number is read as the number. -/
def ReadsBack (x : Binary64) : Prop :=
  ∃ n : Numeral, read? (floatLayout.write x) = some (.number n, []) ∧ n.toData? = some (.float x)

theorem value?_float {x : Binary64} (h : ReadsBack x) :
    ∃ v, v.toData? = some (.float x) ∧ ∀ fuel rest, EndsValue rest →
      value? (fuel + 1) (floatLayout.write x ++ rest) = some (.number v, rest) := by
  obtain ⟨n, hread, hn⟩ := h
  exact ⟨n, hn, fun fuel rest ends => value?_number_append hread ends fuel⟩

/-- Digits that make a number of 64 bits are all gathered. -/
theorem gather_eq {ds : List Char} {n m : Nat}
    (h : ds.foldl (fun n c => 10 * n + (c.toNat - '0'.toNat)) n = m) (fits : m < 2 ^ 64) :
    gather n ds = (m, 0) := by
  have grows : ∀ (ds : List Char) (n : Nat),
      n ≤ ds.foldl (fun n c => 10 * n + (c.toNat - '0'.toNat)) n := by
    intro ds
    induction ds with
    | nil => exact fun n => Nat.le_refl n
    | cons c ds ih =>
        intro n
        have hstep : n ≤ 10 * n + (c.toNat - '0'.toNat) := by omega
        exact Nat.le_trans hstep (ih _)
  induction ds generalizing n with
  | nil =>
      subst h
      rfl
  | cons c ds ih =>
      have hdigit : Digits.value [c] + 10 * n = 10 * n + (c.toNat - '0'.toNat) := by
        rw [Digits.value, List.foldl_cons, List.foldl_nil]
        omega
      have hfits : Digits.value [c] + 10 * n < Nat.pow 2 64 := by
        rw [hdigit]
        apply Nat.lt_of_le_of_lt _ fits
        rw [← h]
        exact grows ds _
      rw [gather, if_pos hfits, hdigit]
      exact ih h

theorem numeral?_ofNat (negative : Bool) (n : Nat) :
    numeral? negative (Digits.ofNat n) =
      some (.number ⟨negative, Digits.ofNat n, none, none⟩, []) := by
  have hdigits : digits (Digits.ofNat n) = (Digits.ofNat n, []) := by
    have hall : ∀ c ∈ Digits.ofNat n, c.isDigit = true := fun c => Digits.isDigit_of_mem_ofNat
    rw [digits, List.takeWhile_eq_self_iff.2 hall, List.dropWhile_eq_nil_iff.2 hall]
  have hzero : ∀ c cs, Digits.ofNat n ≠ '0' :: c :: cs := by
    intro c cs heq
    by_cases hn : n = 0
    · subst hn
      cases heq
    · exact Digits.ofNat_head_ne_zero hn (by rw [heq]; rfl)
  have hwhole : whole? (Digits.ofNat n) = some (Digits.ofNat n, []) :=
    whole?_eq_some_iff.2 ⟨someDigits?_eq_some_iff.2 ⟨hdigits, Digits.ofNat_ne_nil n⟩, hzero⟩
  rw [numeral?, hwhole]
  rfl

/-- Whole numbers of 64 bits, with or without a sign, are read back. -/
theorem value?_int {n : Int} (lower : -2 ^ 63 ≤ n) (upper : n < 2 ^ 64) :
    ∃ v : Numeral, v.toData? = some (.int n) ∧ ∀ fuel rest, EndsValue rest →
      value? (fuel + 1) (Digits.ofInt n ++ rest) = some (.number v, rest) := by
  have hgather : gather 0 (Digits.ofNat n.natAbs) = (n.natAbs, 0) :=
    gather_eq (Digits.value_ofNat n.natAbs) (by omega)
  refine ⟨⟨decide (n < 0), Digits.ofNat n.natAbs, none, none⟩, ?_, fun fuel rest ends => ?_⟩
  · simp only [Numeral.toData?, hgather]
    by_cases hn : n < 0
    · have hsize : 0 < n.natAbs ∧ n.natAbs ≤ Nat.pow 2 63 := by
        constructor
        · omega
        · show n.natAbs ≤ 2 ^ 63
          omega
      have hvalue : -(n.natAbs : Int) = n := by omega
      rw [decide_eq_true hn, if_neg (by simp), if_pos ⟨trivial, hsize⟩, hvalue]
    · have hvalue : (n.natAbs : Int) = n := by omega
      rw [decide_eq_false hn, if_pos ⟨trivial, rfl⟩, hvalue]
  · rw [Digits.ofInt]
    split
    · rename_i hn
      rw [List.cons_append, value?_minus, numeral?_append ends (numeral?_ofNat _ _),
        decide_eq_true hn]
      rfl
    · rename_i hn
      obtain ⟨c, t, ht, hc⟩ := exists_digit_of_numeral? (numeral?_ofNat false n.natAbs)
      have hread := numeral?_append ends (numeral?_ofNat false n.natAbs)
      rw [ht, List.cons_append] at hread
      rw [ht, List.cons_append, value?_digit fuel hc, hread, decide_eq_false hn]
      rfl

end Json

end EventQuery
