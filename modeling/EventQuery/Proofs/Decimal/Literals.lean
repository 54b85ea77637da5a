import EventQuery.Decimal.Reader
import Mathlib.Data.List.Basic
import Mathlib.Data.List.TakeWhile

/-!
# Numerals

Which texts are numbers: an integer is digits behind a sign, a decimal has digits before or behind a
point and may have an exponent, and there are words for what is not finite. The readers of numbers
take these texts and no others.
-/

namespace EventQuery

namespace Digits

/-- A sign in front of a number, told whether it is a minus; there may be none. -/
inductive IsSign : List Char → Bool → Prop
  | none : IsSign [] false
  | plus : IsSign ['+'] false
  | minus : IsSign ['-'] true

/-- Digits, at least one. -/
def AreDigits (s : List Char) : Prop := s ≠ [] ∧ ∀ c ∈ s, c.isDigit = true

/-- The integer with a sign and digits. -/
def signed (negative : Bool) (digits : List Char) : Int :=
  if negative then -(value digits : Int) else value digits

/-- The text is an integer of this value. -/
inductive IsInteger : List Char → Int → Prop
  | intro {sign digits : List Char} {negative : Bool} (hsign : IsSign sign negative)
      (hdigits : AreDigits digits) : IsInteger (sign ++ digits) (signed negative digits)

theorem int64?_eq_some_iff {n : Int} {m : Int64} : int64? n = some m ↔ m.toInt = n := by
  constructor
  · intro h
    unfold int64? at h
    split at h
    · rename_i hrange
      cases h
      exact Int64.toInt_ofInt_of_le hrange.1 (Int.lt_add_one_of_le hrange.2)
    · cases h
  · rintro rfl
    exact int64?_toInt m

theorem splitSign_append {sign s : List Char} {negative : Bool} (h : IsSign sign negative)
    (start : ∀ c ∈ s.head?, c ≠ '-' ∧ c ≠ '+') : splitSign (sign ++ s) = (negative, s) := by
  cases h with
  | plus => rfl
  | minus => rfl
  | none =>
      rw [List.nil_append]
      unfold splitSign
      split
      · exact absurd rfl (start '-' rfl).1
      · exact absurd rfl (start '+' rfl).2
      · rfl

theorem exists_sign_of_splitSign (s : List Char) :
    ∃ sign, IsSign sign (splitSign s).1 ∧ s = sign ++ (splitSign s).2 := by
  unfold splitSign
  split
  · exact ⟨['-'], .minus, rfl⟩
  · exact ⟨['+'], .plus, rfl⟩
  · exact ⟨[], .none, rfl⟩

theorem AreDigits.head_ne {s : List Char} (h : AreDigits s) :
    ∀ c ∈ s.head?, c ≠ '-' ∧ c ≠ '+' := by
  intro c hc
  have hdigit := h.2 c (List.mem_of_mem_head? hc)
  exact ⟨fun heq => absurd hdigit (by rw [heq]; decide),
    fun heq => absurd hdigit (by rw [heq]; decide)⟩

theorem readInt64?_eq_some_iff {s : List Char} {n : Int64} :
    readInt64? s = some n ↔ IsInteger s n.toInt := by
  constructor
  · intro h
    obtain ⟨sign, hsign, hs⟩ := exists_sign_of_splitSign s
    unfold readInt64? at h
    generalize splitSign s = parts at h hsign hs
    obtain ⟨negative, digits⟩ := parts
    simp only at h hsign hs
    split at h
    · rename_i hdigits
      rw [int64?_eq_some_iff] at h
      rw [h, hs]
      exact .intro hsign ⟨hdigits.1, List.all_eq_true.1 hdigits.2⟩
    · cases h
  · intro h
    generalize hn : n.toInt = m at h
    cases h with
    | intro hsign hdigits =>
        rw [readInt64?, splitSign_append hsign hdigits.head_ne]
        simp only
        rw [if_pos ⟨hdigits.1, List.all_eq_true.2 hdigits.2⟩]
        exact int64?_eq_some_iff.2 hn

end Digits

namespace Binary64

open Digits (IsSign IsInteger AreDigits)

/-- The text is an exponent part of this value; there may be none. -/
inductive IsExponent : List Char → Int → Prop
  | none : IsExponent [] 0
  | intro {c : Char} {s : List Char} {n : Int} (letter : c = 'e' ∨ c = 'E') (h : IsInteger s n) :
      IsExponent (c :: s) n

/-- The text is a decimal without a sign: digits with at most one point among or around them, and an
exponent part. -/
inductive IsDecimal : List Char → Decimal → Prop
  | whole {ds exponent : List Char} {e : Int} (digits : AreDigits ds) (h : IsExponent exponent e) :
      IsDecimal (ds ++ exponent) ⟨Digits.value ds, e⟩
  | point {ds fs exponent : List Char} {e : Int} (digits : AreDigits (ds ++ fs))
      (h : IsExponent exponent e) :
      IsDecimal (ds ++ '.' :: (fs ++ exponent)) ⟨Digits.value (ds ++ fs), e - fs.length⟩

/-- The text is the word, in small or capital letters. -/
def IsWord (word : String) (s : List Char) : Prop := s.map Char.toLower = word.toList

instance (word : String) (s : List Char) : Decidable (IsWord word s) :=
  inferInstanceAs (Decidable (_ = _))

/-- The text stands for the number: the one nearest to a decimal, or a word for one that is not
finite. -/
inductive IsNumeral : List Char → Binary64 → Prop
  | decimal {sign s : List Char} {negative : Bool} {d : Decimal} (hsign : IsSign sign negative)
      (h : IsDecimal s d) : IsNumeral (sign ++ s) (ofDecimal negative d)
  | infinite {sign s : List Char} {negative : Bool} (hsign : IsSign sign negative)
      (h : IsWord "inf" s ∨ IsWord "infinity" s) : IsNumeral (sign ++ s) (.infinite negative)
  | nan {sign s : List Char} {negative : Bool} (hsign : IsSign sign negative)
      (h : IsWord "nan" s) : IsNumeral (sign ++ s) .nan

theorem readExponent?_eq_some_iff {s : List Char} {e : Int} :
    readExponent? s = some e ↔ IsExponent s e := by
  constructor
  · intro h
    cases s with
    | nil =>
        cases h
        exact .none
    | cons c s =>
        obtain ⟨sign, hsign, hs⟩ := Digits.exists_sign_of_splitSign s
        rcases hparts : Digits.splitSign s with ⟨negative, digits⟩
        rw [hparts] at hsign hs
        simp only [readExponent?, hparts] at h
        split at h
        · rename_i hdigits
          cases h
          rw [hs]
          exact .intro hdigits.1 (.intro hsign ⟨hdigits.2.1, List.all_eq_true.1 hdigits.2.2⟩)
        · cases h
  · intro h
    cases h with
    | none => rfl
    | intro letter h =>
        cases h with
        | intro hsign hdigits =>
            rw [readExponent?, Digits.splitSign_append hsign hdigits.head_ne]
            simp only
            rw [if_pos ⟨letter, hdigits.1, List.all_eq_true.2 hdigits.2⟩]
            rfl

/-- The rest of a text behind its leading digits. -/
theorem exists_leading_digits (s : List Char) :
    ∃ ds rest, s = ds ++ rest ∧ (∀ c ∈ ds, c.isDigit = true) ∧
      ∀ c ∈ rest.head?, c.isDigit = false := by
  refine ⟨s.takeWhile Char.isDigit, s.dropWhile Char.isDigit, ?_, ?_, ?_⟩
  · exact List.takeWhile_append_dropWhile.symm
  · exact fun c hc => List.mem_takeWhile_imp hc
  · intro c hc
    have h := List.head?_dropWhile_not Char.isDigit s
    rw [hc] at h
    exact h

theorem takeWhile_isDigit_append {ds rest : List Char} (digits : ∀ c ∈ ds, c.isDigit = true)
    (stop : ∀ c ∈ rest.head?, c.isDigit = false) :
    (ds ++ rest).takeWhile Char.isDigit = ds ∧ (ds ++ rest).dropWhile Char.isDigit = rest := by
  rw [List.takeWhile_append_of_pos digits, List.dropWhile_append_of_pos digits]
  cases rest with
  | nil => simp
  | cons c rest => simp [stop c rfl]

/-- Without a point all digits are before the exponent part. -/
theorem readDecimal?_whole {ds rest : List Char} (digits : ∀ c ∈ ds, c.isDigit = true)
    (stop : ∀ c ∈ rest.head?, c.isDigit = false) (pointless : ∀ c ∈ rest.head?, c ≠ '.') :
    readDecimal? (ds ++ rest) =
      if ds = [] then none else (readExponent? rest).map fun e => ⟨Digits.value ds, e⟩ := by
  obtain ⟨htake, hdrop⟩ := takeWhile_isDigit_append digits stop
  simp only [readDecimal?, htake, hdrop]
  split
  · exact absurd rfl (pointless '.' rfl)
  · simp

/-- With a point there may be digits on either side of it. -/
theorem readDecimal?_point {ds fs rest : List Char} (digits : ∀ c ∈ ds ++ fs, c.isDigit = true)
    (stop : ∀ c ∈ rest.head?, c.isDigit = false) :
    readDecimal? (ds ++ '.' :: (fs ++ rest)) =
      if ds ++ fs = [] then none
      else (readExponent? rest).map fun e => ⟨Digits.value (ds ++ fs), e - fs.length⟩ := by
  obtain ⟨hds, hfs⟩ := List.forall_mem_append.1 digits
  have hpoint : ∀ c ∈ ('.' :: (fs ++ rest)).head?, c.isDigit = false := by
    intro c hc
    cases hc
    rfl
  obtain ⟨htake, hdrop⟩ := takeWhile_isDigit_append hds hpoint
  obtain ⟨htake', hdrop'⟩ := takeWhile_isDigit_append hfs stop
  simp only [readDecimal?, htake, hdrop, htake', hdrop', List.append_eq_nil_iff]

theorem IsExponent.head_isDigit {s : List Char} {e : Int} (h : IsExponent s e) :
    ∀ c ∈ s.head?, c.isDigit = false ∧ c ≠ '.' := by
  cases h with
  | none => exact nofun
  | intro letter h =>
      intro c hc
      obtain rfl := Option.some.inj hc
      rcases letter with rfl | rfl <;> decide

theorem readDecimal?_eq_some_iff {s : List Char} {d : Decimal} :
    readDecimal? s = some d ↔ IsDecimal s d := by
  constructor
  · intro h
    obtain ⟨ds, rest, rfl, hds, stop⟩ := exists_leading_digits s
    by_cases hpoint : ∃ t, rest = '.' :: t
    · obtain ⟨t, rfl⟩ := hpoint
      obtain ⟨fs, rest, rfl, hfs, stop⟩ := exists_leading_digits t
      have digits := List.forall_mem_append.2 ⟨hds, hfs⟩
      rw [readDecimal?_point digits stop, Option.ite_none_left_eq_some] at h
      obtain ⟨e, he, rfl⟩ := Option.map_eq_some_iff.1 h.2
      exact .point ⟨h.1, digits⟩ (readExponent?_eq_some_iff.1 he)
    · have pointless : ∀ c ∈ rest.head?, c ≠ '.' := by
        rintro c hc rfl
        exact hpoint ⟨rest.tail, List.eq_cons_of_mem_head? hc⟩
      rw [readDecimal?_whole hds stop pointless, Option.ite_none_left_eq_some] at h
      obtain ⟨e, he, rfl⟩ := Option.map_eq_some_iff.1 h.2
      exact .whole ⟨h.1, hds⟩ (readExponent?_eq_some_iff.1 he)
  · intro h
    cases h with
    | whole digits h =>
        rw [readDecimal?_whole digits.2 (fun c hc => (h.head_isDigit c hc).1)
          (fun c hc => (h.head_isDigit c hc).2), if_neg digits.1, readExponent?_eq_some_iff.2 h]
        rfl
    | point digits h =>
        rw [readDecimal?_point digits.2 (fun c hc => (h.head_isDigit c hc).1),
          if_neg digits.1, readExponent?_eq_some_iff.2 h]
        rfl

/-- A word that does not start with a sign is not taken for one that does. -/
theorem IsWord.head_ne {word : String} {s : List Char} (h : IsWord word s)
    (start : ∀ c ∈ word.toList.head?, c ≠ '-' ∧ c ≠ '+') :
    ∀ c ∈ s.head?, c ≠ '-' ∧ c ≠ '+' := by
  intro c hc
  have hlower : c.toLower ∈ word.toList.head? := by
    rw [← h, List.head?_map, hc]
    rfl
  exact ⟨fun heq => (start _ hlower).1 (by rw [heq]; rfl),
    fun heq => (start _ hlower).2 (by rw [heq]; rfl)⟩

/-- A decimal starts with a digit or the point. -/
theorem IsDecimal.head {s : List Char} {d : Decimal} (h : IsDecimal s d) :
    ∃ c t, s = c :: t ∧ (c.isDigit = true ∨ c = '.') := by
  cases h with
  | @whole ds exponent e digits h =>
      cases ds with
      | nil => exact absurd rfl digits.1
      | cons c ds => exact ⟨c, ds ++ exponent, rfl, Or.inl (digits.2 c List.mem_cons_self)⟩
  | @point ds fs exponent e digits h =>
      cases ds with
      | nil => exact ⟨'.', _, rfl, Or.inr rfl⟩
      | cons c ds => exact ⟨c, _, rfl, Or.inl (digits.2 c List.mem_cons_self)⟩

theorem IsDecimal.head_ne {s : List Char} {d : Decimal} (h : IsDecimal s d) :
    ∀ c ∈ s.head?, c ≠ '-' ∧ c ≠ '+' := by
  obtain ⟨c, t, rfl, hc⟩ := h.head
  intro b hb
  obtain rfl := Option.some.inj hb
  constructor
  · rintro rfl
    exact absurd hc (by decide)
  · rintro rfl
    exact absurd hc (by decide)

theorem toLower_of_isDigit {c : Char} (h : c.isDigit = true) : c.toLower = c := by
  have hc : c.toNat ≤ 57 := (Char.isDigit_iff_toNat.1 h).2
  unfold Char.toLower
  refine dif_neg fun hupper => ?_
  have hle : 65 ≤ c.toNat := UInt32.le_iff_toNat_le.1 hupper.1
  omega

/-- A decimal is no word that starts with neither a digit nor the point. -/
theorem IsDecimal.not_isWord {s : List Char} {d : Decimal} (h : IsDecimal s d) {word : String}
    (start : ∀ c ∈ word.toList.head?, c.isDigit = false ∧ c ≠ '.') : ¬IsWord word s := by
  obtain ⟨c, t, rfl, hc⟩ := h.head
  intro hword
  have hstart := start c.toLower (by rw [← hword]; rfl)
  rcases hc with hc | rfl
  · rw [toLower_of_isDigit hc, hc] at hstart
    exact Bool.noConfusion hstart.1
  · exact hstart.2 rfl

theorem read?_of_splitSign {s body : List Char} {negative : Bool}
    (h : Digits.splitSign s = (negative, body)) :
    read? s =
      if IsWord "nan" body then some .nan
      else if IsWord "inf" body ∨ IsWord "infinity" body then some (.infinite negative)
      else (readDecimal? body).map (ofDecimal negative) := by
  simp only [read?, h, IsWord, ← String.toList_inj, String.toList_ofList]
  congr

theorem read?_eq_some_iff {s : List Char} {x : Binary64} :
    read? s = some x ↔ IsNumeral s x := by
  constructor
  · intro h
    obtain ⟨sign, hsign, hs⟩ := Digits.exists_sign_of_splitSign s
    rcases hparts : Digits.splitSign s with ⟨negative, body⟩
    rw [hparts] at hsign hs
    rw [read?_of_splitSign hparts] at h
    rw [hs]
    split at h
    · cases h
      exact .nan hsign ‹_›
    · split at h
      · cases h
        exact .infinite hsign ‹_›
      · obtain ⟨d, hd, rfl⟩ := Option.map_eq_some_iff.1 h
        exact .decimal hsign (readDecimal?_eq_some_iff.1 hd)
  · intro h
    cases h with
    | @decimal sign body d negative hsign h =>
        have hnan : ¬IsWord "nan" body := h.not_isWord (by rintro c ⟨⟩; decide)
        have hinf : ¬IsWord "inf" body := h.not_isWord (by rintro c ⟨⟩; decide)
        have hinfinity : ¬IsWord "infinity" body := h.not_isWord (by rintro c ⟨⟩; decide)
        rw [read?_of_splitSign (Digits.splitSign_append hsign h.head_ne), if_neg hnan,
          if_neg (not_or_intro hinf hinfinity), readDecimal?_eq_some_iff.2 h]
        rfl
    | @infinite sign body negative hsign h =>
        have start : ∀ c ∈ body.head?, c ≠ '-' ∧ c ≠ '+' :=
          h.elim (·.head_ne (by rintro c ⟨⟩; decide)) (·.head_ne (by rintro c ⟨⟩; decide))
        have hnan : ¬IsWord "nan" body := by
          intro hnan
          rcases h with h | h
          · exact absurd (hnan.symm.trans h) (by decide)
          · exact absurd (hnan.symm.trans h) (by decide)
        rw [read?_of_splitSign (Digits.splitSign_append hsign start), if_neg hnan, if_pos h]
    | @nan sign body negative hsign h =>
        have start : ∀ c ∈ body.head?, c ≠ '-' ∧ c ≠ '+' := h.head_ne (by rintro c ⟨⟩; decide)
        rw [read?_of_splitSign (Digits.splitSign_append hsign start), if_pos h]

end Binary64

end EventQuery
