import EventQuery.Grammar.Lexeme
import EventQuery.Proofs.Decimal.Layout
import EventQuery.Proofs.Grammar.Recursion

/-!
# Lexemes are read back

Field names, quoted strings and numbers are read back from their spellings. Where a lexeme has no
closing mark, what follows must not continue it.
-/

namespace EventQuery.Grammar

open Matcher

theorem mem_of_mem_head? {cs rest : List Char} (hne : cs ≠ []) {c : Char}
    (h : c ∈ (cs ++ rest).head?) : c ∈ cs := by
  cases cs with
  | nil => exact absurd rfl hne
  | cons d ds =>
      cases h
      exact List.mem_cons_self

/-! ## Field names -/

theorem isFieldName_iff {s : String} :
    IsFieldName s ↔ s.toList.head?.any Char.isAlpha && s.toList.tail.all isNameChar := by
  unfold IsFieldName
  cases s.toList <;> simp

instance (s : String) : Decidable (IsFieldName s) := decidable_of_iff _ isFieldName_iff.symm

theorem toList_ne_nil_of_isFieldName {name : String} (h : IsFieldName name) :
    name.toList ≠ [] := by
  intro hnil
  rw [IsFieldName, hnil] at h
  exact h

theorem isNameChar_of_isFieldName {name : String} (h : IsFieldName name) :
    ∀ c ∈ name.toList, isNameChar c = true := by
  unfold IsFieldName at h
  cases hname : name.toList with
  | nil => exact nofun
  | cons c cs =>
      rw [hname] at h
      intro d hd
      rcases List.mem_cons.1 hd with rfl | hd
      · simp [isNameChar, Char.isAlphanum, h.1]
      · exact List.all_eq_true.1 h.2 d hd

theorem read_fieldName {name : String} (h : IsFieldName name) {rest : List Char}
    (stop : ∀ c ∈ rest.head?, isNameChar c = false) :
    fieldName.read (name.toList ++ rest) = some (name, rest) := by
  unfold IsFieldName at h
  cases hname : name.toList with
  | nil =>
      rw [hname] at h
      exact h.elim
  | cons c cs =>
      rw [hname] at h
      obtain ⟨hc, hcs⟩ := h
      rw [fieldName, read_bind, List.cons_append, read_oneOf_cons, if_pos hc, Option.bind_some,
        read_bind, read_run0_append (List.all_eq_true.1 hcs) stop, Option.bind_some, read_pure,
        ← hname, String.ofList_toList]

theorem read_fieldName_eq_none {s : List Char} (h : ∀ c ∈ s.head?, c.isAlpha = false) :
    fieldName.read s = none := by
  rw [fieldName, read_bind]
  cases s with
  | nil => rfl
  | cons c s => rw [read_oneOf_cons, if_neg (by rw [h c rfl]; exact nofun), Option.bind_none]

theorem exists_head_of_read_fieldName {s : List Char} {p : String × List Char}
    (h : fieldName.read s = some p) : ∃ c ∈ s.head?, c.isAlpha = true := by
  by_contra hnone
  rw [read_fieldName_eq_none] at h
  · cases h
  · intro c hc
    exact Bool.eq_false_iff.2 fun halpha => hnone ⟨c, hc, halpha⟩

theorem shrinks_fieldName : fieldName.Shrinks :=
  .bind (.oneOf _) fun _ => .bind (.run0 _) fun _ => .pure _

/-! ## Quoted strings -/

theorem quotedBody_escape {q : Char} (hq : q ≠ '\\') (s rest : List Char) :
    (quotedBody q (Text.escape q s ++ q :: rest)).result = some (s, rest) := by
  induction s with
  | nil =>
      unfold quotedBody
      simp [Text.escape]
  | cons c s ih =>
      by_cases hc : c = q ∨ c = '\\'
      · rw [Text.escape, if_pos hc, List.cons_append, List.cons_append]
        unfold quotedBody
        simp [hc, hq.symm, ih]
      · obtain ⟨hcq, hcb⟩ := not_or.1 hc
        rw [Text.escape, if_neg hc, List.cons_append]
        unfold quotedBody
        simp [hcq, hcb, ih]

theorem read_quotedBy {q : Char} (hq : q ≠ '\\') (s : String) (rest : List Char) :
    (quotedBy q).read (Text.quote q s.toList ++ rest) = some (s, rest) := by
  have hbody : Matcher.read (quotedBody q) (Text.escape q s.toList ++ q :: rest) =
      some (s.toList, rest) := quotedBody_escape hq s.toList rest
  have hspelling : Text.quote q s.toList ++ rest =
      q :: (Text.escape q s.toList ++ q :: rest) := by
    simp [Text.quote]
  rw [hspelling, quotedBy, read_bind, read_char_self, Option.bind_some]
  refine (read_bind (quotedBody q) _ _).trans ?_
  rw [hbody, Option.bind_some, read_pure, String.ofList_toList]

theorem read_quotedString (s : String) (rest : List Char) :
    quotedString.read (Text.quote '"' s.toList ++ rest) = some (s, rest) := by
  rw [quotedString, read_orElse, read_quotedBy (by decide), Option.some_or]

/-- A text that does not begin with a quotation mark is not a quoted string. -/
theorem read_quotedString_eq_none {s : List Char} (h : ∀ c ∈ s.head?, c ≠ '"' ∧ c ≠ '\'') :
    quotedString.read s = none := by
  have refused : ∀ q, (∀ c ∈ s.head?, c ≠ q) → (quotedBy q).read s = none :=
    fun _ hq => read_char_bind_of_ne hq
  rw [quotedString, read_orElse, refused '"' fun c hc => (h c hc).1,
    refused '\'' fun c hc => (h c hc).2, Option.none_or]

theorem exists_head_of_read_quotedString {s : List Char} {p : String × List Char}
    (h : quotedString.read s = some p) : ∃ c ∈ s.head?, c = '"' ∨ c = '\'' := by
  by_contra hnone
  rw [read_quotedString_eq_none] at h
  · cases h
  · intro c hc
    exact ⟨fun heq => hnone ⟨c, hc, Or.inl heq⟩, fun heq => hnone ⟨c, hc, Or.inr heq⟩⟩

theorem shrinks_quotedBody (q : Char) : Matcher.Shrinks (quotedBody q) := by
  intro s
  show ∀ body rest, (quotedBody q s).result = some (body, rest) → rest <:+ s
  fun_induction quotedBody q s with
  | case1 => simp
  | case2 => simp
  | case3 => simp
  | case4 d s o kept _ ih =>
      intro body rest h
      obtain ⟨p, hp, h⟩ := Option.map_eq_some_iff.1 h
      cases h
      exact ((ih p.1 p.2 hp).trans (List.suffix_cons _ _)).trans (List.suffix_cons _ _)
  | case5 _ _ c s o ih =>
      intro body rest h
      obtain ⟨p, hp, h⟩ := Option.map_eq_some_iff.1 h
      cases h
      exact (ih p.1 p.2 hp).trans (List.suffix_cons _ _)

theorem shrinks_quotedString : quotedString.Shrinks := by
  have quoted : ∀ q, (quotedBy q).Shrinks := fun q =>
    .bind (.oneOf _) fun _ => .bind (shrinks_quotedBody q) fun _ => .pure _
  exact .orElse (quoted '"') (quoted '\'')

/-! ## Integers -/

theorem read_run1_append {p : Char → Bool} {cs rest : List Char} (hne : cs ≠ [])
    (all : ∀ c ∈ cs, p c = true) (stop : ∀ c ∈ rest.head?, p c = false) :
    (run1 p).read (cs ++ rest) = some (cs, rest) := by
  cases cs with
  | nil => exact absurd rfl hne
  | cons c cs =>
      rw [run1, read_bind, List.cons_append, read_oneOf_cons, if_pos (all c (by simp)),
        Option.bind_some, read_bind, read_run0_append (fun d hd => all d (by simp [hd])) stop]
      rfl

/-- A text with a minus sign in front of it, if it is negative. -/
def withMinus (negative : Bool) (s : List Char) : List Char := if negative then '-' :: s else s

theorem withMinus_append (negative : Bool) (s t : List Char) :
    withMinus negative s ++ t = withMinus negative (s ++ t) := by
  cases negative <;> rfl

theorem ofInt_eq_withMinus (n : Int) :
    Digits.ofInt n = withMinus (decide (n < 0)) (Digits.ofNat n.natAbs) := by
  unfold Digits.ofInt withMinus
  by_cases hn : n < 0 <;> simp [hn]

theorem read_signedDigits {ds rest : List Char} (hne : ds ≠ [])
    (digits : ∀ c ∈ ds, c.isDigit = true) (stop : ∀ c ∈ rest.head?, c.isDigit = false)
    (negative : Bool) :
    signedDigits.read (withMinus negative (ds ++ rest)) = some ((negative, ds), rest) := by
  have hdigits := read_run1_append hne digits stop
  cases negative with
  | true =>
      rw [signedDigits, read_bind, read_optional, withMinus, if_pos rfl, read_char_self]
      simp only [Option.bind_some]
      rw [read_bind, hdigits]
      rfl
  | false =>
      have nosign : (char '-').read (ds ++ rest) = none := by
        refine read_char_of_ne ?_
        rintro c hc rfl
        exact absurd (digits _ (mem_of_mem_head? hne hc)) (by decide)
      rw [signedDigits, read_bind, read_optional, withMinus, if_neg (by decide), nosign]
      simp only [Option.bind_some]
      rw [read_bind, hdigits]
      rfl

theorem read_signedDigits_ofInt (n : Int) {rest : List Char}
    (stop : ∀ c ∈ rest.head?, c.isDigit = false) :
    signedDigits.read (Digits.ofInt n ++ rest) =
      some ((decide (n < 0), Digits.ofNat n.natAbs), rest) := by
  rw [ofInt_eq_withMinus, withMinus_append]
  exact read_signedDigits (Digits.ofNat_ne_nil _) (fun _ => Digits.isDigit_of_mem_ofNat) stop _

/-- An integer is what its sign and its digits denote. -/
theorem integerOf?_ofNat_natAbs (n : Int64) :
    integerOf? (decide (n.toInt < 0)) (Digits.ofNat n.toInt.natAbs) = some n := by
  rw [integerOf?, Digits.value_ofNat, ← Digits.int64?_toInt n]
  congr 1
  by_cases hn : n.toInt < 0
  · rw [if_pos (decide_eq_true hn)]
    omega
  · rw [if_neg (by simpa using hn)]
    omega

theorem read_integer (n : Int64) {rest : List Char}
    (stop : ∀ c ∈ rest.head?, c.isDigit = false) :
    integer.read (Digits.ofInt n.toInt ++ rest) = some (n, rest) := by
  rw [integer, read_checked, read_signedDigits_ofInt n.toInt stop, Option.bind_some]
  simp only [integerOf?_ofNat_natAbs, inRange]

theorem read_signedDigits_eq_none {s : List Char}
    (h : ∀ c ∈ s.head?, c ≠ '-' ∧ c.isDigit = false) : signedDigits.read s = none := by
  have nodigits : (run1 Char.isDigit).read s = none := by
    rw [run1, read_bind]
    cases s with
    | nil => rfl
    | cons c s =>
        rw [read_oneOf_cons, if_neg (by simpa using (h c rfl).2), Option.bind_none]
  rw [signedDigits, read_bind, read_optional, read_char_of_ne fun c hc => (h c hc).1]
  simp only [Option.bind_some]
  rw [read_bind, nodigits, Option.bind_none]

/-- A text that begins neither with a sign nor with a digit is not an integer. -/
theorem read_integer_eq_none {s : List Char} (h : ∀ c ∈ s.head?, c ≠ '-' ∧ c.isDigit = false) :
    integer.read s = none := by
  rw [integer, read_checked, read_signedDigits_eq_none h, Option.bind_none]

theorem exists_head_of_read_integer {s : List Char} {p : Int64 × List Char}
    (h : integer.read s = some p) : ∃ c ∈ s.head?, c = '-' ∨ c.isDigit = true := by
  by_contra hnone
  rw [read_integer_eq_none] at h
  · cases h
  · intro c hc
    exact ⟨fun heq => hnone ⟨c, hc, Or.inl heq⟩,
      Bool.eq_false_iff.2 fun hdigit => hnone ⟨c, hc, Or.inr hdigit⟩⟩

theorem shrinks_signedDigits : signedDigits.Shrinks :=
  .bind (.optional (.oneOf _)) fun _ => .bind (.run1 _) fun _ => .pure _

theorem shrinks_integer : integer.Shrinks := .checked shrinks_signedDigits _

/-! ## Numbers -/

theorem inRange_eq_ok_iff {x : Option α} {a : α} : inRange x = .ok a ↔ x = some a := by
  cases x <;> simp [inRange]

/-- The digits behind a point. -/
def fractionDigits : Matcher (List Char) := do
  let _ ← char '.'
  run1 Char.isDigit

theorem read_fractionDigits_of_ne {s : List Char} (h : ∀ c ∈ s.head?, c ≠ '.') :
    fractionDigits.read s = none :=
  read_char_bind_of_ne h

/-- A number is read in two parts, the second of which may be missing. -/
theorem read_number_eq_some_iff {s rest : List Char} {v : Value} :
    number.read s = some (v, rest) ↔
      ∃ negative digits middle, signedDigits.read s = some ((negative, digits), middle) ∧
        ((fractionDigits.read middle = none ∧ rest = middle ∧
            ∃ n, integerOf? negative digits = some n ∧ v = .int n) ∨
          ∃ f, fractionDigits.read middle = some (f, rest) ∧
            v = .float (.ofDecimal negative ⟨Digits.value (digits ++ f), -f.length⟩)) := by
  have hparts : ∀ {parts : Bool × List Char × Option (List Char)},
      (signedDigits >>= fun p => optional fractionDigits >>= fun f =>
        Pure.pure (p.1, p.2, f) : Matcher _).read s = some (parts, rest) ↔
      ∃ p f middle, signedDigits.read s = some (p, middle) ∧
        (optional fractionDigits).read middle = some (f, rest) ∧ (p.1, p.2, f) = parts :=
    read_bind_bind_pure_eq_some_iff
  refine read_checked_eq_some_iff.trans ?_
  constructor
  · intro h
    obtain ⟨parts, hread, hv⟩ := h
    obtain ⟨⟨negative, digits⟩, f, middle, hdigits, hf, rfl⟩ := hparts.1 hread
    refine ⟨negative, digits, middle, hdigits, ?_⟩
    cases f with
    | none =>
        obtain ⟨hfraction, rfl⟩ := read_optional_eq_some_none_iff.1 hf
        obtain ⟨n, hn, rfl⟩ := Option.map_eq_some_iff.1 (inRange_eq_ok_iff.1 hv)
        exact Or.inl ⟨hfraction, rfl, n, hn, rfl⟩
    | some f =>
        cases hv
        exact Or.inr ⟨f, read_optional_eq_some_some_iff.1 hf, rfl⟩
  · intro h
    obtain ⟨negative, digits, middle, hdigits, h⟩ := h
    cases h with
    | inl h =>
        obtain ⟨hfraction, rfl, n, hn, rfl⟩ := h
        refine ⟨(negative, digits, none), hparts.2 ⟨_, none, _, hdigits, ?_, rfl⟩, ?_⟩
        · exact read_optional_eq_some_none_iff.2 ⟨hfraction, rfl⟩
        · exact inRange_eq_ok_iff.2 (by rw [hn]; rfl)
    | inr h =>
        obtain ⟨f, hfraction, rfl⟩ := h
        refine ⟨(negative, digits, some f), hparts.2 ⟨_, some f, _, hdigits, ?_, rfl⟩, rfl⟩
        exact read_optional_eq_some_some_iff.2 hfraction

/-- Digits on both sides of a point are a floating-point number. -/
theorem read_number_point {whole fraction rest : List Char} (hwhole : whole ≠ [])
    (hfraction : fraction ≠ []) (digits : ∀ c ∈ whole ++ fraction, c.isDigit = true)
    (stop : ∀ c ∈ rest.head?, c.isDigit = false) (negative : Bool) :
    number.read (withMinus negative (whole ++ '.' :: (fraction ++ rest))) =
      some (.float (.ofDecimal negative ⟨Digits.value (whole ++ fraction), -fraction.length⟩),
        rest) := by
  obtain ⟨hw, hf⟩ := List.forall_mem_append.1 digits
  have hpoint : ∀ c ∈ ('.' :: (fraction ++ rest)).head?, c.isDigit = false := by
    rintro c ⟨⟩
    decide
  refine read_number_eq_some_iff.2
    ⟨negative, whole, _, read_signedDigits hwhole hw hpoint negative, Or.inr ⟨fraction, ?_, rfl⟩⟩
  exact read_char_bind_eq_some_iff.2 ⟨_, rfl, read_run1_append hfraction hf stop⟩

/-- Digits without a point are an integer, unless it is out of range. -/
theorem read_number_digits {ds rest : List Char} (hne : ds ≠ [])
    (digits : ∀ c ∈ ds, c.isDigit = true) (stop : ∀ c ∈ rest.head?, c.isDigit = false)
    (pointless : ∀ c ∈ rest.head?, c ≠ '.') (negative : Bool) :
    number.read (withMinus negative (ds ++ rest)) =
      (integerOf? negative ds).map fun n => (.int n, rest) := by
  have hdigits := read_signedDigits hne digits stop negative
  have hfraction := read_fractionDigits_of_ne pointless
  refine Option.ext fun p => ?_
  rw [read_number_eq_some_iff, Option.map_eq_some_iff]
  constructor
  · rintro ⟨negative', ds', middle, hread, h⟩
    cases hdigits.symm.trans hread
    rcases h with ⟨-, hrest, n, hn, hv⟩ | ⟨f, hf, -⟩
    · exact ⟨n, hn, Prod.ext hv.symm hrest.symm⟩
    · cases hfraction.symm.trans hf
  · rintro ⟨n, hn, rfl⟩
    exact ⟨negative, ds, rest, hdigits, Or.inl ⟨hfraction, rfl, n, hn, rfl⟩⟩

/-- A number without a fraction is an integer. -/
theorem read_number_int_iff {s rest : List Char} {n : Int64} :
    number.read s = some (.int n, rest) ↔
      integer.read s = some (n, rest) ∧ fractionDigits.read rest = none := by
  rw [read_number_eq_some_iff, integer, read_checked_eq_some_iff]
  constructor
  · intro h
    obtain ⟨negative, digits, middle, hdigits, h⟩ := h
    cases h with
    | inl h =>
        obtain ⟨hfraction, rfl, m, hm, hv⟩ := h
        cases hv
        exact ⟨⟨(negative, digits), hdigits, inRange_eq_ok_iff.2 hm⟩, hfraction⟩
    | inr h =>
        obtain ⟨f, -, hv⟩ := h
        cases hv
  · intro h
    obtain ⟨⟨⟨negative, digits⟩, hdigits, hn⟩, hfraction⟩ := h
    exact ⟨negative, digits, rest, hdigits,
      Or.inl ⟨hfraction, rfl, n, inRange_eq_ok_iff.1 hn, rfl⟩⟩

theorem yields_number : number.Yields fun v => (∃ n, v = .int n) ∨ ∃ x, v = .float x := by
  intro s v rest h
  obtain ⟨negative, digits, middle, -, h⟩ := read_number_eq_some_iff.1 h
  cases h with
  | inl h =>
      obtain ⟨-, -, n, -, hv⟩ := h
      exact Or.inl ⟨n, hv⟩
  | inr h =>
      obtain ⟨f, -, hv⟩ := h
      exact Or.inr ⟨_, hv⟩

/-- A text that begins neither with a sign nor with a digit is not a number. -/
theorem read_number_eq_none {s : List Char} (h : ∀ c ∈ s.head?, c ≠ '-' ∧ c.isDigit = false) :
    number.read s = none := by
  apply Option.eq_none_iff_forall_not_mem.2
  intro p hp
  obtain ⟨negative, digits, middle, hdigits, -⟩ := read_number_eq_some_iff.1 hp
  rw [read_signedDigits_eq_none h] at hdigits
  cases hdigits

theorem shrinks_number : number.Shrinks :=
  .checked (.bind shrinks_signedDigits fun _ =>
    .bind (.optional (.bind (.oneOf _) fun _ => .run1 _)) fun _ => .pure _) _

end EventQuery.Grammar
