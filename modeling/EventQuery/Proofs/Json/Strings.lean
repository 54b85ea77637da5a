import EventQuery.Json.Reader
import EventQuery.Json.Writer

/-!
# JSON strings are read back

What is written for a character is one part of a string to the reader, and stands for the character.
So a string is read back whatever it contains: no character of it ends the string, and control
characters come back from their numbers.
-/

namespace EventQuery.Json

/-- The letters of the characters that have one to stand behind a backslash. -/
def escapeLetters : List (Char × Char) :=
  [('"', '"'), ('\\', '\\'), ('\x08', 'b'), ('\x0c', 'f'), ('\n', 'n'), ('\r', 'r'), ('\t', 't')]

/-- The digits of a control character behind `\u`. -/
def controlDigits (n : Nat) : List Char :=
  ['0', '0', Nat.digitChar (n / 16), Nat.digitChar (n % 16)]

theorem hexValue_controlDigits {n : Nat} (h : n < 0x20) : hexValue (controlDigits n) = n := by
  revert n
  decide

theorem isHexDigit_controlDigits {n : Nat} (h : n < 0x20) :
    (controlDigits n).all isHexDigit = true := by
  revert n
  decide

theorem escape_of_mem {c d : Char} (h : (c, d) ∈ escapeLetters) :
    escape c = ['\\', d] ∧ isEscape d = true ∧ d ≠ 'u' ∧ unescape d = c := by
  simp only [escapeLetters, List.mem_cons, List.not_mem_nil, or_false, Prod.mk.injEq] at h
  obtain ⟨rfl, rfl⟩ | ⟨rfl, rfl⟩ | ⟨rfl, rfl⟩ | ⟨rfl, rfl⟩ | ⟨rfl, rfl⟩ | ⟨rfl, rfl⟩ | ⟨rfl, rfl⟩ :=
    h
  all_goals decide

/-- A character is written as itself, behind a backslash by its letter, or by its number. -/
theorem escape_cases (c : Char) :
    (∃ d, (c, d) ∈ escapeLetters) ∨
      (escape c = '\\' :: 'u' :: controlDigits c.toNat ∧ c.toNat < 0x20) ∨
      (escape c = [c] ∧ c ≠ '"' ∧ c ≠ '\\' ∧ ¬ c.toNat < 0x20) := by
  by_cases hletter : ∃ d, (c, d) ∈ escapeLetters
  · exact Or.inl hletter
  · have hne : ∀ p ∈ escapeLetters, c ≠ p.1 := fun p hp heq => hletter ⟨p.2, heq ▸ hp⟩
    simp only [escapeLetters, List.forall_mem_cons] at hne
    obtain ⟨h1, h2, h3, h4, h5, h6, h7, -⟩ := hne
    rw [escape, if_neg h1, if_neg h2, if_neg h3, if_neg h4, if_neg h5, if_neg h6, if_neg h7]
    by_cases hcontrol : c.toNat < 0x20
    · exact Or.inr (Or.inl ⟨if_pos hcontrol, hcontrol⟩)
    · exact Or.inr (Or.inr ⟨if_neg hcontrol, h1, h2, hcontrol⟩)

/-! ## The extent of a string -/

theorem stringBody?_quote (s : List Char) : stringBody? ('"' :: s) = some ([], s) := by
  rw [stringBody?.eq_def]
  exact if_pos rfl

theorem stringBody?_plain {c : Char} (quote : c ≠ '"') (slash : c ≠ '\\')
    (control : ¬ c.toNat < 0x20) (s : List Char) :
    stringBody? (c :: s) = (stringBody? s).map fun p => (c :: p.1, p.2) := by
  rw [stringBody?.eq_def]
  simp only [if_neg quote, if_neg slash, if_neg control]

theorem stringBody?_letter {d : Char} (letter : isEscape d = true) (hu : d ≠ 'u')
    (s : List Char) :
    stringBody? ('\\' :: d :: s) = (stringBody? s).map fun p => ('\\' :: d :: p.1, p.2) := by
  rw [stringBody?.eq_def]
  simp [letter, hu]

theorem stringBody?_number {a b c d : Char} (h : [a, b, c, d].all isHexDigit = true)
    (s : List Char) :
    stringBody? ('\\' :: 'u' :: a :: b :: c :: d :: s) =
      (stringBody? s).map fun p => ('\\' :: 'u' :: a :: b :: c :: d :: p.1, p.2) := by
  rw [stringBody?.eq_def]
  simp only [h]
  rfl

theorem stringBody?_escape (c : Char) (s : List Char) :
    stringBody? (escape c ++ s) = (stringBody? s).map fun p => (escape c ++ p.1, p.2) := by
  obtain ⟨d, hd⟩ | ⟨hescape, hcontrol⟩ | ⟨hescape, quote, slash, control⟩ := escape_cases c
  · obtain ⟨hescape, letter, hu, -⟩ := escape_of_mem hd
    rw [hescape]
    exact stringBody?_letter letter hu s
  · rw [hescape]
    exact stringBody?_number (isHexDigit_controlDigits hcontrol) s
  · rw [hescape]
    exact stringBody?_plain quote slash control s

theorem stringBody?_flatMap_escape (cs rest : List Char) :
    stringBody? (cs.flatMap escape ++ '"' :: rest) = some (cs.flatMap escape, rest) := by
  induction cs with
  | nil => exact stringBody?_quote rest
  | cons c cs ih => rw [List.flatMap_cons, List.append_assoc, stringBody?_escape, ih]; rfl

/-! ## The characters of a string -/

theorem pieces_plain {c : Char} (slash : c ≠ '\\') (s : List Char) :
    pieces (c :: s) = .char c :: pieces s := by
  rw [pieces.eq_def]
  split
  · rename_i heq
    cases heq
  · rename_i heq
    exact absurd (List.cons.inj heq).1 slash
  · rename_i heq
    cases heq
    rfl

theorem pieces_letter {d : Char} (hu : d ≠ 'u') (s : List Char) :
    pieces ('\\' :: d :: s) = .char (unescape d) :: pieces s := by
  rw [pieces.eq_def]
  simp [hu]

theorem pieces_number (a b c d : Char) (s : List Char) :
    pieces ('\\' :: 'u' :: a :: b :: c :: d :: s) =
      .unit (hexValue [a, b, c, d]) :: pieces s := by
  rw [pieces.eq_def]
  rfl

/-- The number of a control character is no half of a surrogate pair. -/
theorem characters?_control {n : Nat} (h : n < 0x20) (ps : List Piece) :
    characters? (.unit n :: ps) = (characters? ps).map (Char.ofNat n :: ·) := by
  have hhigh : isHighSurrogate n = false := by
    rw [isHighSurrogate, Bool.and_eq_false_iff]
    exact Or.inl (decide_eq_false (by omega))
  have hlow : isLowSurrogate n = false := by
    rw [isLowSurrogate, Bool.and_eq_false_iff]
    exact Or.inl (decide_eq_false (by omega))
  rw [characters?.eq_def]
  simp only [hhigh, hlow]
  rfl

theorem characters?_escape (c : Char) (s : List Char) :
    characters? (pieces (escape c ++ s)) = (characters? (pieces s)).map (c :: ·) := by
  obtain ⟨d, hd⟩ | ⟨hescape, hcontrol⟩ | ⟨hescape, -, slash, -⟩ := escape_cases c
  · obtain ⟨hescape, -, hu, hvalue⟩ := escape_of_mem hd
    have hpieces := pieces_letter hu s
    rw [hvalue] at hpieces
    rw [hescape]
    exact congrArg characters? hpieces
  · have hpieces := pieces_number '0' '0' (Nat.digitChar (c.toNat / 16))
      (Nat.digitChar (c.toNat % 16)) s
    rw [← controlDigits, hexValue_controlDigits hcontrol] at hpieces
    rw [hescape]
    refine (congrArg characters? hpieces).trans ?_
    rw [characters?_control hcontrol, Char.ofNat_toNat]
  · rw [hescape]
    exact congrArg characters? (pieces_plain slash s)

theorem string?_flatMap_escape (cs : List Char) :
    string? (cs.flatMap escape) = some (String.ofList cs) := by
  have hchars : characters? (pieces (cs.flatMap escape)) = some cs := by
    induction cs with
    | nil => rfl
    | cons c cs ih => rw [List.flatMap_cons, characters?_escape, ih]; rfl
  rw [string?, hchars]
  rfl

end EventQuery.Json
