import EventQuery.Backend.Sqlite.JsonPath
import EventQuery.Proofs.Grammar.Lexemes

/-!
# JSON paths as text

What SQLite takes for a path: `$`, then members by name and elements by position. A name stands bare
up to the next point or bracket, or between quotation marks. A position counts from the start of the
array, or from its end behind `#`.

A path is read back from its spelling when its members are named by field names, which need neither
points nor brackets nor quotation marks. So no two such paths are spelled alike.
-/

namespace EventQuery.Sqlite

open Grammar Matcher

/-! ## Reading -/

def memberName : Matcher (List Char) :=
  (do
    let _ ← char '"'
    let name ← run0 (· != '"')
    let _ ← char '"'
    return name) <|> run1 fun c => c != '.' && c != '['

/-- The position that digits denote, counted from the end if negative. -/
def position (negative : Bool) : Matcher Int64 :=
  checked (run1 Char.isDigit) fun digits => inRange (integerOf? negative digits)

def subscript : Matcher Int64 :=
  (do
    let _ ← char '#'
    let _ ← char '-'
    position true) <|> position false

def step : Matcher Step :=
  (do
    let _ ← char '.'
    let name ← memberName
    return .member (String.ofList name)) <|>
  (do
    let _ ← char '['
    let n ← subscript
    let _ ← char ']'
    return .element n)

def jsonPath : Matcher (List Step) := do
  let _ ← char '$'
  (many step : Matcher (List Step))

/-- The steps that a text describes. -/
def readPath? (text : List Char) : Option (List Step) := (jsonPath.parse text).toOption

/-! ## Reading back -/

/-- Members are named by field names. -/
def Step.HasFieldName : Step → Prop
  | member name => IsFieldName name
  | element _ => True

/-- The text is at its end or goes on with a step. -/
def EndsStep (rest : List Char) : Prop := ∀ c ∈ rest.head?, c = '.' ∨ c = '['

theorem ne_of_isNameChar {c d : Char} (h : isNameChar c = true) (hd : isNameChar d = false) :
    c ≠ d := by
  rintro rfl
  rw [h] at hd
  cases hd

theorem read_memberName_quoted {name : List Char} (h : ∀ c ∈ name, isNameChar c = true)
    (rest : List Char) : memberName.read ('"' :: (name ++ '"' :: rest)) = some (name, rest) := by
  have hname : (run0 (· != '"')).read (name ++ '"' :: rest) = some (name, '"' :: rest) := by
    refine read_run0_append (fun c hc => ?_) ?_
    · simpa using ne_of_isNameChar (h c hc) (by decide)
    · rintro c ⟨⟩
      rfl
  rw [memberName, read_orElse, read_bind, read_char_self, Option.bind_some, read_bind, hname,
    Option.bind_some, read_bind, read_char_self]
  rfl

theorem read_memberName_bare {name : List Char} (hne : name ≠ [])
    (h : ∀ c ∈ name, isNameChar c = true) {rest : List Char} (stop : EndsStep rest) :
    memberName.read (name ++ rest) = some (name, rest) := by
  have noquote : (char '"').read (name ++ rest) = none := by
    refine read_char_of_ne fun c hc => ?_
    exact ne_of_isNameChar (h c (mem_of_mem_head? hne hc)) (by decide)
  rw [memberName, read_orElse, read_bind, noquote, Option.bind_none, Option.none_or]
  refine read_run1_append hne (fun c hc => ?_) fun c hc => ?_
  · simpa using ⟨ne_of_isNameChar (h c hc) (by decide), ne_of_isNameChar (h c hc) (by decide)⟩
  · rcases stop c hc with rfl | rfl <;> rfl

theorem read_position (n : Int64) {rest : List Char} (stop : ∀ c ∈ rest.head?, c.isDigit = false) :
    (position (decide (n.toInt < 0))).read (Digits.ofNat n.toInt.natAbs ++ rest) =
      some (n, rest) := by
  rw [position, read_checked,
    read_run1_append (Digits.ofNat_ne_nil _) (fun _ => Digits.isDigit_of_mem_ofNat) stop,
    Option.bind_some]
  simp only [integerOf?_ofNat_natAbs, inRange]

/-- Behind the point of a member stands its name. -/
theorem exists_spelling_member {name : String} (h : IsFieldName name) {rest : List Char}
    (stop : EndsStep rest) :
    ∃ spelled, (Step.member name).spelling ++ rest = '.' :: spelled ∧
      memberName.read spelled = some (name.toList, rest) := by
  have hname := isNameChar_of_isFieldName h
  by_cases hplain : isPlainName name.toList = true
  · refine ⟨name.toList ++ rest, by rw [Step.spelling, if_pos hplain]; rfl, ?_⟩
    exact read_memberName_bare (toList_ne_nil_of_isFieldName h) hname stop
  · refine ⟨'"' :: (name.toList ++ '"' :: rest), ?_, read_memberName_quoted hname rest⟩
    rw [Step.spelling, if_neg hplain]
    simp

/-- Behind the bracket of an element stands its position, and the other bracket. -/
theorem exists_spelling_element (n : Int64) (rest : List Char) :
    ∃ spelled, (Step.element n).spelling ++ rest = '[' :: spelled ∧
      subscript.read spelled = some (n, ']' :: rest) := by
  have hclose : ∀ c ∈ (']' :: rest).head?, c.isDigit = false := by
    rintro c ⟨⟩
    rfl
  have hposition := read_position n hclose
  by_cases hn : 0 ≤ n.toInt
  · refine ⟨Digits.ofNat n.toInt.natAbs ++ ']' :: rest, ?_, ?_⟩
    · rw [Step.spelling, if_pos hn, Digits.ofInt, if_neg (Int.not_lt.2 hn)]
      simp
    · have nomark : (char '#').read (Digits.ofNat n.toInt.natAbs ++ ']' :: rest) = none := by
        refine read_char_of_ne ?_
        rintro c hc rfl
        have hdigit := Digits.isDigit_of_mem_ofNat (mem_of_mem_head? (Digits.ofNat_ne_nil _) hc)
        exact absurd hdigit (by decide)
      rw [decide_eq_false (Int.not_lt.2 hn)] at hposition
      rw [subscript, read_orElse, read_bind, nomark, Option.bind_none, Option.none_or, hposition]
  · refine ⟨'#' :: '-' :: (Digits.ofNat n.toInt.natAbs ++ ']' :: rest), ?_, ?_⟩
    · rw [Step.spelling, if_neg hn, Digits.ofInt, if_pos (Int.not_le.1 hn)]
      simp
    · rw [decide_eq_true (Int.not_le.1 hn)] at hposition
      rw [subscript, read_orElse, read_bind, read_char_self, Option.bind_some, read_bind,
        read_char_self, Option.bind_some, hposition, Option.some_or]

theorem read_step {x : Step} (h : x.HasFieldName) {rest : List Char} (stop : EndsStep rest) :
    step.read (x.spelling ++ rest) = some (x, rest) := by
  cases x with
  | member name =>
      obtain ⟨spelled, hspelling, hread⟩ := exists_spelling_member h stop
      rw [hspelling, step, read_orElse, read_bind, read_char_self, Option.bind_some, read_bind,
        hread, Option.bind_some, read_pure, String.ofList_toList, Option.some_or]
  | element n =>
      obtain ⟨spelled, hspelling, hread⟩ := exists_spelling_element n rest
      have nomember : (char '.').read ('[' :: spelled) = none := by
        refine read_char_of_ne ?_
        rintro c ⟨⟩
        decide
      rw [hspelling, step, read_orElse, read_bind, nomember, Option.bind_none, Option.none_or,
        read_bind, read_char_self, Option.bind_some, read_bind, hread, Option.bind_some, read_bind,
        read_char_self]
      rfl

theorem Step.exists_spelling_eq_cons (x : Step) :
    ∃ c s, x.spelling = c :: s ∧ (c = '.' ∨ c = '[') := by
  cases x with
  | member name =>
      by_cases hplain : isPlainName name.toList = true
      · exact ⟨_, _, if_pos hplain, Or.inl rfl⟩
      · exact ⟨_, _, if_neg hplain, Or.inl rfl⟩
  | element n =>
      by_cases hn : 0 ≤ n.toInt
      · exact ⟨_, _, if_pos hn, Or.inr rfl⟩
      · exact ⟨_, _, if_neg hn, Or.inr rfl⟩

theorem endsStep_steps (xs : List Step) : EndsStep (xs.flatMap Step.spelling) := by
  cases xs with
  | nil => exact nofun
  | cons x xs =>
      obtain ⟨c, s, hx, hc⟩ := x.exists_spelling_eq_cons
      rw [List.flatMap_cons, hx]
      rintro d ⟨⟩
      exact hc

theorem read_steps {xs : List Step} (h : ∀ x ∈ xs, x.HasFieldName) :
    Matcher.read (many step) (xs.flatMap Step.spelling) = some (xs, []) := by
  induction xs with
  | nil => exact read_many_of_none rfl
  | cons x xs ih =>
      have hround := read_step (h x List.mem_cons_self) (endsStep_steps xs)
      have progress : (xs.flatMap Step.spelling).length <
          (x.spelling ++ xs.flatMap Step.spelling).length := by
        obtain ⟨c, s, hx, -⟩ := x.exists_spelling_eq_cons
        rw [hx, List.length_append, List.length_cons]
        omega
      rw [List.flatMap_cons, read_many_of_some hround progress,
        ih fun y hy => h y (List.mem_cons_of_mem x hy)]
      rfl

/-- A path is read back from its spelling. -/
theorem readPath?_spellPath {xs : List Step} (h : ∀ x ∈ xs, x.HasFieldName) :
    readPath? (spellPath xs) = some xs := by
  have hread : jsonPath.read (spellPath xs) = some (xs, []) := by
    refine (read_bind (char '$') _ _).trans ?_
    rw [spellPath, read_char_self]
    exact read_steps h
  rw [readPath?, parse_eq_ok_iff.2 hread]
  rfl

/-- No two paths of field names are spelled alike. -/
theorem spellPath_inj {xs ys : List Step} (hxs : ∀ x ∈ xs, x.HasFieldName)
    (hys : ∀ y ∈ ys, y.HasFieldName) : spellPath xs = spellPath ys ↔ xs = ys := by
  constructor
  · intro h
    have hread := readPath?_spellPath hxs
    rw [h, readPath?_spellPath hys] at hread
    exact (Option.some.inj hread).symm
  · rintro rfl
    rfl

/-! ## The characters of a path -/

/-- A character that paths are spelled with. -/
def isPathChar (c : Char) : Bool := isNameChar c || "$.\"[]#".toList.contains c

theorem isPathChar_of_isNameChar {c : Char} (h : isNameChar c = true) : isPathChar c = true := by
  rw [isPathChar, h, Bool.true_or]

theorem isPathChar_of_mem_ofInt {n : Int} {c : Char} (h : c ∈ Digits.ofInt n) :
    isPathChar c = true := by
  have hdigit : ∀ d, d.isDigit = true → isPathChar d = true := by
    intro d hd
    exact isPathChar_of_isNameChar (by simp [isNameChar, Char.isAlphanum, hd])
  unfold Digits.ofInt at h
  split at h
  · rcases List.mem_cons.1 h with rfl | h
    · decide
    · exact hdigit c (Digits.isDigit_of_mem_ofNat h)
  · exact hdigit c (Digits.isDigit_of_mem_ofNat h)

theorem Step.isPathChar_of_mem_spelling {x : Step} (h : x.HasFieldName) {c : Char}
    (hc : c ∈ x.spelling) : isPathChar c = true := by
  cases x with
  | member name =>
      have hname : c ∈ name.toList → isPathChar c = true :=
        fun h' => isPathChar_of_isNameChar (isNameChar_of_isFieldName h c h')
      rw [Step.spelling] at hc
      split at hc
      · rcases List.mem_cons.1 hc with rfl | hc
        · decide
        · exact hname hc
      · simp only [List.mem_cons, List.mem_append, List.not_mem_nil, or_false] at hc
        rcases hc with rfl | rfl | hc | rfl
        · decide
        · decide
        · exact hname hc
        · decide
  | element n =>
      rw [Step.spelling] at hc
      split at hc
      · simp only [List.mem_cons, List.mem_append, List.not_mem_nil, or_false] at hc
        rcases hc with rfl | hc | rfl
        · decide
        · exact isPathChar_of_mem_ofInt hc
        · decide
      · simp only [List.mem_cons, List.mem_append, List.not_mem_nil, or_false] at hc
        rcases hc with rfl | rfl | hc | rfl
        · decide
        · decide
        · exact isPathChar_of_mem_ofInt hc
        · decide

/-- The spelling of a path has no other characters. -/
theorem not_mem_spellPath {xs : List Step} (h : ∀ x ∈ xs, x.HasFieldName) {c : Char}
    (hc : isPathChar c = false) : c ∉ spellPath xs := by
  intro hmem
  have hpath : isPathChar c = true := by
    rcases List.mem_cons.1 hmem with rfl | hmem
    · decide
    · obtain ⟨x, hx, hmem⟩ := List.mem_flatMap.1 hmem
      exact Step.isPathChar_of_mem_spelling (h x hx) hmem
  rw [hc] at hpath
  cases hpath

end EventQuery.Sqlite
