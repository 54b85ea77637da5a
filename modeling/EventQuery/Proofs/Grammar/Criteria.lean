import EventQuery.Proofs.Grammar.Comparison
import Mathlib.Data.List.Forall2

/-!
# Joins are read back

The grammar of criteria refers to itself behind a parenthesis only, so that `disjunction` is the
matcher it is defined by.

What is read depends on what follows: an operand ends at either connective, a conjunction only at
`||`, and a disjunction only at a closing parenthesis. `Reads` states what a matcher reads before
any text of such a kind, and passes from operands to the joins they are written in.
-/

namespace EventQuery

/-- The character that the token of a connective consists of. -/
def Connective.mark : Connective → Char
  | .and => '&'
  | .or => '|'

theorem Connective.token_toList (c : Connective) : c.token.toList = [c.mark, c.mark] := by
  cases c <;> rfl

/-- A connective between two operands. -/
def Connective.sign (c : Connective) : List Char := ' ' :: (c.token.toList ++ [' '])

namespace Grammar

open Matcher

/-! ## Recursion -/

theorem guarded_disjunction : Guarded fun inner => joined .or (conjunction inner) := by
  intro n k k' h
  have hparen : ∀ c, (padded (char c)).Shrinks := fun c => .padded (.oneOf _)
  have hgroup : AgreeBelow (n + 1) (group k) (group k') :=
    .bind_advance (hparen '(') (.padded (.oneOf _)) fun _ =>
      .bind h fun _ => .of_shrinks (.bind (hparen ')') fun _ => .pure _) n
  have hnegation : AgreeBelow (n + 1) (negation k) (negation k') :=
    .bind (.of_shrinks (.many (hparen '!')) _) fun _ =>
      .bind (.padded (.orElse hgroup (.of_shrinks shrinks_comparison _))) fun _ =>
        .of_shrinks (.pure _) _
  have hjoined : ∀ c {m m' : Matcher Criterion}, AgreeBelow (n + 1) m m' →
      AgreeBelow (n + 1) (joined c m) (joined c m') := fun c _ _ hm =>
    .bind hm fun _ =>
      .bind (.many (.bind (.of_shrinks (.padded (.word _)) _) fun _ => hm)) fun _ =>
        .of_shrinks (.pure _) _
  exact hjoined .or (hjoined .and hnegation)

theorem disjunction_eq : disjunction = joined .or (conjunction disjunction) :=
  guarded_disjunction.recursive_eq

/-! ## What the constructs read -/

theorem read_group_paren (inner : Matcher Criterion) (s : List Char) :
    (group inner).read ('(' :: s) =
      (inner.read (Text.skipSpace s)).bind fun p =>
        ((padded (char ')')).read p.2).map fun q => (p.1, q.2) := by
  rw [group, read_bind, read_padded_char (by decide), Option.bind_some, read_bind]
  refine congrArg _ (funext fun p => ?_)
  rw [read_bind]
  cases (padded (char ')')).read p.2 <;> rfl

theorem read_group_of_ne (inner : Matcher Criterion) {s : List Char}
    (h : ∀ c ∈ (Text.skipSpace s).head?, c ≠ '(') : (group inner).read s = none := by
  rw [group, read_bind, read_padded_char_of_ne h, Option.bind_none]

theorem read_negation_eq (inner : Matcher Criterion) (s : List Char) :
    (negation inner).read s =
      (Matcher.read (many (padded (char '!'))) s).bind fun p =>
        ((padded (group inner <|> comparison)).read p.2).map fun q =>
          (if p.1.length % 2 = 1 then q.1.negate else q.1, q.2) := by
  rw [negation]
  refine (read_bind (many (padded (char '!'))) _ s).trans (congrArg _ (funext fun p => ?_))
  rw [read_bind]
  cases (padded (group inner <|> comparison)).read p.2 <;> rfl

/-- The operands of a join behind the first. -/
def more (c : Connective) (m : Matcher Criterion) : Matcher (List Criterion) :=
  many (do padded (word c.token.toList); m)

theorem read_joined_eq (c : Connective) (m : Matcher Criterion) (s : List Char) :
    (joined c m).read s =
      (m.read s).bind fun p => ((more c m).read p.2).map fun q =>
        (q.1.foldl (Criterion.combine c) p.1, q.2) := by
  rw [joined, read_bind]
  refine congrArg _ (funext fun p => ?_)
  refine (read_bind (more c m) _ _).trans ?_
  cases (more c m).read p.2 <;> rfl

/-- No operand follows on a text that does not go on with the connective. -/
theorem read_more_of_ne {c : Connective} (m : Matcher Criterion) {s : List Char}
    (h : ∀ d ∈ (Text.skipSpace s).head?, d ≠ c.mark) : (more c m).read s = some ([], s) := by
  refine read_many_of_none ?_
  rw [read_bind, read_padded, c.token_toList, read_word_of_ne h, Option.map_none,
    Option.bind_none]

/-- An operand and the ones behind it. -/
theorem read_more_token {c : Connective} {m : Matcher Criterion} {s rest : List Char}
    {b : Criterion} (h : m.read (Text.skipSpace s) = some (b, rest))
    (le : rest.length ≤ s.length) :
    (more c m).read (c.token.toList ++ s) =
      ((more c m).read rest).map fun p => (b :: p.1, p.2) := by
  have hspace : Text.skipSpace (c.token.toList ++ s) = c.token.toList ++ s := by cases c <;> rfl
  refine read_many_of_some ?_ ?_
  · rw [read_bind, read_padded, hspace, read_word_append, Option.map_some, Option.bind_some, h]
  · rw [c.token_toList, List.length_append, List.length_cons]
    omega

/-! ## What follows -/

/-- A text that goes on with one of the marks or ends, without a character that could belong to
what precedes it. -/
def Follows (marks : List Char) (rest : List Char) : Prop :=
  (∀ c ∈ rest.head?, c = ' ' ∨ c = ')') ∧ ∀ c ∈ (Text.skipSpace rest).head?, c ∈ marks

theorem follows_nil (marks : List Char) : Follows marks [] := ⟨nofun, nofun⟩

theorem follows_close {marks : List Char} (h : ')' ∈ marks) (rest : List Char) :
    Follows marks (')' :: rest) := by
  constructor
  · rintro c ⟨⟩
    exact Or.inr rfl
  · rintro c ⟨⟩
    exact h

theorem Follows.mono {marks marks' : List Char} (h : ∀ c ∈ marks, c ∈ marks') {rest : List Char}
    (hrest : Follows marks rest) : Follows marks' rest :=
  ⟨hrest.1, fun c hc => h c (hrest.2 c hc)⟩

theorem skipSpace_sign (c : Connective) (s : List Char) :
    Text.skipSpace (c.sign ++ s) = c.token.toList ++ ' ' :: s := by
  cases c <;> rfl

theorem follows_sign (c : Connective) (marks s : List Char) :
    Follows (c.mark :: marks) (c.sign ++ s) := by
  constructor
  · rintro d ⟨⟩
    exact Or.inl rfl
  · rw [skipSpace_sign]
    cases c <;> (rintro d ⟨⟩; exact List.mem_cons_self)

/-! ## From operands to joins -/

/-- Before every text that goes on with one of the marks, the matcher reads `b` from the text `t`
and the white space behind it. The text does not begin with white space itself. -/
structure Reads (m : Matcher Criterion) (marks t : List Char) (b : Criterion) : Prop where
  start : ∃ c ∈ t.head?, Text.isSpace c = false
  read : ∀ rest, Follows marks rest → m.read (t ++ rest) = some (b, Text.skipSpace rest)

theorem Reads.skipSpace_append {m : Matcher Criterion} {marks t : List Char} {b : Criterion}
    (h : Reads m marks t b) (s : List Char) : Text.skipSpace (t ++ s) = t ++ s := by
  obtain ⟨c, hc, hspace⟩ := h.start
  refine Text.skipSpace_of_head fun d hd => ?_
  cases t with
  | nil => cases hc
  | cons e t =>
      cases hc
      cases hd
      exact hspace

/-- The marks at which an operand ends, whatever join it is written in. -/
def operandMarks : List Char := ['&', '|', ')']

/-- Texts that each follow a connective. -/
def signed (c : Connective) (ts : List (List Char)) : List Char := ts.flatMap (c.sign ++ ·)

@[simp] theorem signed_nil (c : Connective) : signed c [] = [] := rfl

@[simp] theorem signed_cons (c : Connective) (t : List Char) (ts : List (List Char)) :
    signed c (t :: ts) = c.sign ++ (t ++ signed c ts) := by
  rw [signed, List.flatMap_cons, List.append_assoc, ← signed]

theorem follows_signed (c : Connective) {marks rest : List Char} (h : Follows marks rest)
    (ts : List (List Char)) : Follows (c.mark :: marks) (signed c ts ++ rest) := by
  cases ts with
  | nil => exact h.mono fun _ => List.mem_cons_of_mem _
  | cons t ts =>
      rw [signed_cons, List.append_assoc]
      exact follows_sign c marks _

theorem reads_more {c : Connective} {m : Matcher Criterion} {marks : List Char}
    (hc : c.mark ∉ marks) {ts : List (List Char)} {bs : List Criterion}
    (h : List.Forall₂ (Reads m (c.mark :: marks)) ts bs) {rest : List Char}
    (stop : Follows marks rest) :
    (more c m).read (Text.skipSpace (signed c ts ++ rest)) = some (bs, Text.skipSpace rest) := by
  induction h with
  | nil =>
      refine read_more_of_ne m ?_
      rw [signed_nil, List.nil_append, Text.skipSpace_skipSpace]
      exact fun d hd heq => hc (heq ▸ stop.2 d hd)
  | @cons t b ts bs ht hts ih =>
      have hread : m.read (Text.skipSpace (' ' :: (t ++ (signed c ts ++ rest)))) =
          some (b, Text.skipSpace (signed c ts ++ rest)) := by
        rw [Text.skipSpace_blank, ht.skipSpace_append,
          ht.read _ (follows_signed c stop ts)]
      have hleft : Text.skipSpace (signed c ts ++ rest) <:+ ' ' :: (t ++ (signed c ts ++ rest)) :=
        (Text.skipSpace_suffix _).trans ((List.suffix_append t _).trans (List.suffix_cons ' ' _))
      rw [signed_cons, List.append_assoc, List.append_assoc, skipSpace_sign,
        read_more_token hread hleft.length_le, ih]
      rfl

theorem reads_joined {c : Connective} {m : Matcher Criterion} {marks : List Char}
    (hc : c.mark ∉ marks) {t : List Char} {b : Criterion} (ht : Reads m (c.mark :: marks) t b)
    {ts : List (List Char)} {bs : List Criterion}
    (hts : List.Forall₂ (Reads m (c.mark :: marks)) ts bs) :
    Reads (joined c m) marks (t ++ signed c ts) (bs.foldl (Criterion.combine c) b) := by
  constructor
  · obtain ⟨d, hd, hspace⟩ := ht.start
    refine ⟨d, ?_, hspace⟩
    cases t with
    | nil => cases hd
    | cons e t => exact hd
  · intro rest stop
    rw [List.append_assoc, read_joined_eq, ht.read _ (follows_signed c stop ts), Option.bind_some,
      reads_more hc hts stop]
    rfl

/-- A conjunction of one operand, or a disjunction of one conjunction, is read as that one. -/
theorem reads_single {c : Connective} {m : Matcher Criterion} {marks : List Char}
    (hc : c.mark ∉ marks) {t : List Char} {b : Criterion} (ht : Reads m (c.mark :: marks) t b) :
    Reads (joined c m) marks t b := by
  have h := reads_joined hc ht .nil
  rwa [signed_nil, List.append_nil] at h

theorem reads_disjunction {t : List Char} {b : Criterion}
    (h : Reads (conjunction disjunction) ['|', ')'] t b) : Reads disjunction [')'] t b := by
  rw [disjunction_eq]
  exact reads_single (c := .or) (by decide) h

/-- Operands under one connective are read as their combination from the left. -/
theorem reads_operands (c : Connective) {t : List Char} {b : Criterion}
    (ht : Reads (negation disjunction) operandMarks t b) {ts : List (List Char)}
    {bs : List Criterion} (hts : List.Forall₂ (Reads (negation disjunction) operandMarks) ts bs) :
    Reads disjunction [')'] (t ++ signed c ts) (bs.foldl (Criterion.combine c) b) := by
  cases c with
  | and => exact reads_disjunction (reads_joined (c := .and) (by decide) ht hts)
  | or =>
      have hone : ∀ t b, Reads (negation disjunction) operandMarks t b →
          Reads (conjunction disjunction) ['|', ')'] t b := fun t b h =>
        reads_single (c := .and) (by decide) h
      rw [disjunction_eq]
      exact reads_joined (c := .or) (by decide) (hone t b ht) (hts.imp hone)

/-- An operand alone is a disjunction. -/
theorem reads_operand {t : List Char} {b : Criterion}
    (h : Reads (negation disjunction) operandMarks t b) : Reads disjunction [')'] t b :=
  reads_disjunction (reads_single (c := .and) (by decide) h)

/-! ## Operands -/

theorem read_many_bangs_eq_nil {s : List Char}
    (h : ∀ c ∈ s.head?, Text.isSpace c = false ∧ c ≠ '!') :
    Matcher.read (many (padded (char '!'))) s = some ([], s) := by
  refine read_many_of_none (read_padded_char_of_ne ?_)
  rw [Text.skipSpace_of_head fun c hc => (h c hc).1]
  exact fun c hc => (h c hc).2

/-- Without an exclamation mark in front an operand is a group or a comparison. -/
theorem read_negation (inner : Matcher Criterion) {s : List Char}
    (h : ∀ c ∈ s.head?, Text.isSpace c = false ∧ c ≠ '!') :
    (negation inner).read s = (padded (group inner <|> comparison)).read s := by
  rw [read_negation_eq, read_many_bangs_eq_nil h, Option.bind_some]
  cases (padded (group inner <|> comparison)).read s <;> rfl

/-- One exclamation mark negates what follows. -/
theorem read_negation_bang (inner : Matcher Criterion) {s : List Char}
    (h : ∀ c ∈ s.head?, Text.isSpace c = false ∧ c ≠ '!') :
    (negation inner).read ('!' :: s) =
      ((padded (group inner <|> comparison)).read s).map fun p => (p.1.negate, p.2) := by
  have hbang := read_padded_char (c := '!') (by decide) s
  rw [Text.skipSpace_of_head fun c hc => (h c hc).1] at hbang
  rw [read_negation_eq, read_many_of_some hbang (Nat.lt_succ_self _), read_many_bangs_eq_nil h]
  rfl

/-- Parentheses make an operand of a disjunction. -/
theorem reads_group {t : List Char} {b : Criterion} (h : Reads disjunction [')'] t b) :
    Reads (negation disjunction) operandMarks ('(' :: (t ++ [')'])) b := by
  refine ⟨⟨'(', rfl, by decide⟩, fun rest _ => ?_⟩
  have hgroup : (group disjunction).read ('(' :: (t ++ ')' :: rest)) =
      some (b, Text.skipSpace rest) := by
    rw [read_group_paren, h.skipSpace_append, h.read _ (follows_close List.mem_cons_self rest),
      Option.bind_some, Text.skipSpace_cons_self (by decide),
      read_padded_char (by decide), Option.map_some]
  have htext : '(' :: (t ++ [')']) ++ rest = '(' :: (t ++ ')' :: rest) := by simp
  rw [htext, read_negation disjunction (by rintro c ⟨⟩; decide), read_padded,
    Text.skipSpace_cons_self (by decide), read_orElse, hgroup, Option.some_or,
    Option.map_some, Text.skipSpace_skipSpace]

/-- A letter is neither white space nor a sign of the grammar. -/
theorem ordinary_of_isAlpha {c : Char} (h : c.isAlpha = true) :
    Text.isSpace c = false ∧ c ≠ '!' ∧ c ≠ '(' := by
  refine ⟨Text.isSpace_of_isAlpha h, ?_, ?_⟩
  · rintro rfl
    exact absurd h (by decide)
  · rintro rfl
    exact absurd h (by decide)

/-- A text that begins with a letter is not a group. -/
theorem read_padded_comparison (inner : Matcher Criterion) {s : List Char}
    (h : ∀ c ∈ s.head?, c.isAlpha = true) :
    (padded (group inner <|> comparison)).read s =
      (comparison.read s).map fun p => (p.1, Text.skipSpace p.2) := by
  have hspace : Text.skipSpace s = s :=
    Text.skipSpace_of_head fun c hc => (ordinary_of_isAlpha (h c hc)).1
  have nogroup : (group inner).read s = none := by
    refine read_group_of_ne inner ?_
    rw [hspace]
    exact fun c hc => (ordinary_of_isAlpha (h c hc)).2.2
  rw [read_padded, hspace, read_orElse, nogroup, Option.none_or]

theorem unnegated_of_isAlpha {s : List Char} (h : ∀ c ∈ s.head?, c.isAlpha = true) :
    ∀ c ∈ s.head?, Text.isSpace c = false ∧ c ≠ '!' :=
  fun c hc => ⟨(ordinary_of_isAlpha (h c hc)).1, (ordinary_of_isAlpha (h c hc)).2.1⟩

theorem read_negation_comparison (inner : Matcher Criterion) {s : List Char}
    (h : ∀ c ∈ s.head?, c.isAlpha = true) :
    (negation inner).read s = (comparison.read s).map fun p => (p.1, Text.skipSpace p.2) := by
  rw [read_negation inner (unnegated_of_isAlpha h), read_padded_comparison inner h]

theorem isAlpha_head_spelling {p : Path} (hp : p.HasFieldNames) (s : List Char) :
    ∀ c ∈ (p.spelling ++ s).head?, c.isAlpha = true := by
  obtain ⟨d, t, hspelling, hd⟩ := exists_spelling_eq_cons hp
  rw [hspelling]
  rintro c ⟨⟩
  exact hd

theorem exists_start_spelling {p : Path} (hp : p.HasFieldNames) (s : List Char) :
    ∃ c ∈ (p.spelling ++ s).head?, Text.isSpace c = false := by
  obtain ⟨d, t, hspelling, hd⟩ := exists_spelling_eq_cons hp
  rw [hspelling]
  exact ⟨d, rfl, (ordinary_of_isAlpha hd).1⟩

theorem endsValue_of_follows {marks rest : List Char} (h : Follows marks rest) :
    EndsValue rest := by
  intro c hc
  rcases h.1 c hc with rfl | rfl
  · exact Or.inr (by decide)
  · exact Or.inl (by decide)

theorem endsPath_of_follows {marks rest : List Char} (h : Follows marks rest) : EndsPath rest := by
  constructor
  · intro c hc
    rcases h.1 c hc with rfl | rfl <;> decide
  · intro c hc
    rcases h.1 c hc with rfl | rfl <;> decide

theorem reads_value {p : Path} (hp : p.HasFieldNames) (c : Comparison) (v : Value) :
    Reads (negation disjunction) operandMarks
      (p.spelling ++ ' ' :: (c.token.toList ++ ' ' :: v.spelling))
      (.leaf ⟨p, .comparison c, some (.text (String.ofList v.plainText))⟩) := by
  refine ⟨exists_start_spelling hp _, fun rest stop => ?_⟩
  have htext : p.spelling ++ ' ' :: (c.token.toList ++ ' ' :: v.spelling) ++ rest =
      p.spelling ++ ' ' :: (c.token.toList ++ ' ' :: (v.spelling ++ rest)) := by simp
  rw [htext, read_negation_comparison disjunction (isAlpha_head_spelling hp _),
    read_comparison_value hp c v (endsValue_of_follows stop), Option.map_some]

/-- A path alone, and with an exclamation mark in front. -/
theorem reads_presence {p : Path} (hp : p.HasFieldNames) :
    Reads (negation disjunction) operandMarks p.spelling (.leaf (.present p)) ∧
      Reads (negation disjunction) operandMarks ('!' :: p.spelling) (.leaf (.absent p)) := by
  have hread : ∀ rest, Follows operandMarks rest →
      comparison.read (p.spelling ++ rest) = some (.leaf (.present p), rest) := by
    intro rest stop
    refine read_comparison_present hp (endsPath_of_follows stop) fun c hc => ?_
    simpa [operandMarks] using stop.2 c hc
  constructor
  · refine ⟨?_, fun rest stop => ?_⟩
    · have hstart := exists_start_spelling hp []
      rwa [List.append_nil] at hstart
    · rw [read_negation_comparison disjunction (isAlpha_head_spelling hp rest), hread rest stop,
        Option.map_some]
  · refine ⟨⟨'!', rfl, by decide⟩, fun rest stop => ?_⟩
    rw [List.cons_append,
      read_negation_bang disjunction (unnegated_of_isAlpha (isAlpha_head_spelling hp rest)),
      read_padded_comparison disjunction (isAlpha_head_spelling hp rest), hread rest stop]
    rfl

end Grammar

end EventQuery
