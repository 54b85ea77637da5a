import EventQuery.Criterion.Printer
import EventQuery.Proofs.Criterion.Algebra
import EventQuery.Proofs.Criterion.Parsing
import EventQuery.Proofs.Grammar.Enclosure

/-!
# Criteria composed as text

Texts of criteria may be negated and joined as texts, without parsing them first. A text in
parentheses with exclamation marks in front is the criterion negated so often, and two texts in
parentheses with a connective between them are the two criteria combined.

A quotation mark may stand in a text without its counterpart: a value without quotation marks can
begin with one. In a join it would find its counterpart in the second text, so the first must be
free of such marks.
-/

namespace EventQuery

/-- The text in parentheses. -/
def Text.inParentheses (text : String) : String := "( " ++ text ++ " )"

theorem Text.toList_inParentheses (text : String) (w : List Char) :
    (Text.inParentheses text).toList ++ w = '(' :: ' ' :: (text.toList ++ Grammar.closing w) := by
  simp [Text.inParentheses, Grammar.closing]

namespace Grammar

open Matcher

/-! ## Groups -/

theorem read_bangs_replicate (n : Nat) {s : List Char}
    (h : ∀ c ∈ s.head?, Text.isSpace c = false ∧ c ≠ '!') :
    Matcher.read (many (padded (char '!'))) (List.replicate n '!' ++ s) =
      some (List.replicate n '!', s) := by
  induction n with
  | zero => exact read_many_bangs_eq_nil h
  | succ n ih =>
      have hspace : Text.skipSpace (List.replicate n '!' ++ s) = List.replicate n '!' ++ s := by
        refine Text.skipSpace_of_head fun c hc => ?_
        cases n with
        | zero => exact (h c hc).1
        | succ n =>
            cases hc
            decide
      have hround := read_padded_char (c := '!') (by decide) (List.replicate n '!' ++ s)
      rw [hspace] at hround
      rw [List.replicate_succ, List.cons_append,
        read_many_of_some hround (Nat.lt_succ_self _), ih]
      rfl

/-- Exclamation marks before a whole text in parentheses. -/
theorem read_negation_group (n : Nat) {s w : List Char} {a : Criterion}
    (h : criteria.read s = some (a, [])) (apart : Apart s (closing w)) :
    (negation disjunction).read
        (List.replicate n '!' ++ '(' :: ' ' :: (s ++ closing w)) =
      some (if n % 2 = 1 then a.negate else a, Text.skipSpace w) := by
  rw [read_negation_eq, read_bangs_replicate n (by rintro c ⟨⟩; decide), Option.bind_some,
    read_padded, Text.skipSpace_cons_self (by decide), read_orElse,
    read_group_of_read_criteria h apart, Option.some_or, Option.map_some, Option.map_some,
    Text.skipSpace_skipSpace, List.length_replicate]

/-! ## Joins -/

/-- A join of one operand, where no sign of the connective follows. -/
theorem read_joined_of_ne {c : Connective} {m : Matcher Criterion} {s rest : List Char}
    {a : Criterion} (h : m.read s = some (a, rest))
    (stop : ∀ d ∈ (Text.skipSpace rest).head?, d ≠ c.mark) :
    (joined c m).read s = some (a, rest) := by
  rw [read_joined_eq, h, Option.bind_some, read_more_of_ne m stop]
  rfl

/-- A join of two operands at the end of a text. -/
theorem read_joined_pair {c : Connective} {m : Matcher Criterion} {s t : List Char}
    {a b : Criterion} (first : m.read s = some (a, c.token.toList ++ ' ' :: t))
    (start : ∀ d ∈ t.head?, Text.isSpace d = false) (second : m.read t = some (b, [])) :
    (joined c m).read s = some (Criterion.combine c a b, []) := by
  have hsecond : m.read (Text.skipSpace (' ' :: t)) = some (b, []) := by
    rw [Text.skipSpace_blank, Text.skipSpace_of_head start, second]
  rw [read_joined_eq, first, Option.bind_some, read_more_token hsecond (Nat.zero_le _),
    read_more_of_ne m (s := []) nofun]
  rfl

/-- Two operands, each of which may stand in any join, are read as their combination. -/
theorem read_disjunction_pair (c : Connective) {s t : List Char} {a b : Criterion}
    (first : (negation disjunction).read s = some (a, c.token.toList ++ ' ' :: t))
    (start : ∀ d ∈ t.head?, Text.isSpace d = false)
    (second : (negation disjunction).read t = some (b, [])) :
    disjunction.read s = some (Criterion.combine c a b, []) := by
  rw [disjunction_eq]
  cases c with
  | and =>
      have hpair := read_joined_pair (c := .and) first start second
      exact read_joined_of_ne (c := .or) hpair nofun
  | or =>
      have hfirst := read_joined_of_ne (c := .and) first (by rintro d ⟨⟩; decide)
      have hsecond := read_joined_of_ne (c := .and) second nofun
      exact read_joined_pair (c := .or) hfirst start hsecond

theorem read_disjunction_single {s : List Char} {a : Criterion}
    (h : (negation disjunction).read s = some (a, [])) : disjunction.read s = some (a, []) := by
  rw [disjunction_eq]
  exact read_joined_of_ne (c := .or) (read_joined_of_ne (c := .and) h nofun) nofun

end Grammar

namespace Criterion

open Grammar

/-- A parsed text in parentheses is the same criterion, negated if an odd number of exclamation
marks precedes it. Two parsed texts in parentheses with a connective between them are the
combination of the criteria, if the first text has no quotation mark. -/
theorem parse_inParentheses {text : String} {a : Criterion} (solid : Text.isBlank text = false)
    (h : Criterion.parse text = .ok a) :
    (∀ n, Criterion.parse (String.ofList (List.replicate n '!') ++ Text.inParentheses text) =
        .ok (if n % 2 = 0 then a else a.negate)) ∧
      ∀ text' b, Text.isBlank text' = false → Criterion.parse text' = .ok b →
        (∀ q ∈ text.toList, q ≠ '"' ∧ q ≠ '\'') → ∀ c : Connective,
          Criterion.parse
              (Text.inParentheses text ++ " " ++ c.token ++ " " ++ Text.inParentheses text') =
            .ok (combine c a b).flatten := by
  obtain ⟨a, ha, rfl⟩ := (parse_eq_ok_iff solid).1 h
  have unmarked : ∀ q ∈ closing [], q ≠ '"' ∧ q ≠ '\'' := by simp [closing]
  constructor
  · intro n
    have htext : (String.ofList (List.replicate n '!') ++ Text.inParentheses text).toList =
        List.replicate n '!' ++ '(' :: ' ' :: (text.toList ++ closing []) := by
      rw [String.toList_append, String.toList_ofList, ← Text.toList_inParentheses, List.append_nil]
    have hread := read_disjunction_single (read_negation_group n ha (Or.inr unmarked))
    rw [← htext] at hread
    have hstart : ∃ c ∈ (String.ofList (List.replicate n '!') ++
        Text.inParentheses text).toList.head?, Text.isSpace c = false := by
      rw [htext]
      cases n with
      | zero => exact ⟨'(', rfl, by decide⟩
      | succ n => exact ⟨'!', rfl, by decide⟩
    rw [parse_of_read_disjunction hstart hread]
    rcases Nat.mod_two_eq_zero_or_one n with hn | hn
    · simp [hn]
    · simp [hn, flatten_negate]
  · intro text' b solid' h' unquoted c
    -- for the first group everything up to the end stands behind it, for the second nothing does
    obtain ⟨b, hb, rfl⟩ := (parse_eq_ok_iff solid').1 h'
    have htext : (Text.inParentheses text ++ " " ++ c.token ++ " " ++
        Text.inParentheses text').toList =
          '(' :: ' ' :: (text.toList ++
            closing (c.sign ++ '(' :: ' ' :: (text'.toList ++ closing []))) := by
      rw [← Text.toList_inParentheses, ← Text.toList_inParentheses]
      simp [Connective.sign]
    have hfirst := read_negation_group 0 ha
      (w := c.sign ++ '(' :: ' ' :: (text'.toList ++ closing [])) (Or.inl unquoted)
    have hsecond := read_negation_group 0 hb (Or.inr unmarked)
    rw [skipSpace_sign] at hfirst
    have hread := read_disjunction_pair c hfirst (by rintro d ⟨⟩; decide) hsecond
    rw [List.replicate_zero, List.nil_append, ← htext] at hread
    rw [parse_of_read_disjunction ⟨'(', by rw [htext]; rfl, by decide⟩ hread]
    exact congrArg _ (flatten_combine_flatten c a b).symm

/-- The first text ends in a backslash, the second has a mark that nothing closes. -/
theorem parse_inParentheses_stray :
    ∃ a b, Criterion.parse "x == dir\\" = .ok a ∧ Criterion.parse "!y == 'open || z" = .ok b ∧
      a.text = "x == \"dir\\\\\"" ∧ b.text = "y != \"'open\" || z" ∧
      Criterion.parse "!!!( x == dir\\ )" = .ok a.negate ∧
      Criterion.parse "( x == dir\\ ) && ( !y == 'open || z )" =
        .ok (combine .and a b).flatten := by
  have hfirst : (Criterion.parse "x == dir\\").toOption.any
      (·.text = "x == \"dir\\\\\"") = true := by decide +kernel
  have hsecond : (Criterion.parse "!y == 'open || z").toOption.any
      (·.text = "y != \"'open\" || z") = true := by decide +kernel
  obtain ⟨a, ha, hatext⟩ := exists_ok_of_any hfirst
  obtain ⟨b, hb, hbtext⟩ := exists_ok_of_any hsecond
  obtain ⟨hnegated, hjoined⟩ := parse_inParentheses (by decide +kernel) ha
  refine ⟨a, b, ha, hb, of_decide_eq_true hatext, of_decide_eq_true hbtext, ?_, ?_⟩
  · exact hnegated 3
  · exact hjoined _ b (by decide +kernel) hb (by simp) .and

end Criterion

end EventQuery
