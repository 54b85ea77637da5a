import EventQuery.Proofs.Grammar.Criteria
import EventQuery.Proofs.Grammar.Lookahead

/-!
# Criteria in parentheses

What the grammar reads from a whole text it reads from the text in parentheses, too. Not every
choice is the same: a group that lacks its closing parenthesis finds one behind the text. But where
reading went on to the end of the text, or to a mark at which a criterion ends, no group was left
open, and every choice on the way stays as it was.

The proof follows the grammar. `Carries` is what each of its matchers keeps, on texts below a length
that grows by one behind each opening parenthesis.
-/

namespace EventQuery.Grammar

open Matcher

variable {w : List Char}

/-- The matcher leaves no white space at the beginning of the rest. -/
def Matcher.Trims {α : Type} (m : Matcher α) : Prop :=
  ∀ s a rest, m.read s = some (a, rest) → Text.skipSpace rest = rest

section Trims

variable {α β : Type} {m : Matcher α}

theorem Matcher.Trims.bind {f : α → Matcher β} (hf : ∀ a, (f a).Trims) : (m >>= f).Trims := by
  intro s b rest h
  rw [read_bind] at h
  obtain ⟨⟨a, middle⟩, -, h⟩ := Option.bind_eq_some_iff.1 h
  exact hf a middle b rest h

theorem Matcher.Trims.map {f : α → β} (hm : m.Trims) : (m >>= fun a => pure (f a)).Trims := by
  intro s b rest h
  rw [read_bind] at h
  obtain ⟨⟨a, middle⟩, ha, h⟩ := Option.bind_eq_some_iff.1 h
  cases h
  exact hm s a middle ha

theorem Matcher.Trims.padded : (padded m).Trims := by
  intro s a rest h
  rw [read_padded] at h
  obtain ⟨p, -, h⟩ := Option.map_eq_some_iff.1 h
  cases h
  exact Text.skipSpace_skipSpace p.2

/-- What a repetition leaves is trimmed if it begins so. -/
theorem Matcher.Trims.many (hm : m.Trims) {s rest : List Char} {as : List α}
    (h : Matcher.read (many m) s = some (as, rest)) (start : Text.skipSpace s = s) :
    Text.skipSpace rest = rest := by
  refine many_induct (motive := fun s _ rest => Text.skipSpace s = s → Text.skipSpace rest = rest)
    (fun _ _ => id) ?_ ?_ h start
  · exact fun s a middle as rest hread _ ih _ => ih (hm s a middle hread)
  · exact fun s a rest hread _ _ => hm s a rest hread

end Trims

/-! ## What is left -/

theorem shrinks_negation {inner : Matcher Criterion} (h : inner.Shrinks) :
    (negation inner).Shrinks := by
  have hchar : ∀ c, (padded (char c)).Shrinks := fun c => .padded (.oneOf _)
  have hgroup : (group inner).Shrinks :=
    .bind (hchar '(') fun _ => .bind h fun _ => .bind (hchar ')') fun _ => .pure _
  exact .bind (.many (hchar '!')) fun _ =>
    .bind (.padded (.orElse hgroup shrinks_comparison)) fun _ => .pure _

theorem shrinks_joined (c : Connective) {m : Matcher Criterion} (h : m.Shrinks) :
    (joined c m).Shrinks :=
  .bind h fun _ => .bind (.many (.bind (.padded (.word _)) fun _ => h)) fun _ => .pure _

theorem trims_negation (inner : Matcher Criterion) : (negation inner).Trims :=
  .bind fun _ => .map .padded

theorem trims_joined (c : Connective) {m : Matcher Criterion} (h : m.Trims) :
    (joined c m).Trims := by
  intro s a rest hread
  rw [read_joined_eq] at hread
  obtain ⟨⟨first, middle⟩, hfirst, hread⟩ := Option.bind_eq_some_iff.1 hread
  obtain ⟨⟨more, rest'⟩, hmore, hread⟩ := Option.map_eq_some_iff.1 hread
  cases hread
  exact Trims.many (.bind fun _ => h) hmore (h s first middle hfirst)

theorem trims_disjunction : disjunction.Trims := by
  rw [disjunction_eq]
  exact trims_joined .or (trims_joined .and (trims_negation disjunction))

/-! ## Behind a whole text -/

/-- On texts shorter than `n` the matcher reads with a closing parenthesis behind them what it reads
from them up to one of the marks. -/
def Carries (w marks : List Char) (n : Nat) (m : Matcher Criterion) : Prop :=
  ∀ s a rest, s.length < n → Apart s (closing w) → Text.skipSpace s = s →
    m.read s = some (a, rest) → (∀ c ∈ rest.head?, c ∈ marks) →
      m.read (enclosed w s) = some (a, enclosed w rest)

theorem isSpace_of_skipSpace_eq {c : Char} {s : List Char}
    (h : Text.skipSpace (c :: s) = c :: s) : Text.isSpace c = false :=
  Text.isSpace_head_skipSpace (c :: s) c (by rw [h]; rfl)

theorem read_bangs_enclosed {s rest bangs : List Char} (start : Text.skipSpace s = s)
    (h : Matcher.read (many (padded (char '!'))) s = some (bangs, rest)) :
    Matcher.read (many (padded (char '!'))) (enclosed w s) = some (bangs, enclosed w rest) := by
  refine many_induct (motive := fun s bangs rest => Text.skipSpace s = s →
    Matcher.read (many (padded (char '!'))) (enclosed w s) = some (bangs, enclosed w rest))
    ?_ ?_ ?_ h start
  · intro s hread start
    refine read_many_of_none ?_
    cases s with
    | nil => rfl
    | cons c t =>
        have hc := isSpace_of_skipSpace_eq start
        rw [enclosed_cons hc]
        by_cases hbang : c = '!'
        · subst hbang
          rw [read_padded_char hc] at hread
          cases hread
        · refine read_padded_char_of_ne ?_
          rw [Text.skipSpace_cons_self hc]
          rintro d ⟨⟩
          exact hbang
  · intro s c middle bangs rest hread progress ih start
    obtain ⟨t, rfl, rfl, rfl⟩ := eq_cons_of_read_padded_char start hread
    rw [enclosed_cons (by decide)]
    have hround := read_padded_char (c := '!') (by decide) (t ++ closing w)
    rw [read_many_of_some hround (Nat.lt_succ_of_le (Text.skipSpace_suffix _).length_le),
      ← enclosed, ← enclosed_skipSpace, ih (Text.skipSpace_skipSpace t)]
    rfl
  · intro s c rest hread stuck start
    obtain ⟨t, rfl, rfl, rfl⟩ := eq_cons_of_read_padded_char start hread
    exact absurd (Nat.lt_succ_of_le (Text.skipSpace_suffix t).length_le) stuck

theorem carries_group {n : Nat} (ih : Carries w [')'] n disjunction) {s rest : List Char}
    {a : Criterion} (hlen : s.length < n) (apart : Apart s (closing w))
    (h : (group disjunction).read ('(' :: s) = some (a, rest)) :
    (group disjunction).read ('(' :: (s ++ closing w)) = some (a, enclosed w rest) := by
  rw [read_group_paren] at h ⊢
  obtain ⟨⟨b, middle⟩, hinner, h⟩ := Option.bind_eq_some_iff.1 h
  obtain ⟨⟨d, rest'⟩, hclose, h⟩ := Option.map_eq_some_iff.1 h
  cases h
  have hsuffix := Text.skipSpace_suffix s
  -- the group was closed within the text, so that the text behind it is not asked for a parenthesis
  obtain ⟨behind, rfl, -, rfl⟩ :=
    eq_cons_of_read_padded_char (trims_disjunction _ _ _ hinner) hclose
  have hcarried := ih _ _ _ (Nat.lt_of_le_of_lt hsuffix.length_le hlen)
    (apart.of_suffix hsuffix) (Text.skipSpace_skipSpace s) hinner
    (by rintro c ⟨⟩; exact List.mem_cons_self)
  rw [← enclosed, ← enclosed_skipSpace, hcarried, Option.bind_some, enclosed_cons (by decide),
    read_padded_char (by decide), Option.map_some, ← enclosed, enclosed_skipSpace]

theorem carries_operand {n : Nat} (ih : Carries w [')'] n disjunction) {s rest : List Char}
    {a : Criterion} (hlen : s.length < n + 1) (apart : Apart s (closing w))
    (start : Text.skipSpace s = s)
    (h : (padded (group disjunction <|> comparison)).read s = some (a, rest)) :
    (padded (group disjunction <|> comparison)).read (enclosed w s) =
      some (a, enclosed w rest) := by
  rw [read_padded, start, read_orElse] at h
  rw [read_padded, enclosed, Text.skipSpace_skipSpace, ← enclosed, read_orElse]
  cases s with
  | nil =>
      rw [read_group_of_ne _ (by rintro c ⟨⟩)] at h
      cases h
  | cons c t =>
      have hc := isSpace_of_skipSpace_eq start
      rw [enclosed_cons hc]
      -- the first character decides between a group and a comparison, on both texts alike
      by_cases hparen : c = '('
      · subst hparen
        have hnone : ∀ u, comparison.read ('(' :: u) = none := fun u => rfl
        rw [hnone, Option.or_none] at h ⊢
        obtain ⟨p, hp, h⟩ := Option.map_eq_some_iff.1 h
        cases h
        rw [carries_group ih (Nat.lt_of_succ_lt_succ hlen)
          (apart.of_suffix (List.suffix_cons '(' t)) hp, Option.map_some, enclosed,
          Text.skipSpace_skipSpace, ← enclosed, enclosed_skipSpace]
      · have hnone : ∀ u, (group disjunction).read (c :: u) = none := by
          intro u
          refine read_group_of_ne _ ?_
          rw [Text.skipSpace_cons_self hc]
          rintro d ⟨⟩
          exact hparen
        rw [hnone, Option.none_or] at h ⊢
        obtain ⟨p, hp, h⟩ := Option.map_eq_some_iff.1 h
        cases h
        rw [← List.cons_append, blind_comparison.read _ apart, hp, Option.map_some,
          Option.map_some, ← enclosed, enclosed_skipSpace]

theorem carries_negation {n : Nat} (ih : Carries w [')'] n disjunction) (marks : List Char) :
    Carries w marks (n + 1) (negation disjunction) := by
  intro s a rest hlen apart start h _
  have hchar : ∀ c, (padded (char c)).Shrinks := fun c => .padded (.oneOf _)
  rw [read_negation_eq] at h ⊢
  obtain ⟨⟨bangs, middle⟩, hbangs, h⟩ := Option.bind_eq_some_iff.1 h
  obtain ⟨⟨b, rest'⟩, hoperand, h⟩ := Option.map_eq_some_iff.1 h
  cases h
  have hsuffix := Shrinks.many (hchar '!') s bangs middle hbangs
  rw [read_bangs_enclosed start hbangs, Option.bind_some,
    carries_operand ih (Nat.lt_of_le_of_lt hsuffix.length_le hlen) (apart.of_suffix hsuffix)
      (Trims.many .padded hbangs start) hoperand]
  rfl

theorem exists_of_read_sign {c : Connective} {m : Matcher Criterion} {s : List Char}
    {p : Criterion × List Char} (start : Text.skipSpace s = s)
    (h : (do padded (word c.token.toList); m : Matcher Criterion).read s = some p) :
    ∃ t, s = c.token.toList ++ t ∧ m.read (Text.skipSpace t) = some p := by
  rw [read_bind, read_padded, start] at h
  obtain ⟨q, hq, h⟩ := Option.bind_eq_some_iff.1 h
  obtain ⟨⟨u, t⟩, hword, hq⟩ := Option.map_eq_some_iff.1 hq
  cases hq
  exact ⟨t, eq_append_of_read_word hword, h⟩

/-- Induction over the operands behind the first. -/
theorem more_induct {c : Connective} {m : Matcher Criterion} (shrinks : m.Shrinks)
    (trims : m.Trims) {motive : List Char → List Criterion → List Char → Prop}
    (stop : ∀ s, Text.skipSpace s = s → motive s [] s)
    (operand : ∀ s b middle bs rest, m.read (Text.skipSpace s) = some (b, middle) →
      motive middle bs rest → motive (c.token.toList ++ s) (b :: bs) rest)
    {s rest : List Char} {bs : List Criterion} (start : Text.skipSpace s = s)
    (h : (more c m).read s = some (bs, rest)) : motive s bs rest := by
  refine many_induct (motive := fun s bs rest => Text.skipSpace s = s → motive s bs rest)
    (fun s _ => stop s) ?_ ?_ h start
  · intro s b middle bs rest hread progress ih start
    obtain ⟨t, rfl, hb⟩ := exists_of_read_sign start hread
    exact operand t b middle bs rest hb (ih (trims _ b middle hb))
  · intro s b rest hread stuck start
    obtain ⟨t, rfl, hb⟩ := exists_of_read_sign start hread
    have hleft := ((shrinks _ b rest hb).trans (Text.skipSpace_suffix t)).length_le
    refine absurd ?_ stuck
    rw [c.token_toList, List.length_append, List.length_cons]
    omega

theorem carries_more {n : Nat} {c : Connective} {m : Matcher Criterion} {marks : List Char}
    (hm : Carries w (c.mark :: marks) n m) (shrinks : m.Shrinks) (trims : m.Trims)
    (hc : c.mark ∉ marks) {s rest : List Char} {bs : List Criterion} (hlen : s.length < n)
    (apart : Apart s (closing w)) (start : Text.skipSpace s = s)
    (h : (more c m).read s = some (bs, rest)) (stop : ∀ d ∈ rest.head?, d ∈ marks) :
    (∀ d ∈ s.head?, d ∈ c.mark :: marks) ∧
      (more c m).read (enclosed w s) = some (bs, enclosed w rest) := by
  refine more_induct (motive := fun s bs rest => s.length < n → Apart s (closing w) →
    (∀ d ∈ rest.head?, d ∈ marks) → (∀ d ∈ s.head?, d ∈ c.mark :: marks) ∧
      (more c m).read (enclosed w s) = some (bs, enclosed w rest))
    shrinks trims ?_ ?_ start h hlen apart stop
  · intro s start _ _ stop
    refine ⟨fun d hd => List.mem_cons_of_mem _ (stop d hd), read_more_of_ne m ?_⟩
    rw [enclosed, Text.skipSpace_skipSpace, ← enclosed]
    cases s with
    | nil =>
        rintro d ⟨⟩
        cases c <;> decide
    | cons e t =>
        rw [enclosed_cons (isSpace_of_skipSpace_eq start)]
        rintro d ⟨⟩ rfl
        exact hc (stop _ rfl)
  · intro t b middle bs rest hread ih hlen apart stop
    have hoperand : Text.skipSpace t <:+ c.token.toList ++ t :=
      (Text.skipSpace_suffix t).trans (List.suffix_append _ t)
    have hmiddle : middle <:+ t := (shrinks _ b middle hread).trans (Text.skipSpace_suffix t)
    have hleft : middle <:+ c.token.toList ++ t := hmiddle.trans (List.suffix_append _ t)
    -- what is left behind this operand begins with a mark: the connective, or where the join stops
    obtain ⟨hmarks, hcarried⟩ :=
      ih (Nat.lt_of_le_of_lt hleft.length_le hlen) (apart.of_suffix hleft) stop
    have hfirst := hm _ b middle (Nat.lt_of_le_of_lt hoperand.length_le hlen)
      (apart.of_suffix hoperand) (Text.skipSpace_skipSpace t) hread hmarks
    rw [enclosed_skipSpace, enclosed] at hfirst
    have hle : (enclosed w middle).length ≤ (t ++ closing w).length := by
      have hskip := (Text.skipSpace_suffix (middle ++ closing w)).length_le
      rw [List.length_append] at hskip ⊢
      exact hskip.trans (Nat.add_le_add_right hmiddle.length_le _)
    have htext : enclosed w (c.token.toList ++ t) = c.token.toList ++ (t ++ closing w) := by
      cases c <;> rfl
    rw [htext, read_more_token hfirst hle, hcarried, c.token_toList]
    refine ⟨?_, rfl⟩
    rintro d ⟨⟩
    exact List.mem_cons_self

theorem carries_joined {n : Nat} {c : Connective} {m : Matcher Criterion} {marks : List Char}
    (hm : Carries w (c.mark :: marks) n m) (shrinks : m.Shrinks) (trims : m.Trims)
    (hc : c.mark ∉ marks) : Carries w marks n (joined c m) := by
  intro s a rest hlen apart start h stop
  rw [read_joined_eq] at h ⊢
  obtain ⟨⟨first, middle⟩, hfirst, h⟩ := Option.bind_eq_some_iff.1 h
  obtain ⟨⟨more, rest'⟩, hmore, h⟩ := Option.map_eq_some_iff.1 h
  cases h
  have hsuffix := shrinks s first middle hfirst
  obtain ⟨hmarks, hcarried⟩ := carries_more hm shrinks trims hc
    (Nat.lt_of_le_of_lt hsuffix.length_le hlen) (apart.of_suffix hsuffix)
    (trims s first middle hfirst) hmore stop
  rw [hm s first middle hlen apart start hfirst hmarks, Option.bind_some, hcarried]
  rfl

theorem carries_disjunction (n : Nat) : Carries w [')'] n disjunction := by
  -- a group is shorter than the text it stands in, and only groups refer back to the disjunction
  induction n with
  | zero => exact fun s a rest hlen => absurd hlen (Nat.not_lt_zero _)
  | succ n ih =>
      have hnegation : (negation disjunction).Shrinks :=
        shrinks_negation guarded_disjunction.shrinks
      have hconjunction : Carries w ['|', ')'] (n + 1) (conjunction disjunction) :=
        carries_joined (c := .and) (carries_negation ih _) hnegation (trims_negation _) (by decide)
      rw [disjunction_eq]
      exact carries_joined (c := .or) hconjunction (shrinks_joined .and hnegation)
        (trims_joined .and (trims_negation _)) (by decide)

/-- What is read from a whole text is read from it in parentheses. -/
theorem read_group_of_read_criteria {s : List Char} {a : Criterion}
    (h : criteria.read s = some (a, [])) (apart : Apart s (closing w)) :
    (group disjunction).read ('(' :: ' ' :: (s ++ closing w)) = some (a, Text.skipSpace w) := by
  rw [criteria, read_padded] at h
  obtain ⟨⟨b, rest⟩, hread, h⟩ := Option.map_eq_some_iff.1 h
  obtain ⟨rfl, hrest⟩ := Prod.mk.inj h
  obtain rfl : rest = [] := (trims_disjunction _ b rest hread).symm.trans hrest
  have hcarried := carries_disjunction (w := w) _ _ b [] (Nat.lt_succ_self _)
    (apart.of_suffix (Text.skipSpace_suffix s)) (Text.skipSpace_skipSpace s) hread nofun
  rw [read_group_paren, Text.skipSpace_blank, ← enclosed, ← enclosed_skipSpace,
    hcarried, Option.bind_some, enclosed_nil, read_padded_char (by decide), Option.map_some]

end EventQuery.Grammar
