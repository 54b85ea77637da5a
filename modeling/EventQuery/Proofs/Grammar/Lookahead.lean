import EventQuery.Proofs.Grammar.Comparison

/-!
# What follows a text

A choice of the grammar may look at what follows: lexemes are as long as they can be, and a quoted
string runs to a closing mark however far away. Yet a space and a closing parenthesis behind a text
change nothing of what lexemes, paths and comparisons read from it, provided that no quotation mark
opens in the text and closes behind it. A matcher to which they make no difference is `Blind` to
them, and so is what is composed of blind matchers.
-/

namespace EventQuery.Grammar

/-- What stands behind a text in parentheses: a space, a closing parenthesis, and any text. -/
def closing (w : List Char) : List Char := ' ' :: ')' :: w

/-- One of the texts has no quotation marks, so that no string runs from the first into the
second. -/
def Apart (s u : List Char) : Prop :=
  (∀ c ∈ s, c ≠ '"' ∧ c ≠ '\'') ∨ ∀ c ∈ u, c ≠ '"' ∧ c ≠ '\''

theorem Apart.of_suffix {s t u : List Char} (h : Apart s u) (hts : t <:+ s) : Apart t u :=
  h.imp_left fun hs c hc => hs c (hts.mem hc)

namespace Matcher

variable {α β : Type} {w : List Char}

/-- The matcher reads the same from a text with a closing parenthesis behind it. -/
structure Blind (w : List Char) (m : Matcher α) : Prop where
  shrinks : m.Shrinks
  read : ∀ s, Apart s (closing w) →
    m.read (s ++ closing w) = (m.read s).map fun p => (p.1, p.2 ++ closing w)

namespace Blind

section Composition

variable {m k : Matcher α} {f : α → Matcher β}

theorem pure (a : α) : Blind w (Pure.pure a : Matcher α) := ⟨.pure a, fun _ _ => rfl⟩

theorem bind (hm : Blind w m) (hf : ∀ a, Blind w (f a)) : Blind w (m >>= f) := by
  refine ⟨.bind hm.shrinks fun a => (hf a).shrinks, fun s hs => ?_⟩
  rw [read_bind, read_bind, hm.read s hs]
  cases hread : m.read s with
  | none => rfl
  | some p => exact (hf p.1).read p.2 (hs.of_suffix (hm.shrinks s p.1 p.2 hread))

theorem orElse (hm : Blind w m) (hk : Blind w k) : Blind w (m <|> k) := by
  refine ⟨.orElse hm.shrinks hk.shrinks, fun s hs => ?_⟩
  rw [read_orElse, read_orElse, hm.read s hs, hk.read s hs]
  cases m.read s <;> rfl

theorem optional (hm : Blind w m) : Blind w (optional m) := by
  refine ⟨.optional hm.shrinks, fun s hs => ?_⟩
  rw [read_optional, read_optional, hm.read s hs]
  cases m.read s <;> rfl

theorem checked (hm : Blind w m) (check : α → Except SyntaxFault β) :
    Blind w (checked m check) := by
  refine ⟨.checked hm.shrinks check, fun s hs => ?_⟩
  rw [read_checked, read_checked, hm.read s hs]
  cases m.read s with
  | none => rfl
  | some p =>
      simp only [Option.map_some, Option.bind_some]
      cases check p.1 <;> rfl

theorem many (hm : Blind w m) : Blind w (many m : Matcher (List α)) := by
  refine ⟨.many hm.shrinks, fun s hs => ?_⟩
  obtain ⟨as, rest, h⟩ := exists_read_many m s
  rw [h, Option.map_some]
  refine many_induct (motive := fun s as rest => Apart s (closing w) →
    Matcher.read (Matcher.many m) (s ++ closing w) = some (as, rest ++ closing w)) ?_ ?_ ?_ h hs
  · intro s hread hs
    exact read_many_of_none (by rw [hm.read s hs, hread, Option.map_none])
  · intro s a middle as rest hread progress ih hs
    have hround := hm.read s hs
    rw [hread, Option.map_some] at hround
    rw [read_many_of_some hround (by simpa using progress),
      ih (hs.of_suffix (hm.shrinks s a middle hread)), Option.map_some]
  · intro s a rest hread progress hs
    have hround := hm.read s hs
    rw [hread, Option.map_some] at hround
    exact read_many_of_not_lt hround (by simpa using progress)

end Composition

/-! ## Characters -/

theorem oneOf {p : Char → Bool} (h : p ' ' = false) : Blind w (oneOf p) := by
  refine ⟨.oneOf p, fun s _ => ?_⟩
  cases s with
  | nil => rw [List.nil_append, closing, read_oneOf_cons, if_neg (by rw [h]; exact nofun)]; rfl
  | cons c s =>
      rw [List.cons_append, read_oneOf_cons, read_oneOf_cons]
      split <;> rfl

theorem word {cs : List Char} (h : ' ' ∉ cs) : Blind w (word cs) := by
  induction cs with
  | nil => exact .pure ()
  | cons c cs ih =>
      obtain ⟨hc, hcs⟩ := not_or.1 (mt List.mem_cons.2 h)
      exact .bind (.oneOf (by simpa using hc)) fun _ => ih hcs

theorem run0 {p : Char → Bool} (h : p ' ' = false) : Blind w (run0 p) := by
  have hsplit : ∀ s, (s ++ closing w).takeWhile p = s.takeWhile p ∧
      (s ++ closing w).dropWhile p = s.dropWhile p ++ closing w := by
    intro s
    induction s with
    | nil => simp [closing, h]
    | cons c s ih => by_cases hc : p c = true <;> simp [hc, ih]
  refine ⟨.run0 p, fun s _ => ?_⟩
  rw [read_run0, read_run0, (hsplit s).1, (hsplit s).2, Option.map_some]

theorem run1 {p : Char → Bool} (h : p ' ' = false) : Blind w (run1 p) :=
  .bind (.oneOf h) fun _ => .bind (.run0 h) fun _ => .pure _

end Blind

end Matcher

open Matcher

variable {w : List Char}

/-! ## Lexemes -/

theorem blind_fieldName : Blind w fieldName :=
  .bind (.oneOf (by decide)) fun _ => .bind (.run0 (by decide)) fun _ => .pure _

theorem blind_integer : Blind w integer :=
  .checked (.bind (.optional (.oneOf (by decide))) fun _ =>
    .bind (.run1 (by decide)) fun _ => .pure _) _

theorem quotedBody_eq_none {q : Char} {s : List Char} (h : q ∉ s) :
    (quotedBody q s).result = none := by
  fun_induction quotedBody q s with
  | case1 => rfl
  | case2 => exact absurd List.mem_cons_self h
  | case3 => rfl
  | case4 d s o kept _ ih =>
      have hs : q ∉ s := fun hq => h (List.mem_cons_of_mem _ (List.mem_cons_of_mem d hq))
      exact Option.map_eq_none_iff.2 (ih hs)
  | case5 c s _ _ o ih =>
      exact Option.map_eq_none_iff.2 (ih fun hq => h (List.mem_cons_of_mem c hq))

/-- A string that does not close in a text does not close in what has no such mark. -/
theorem quotedBody_append {q : Char} {u : List Char} (h : q ∉ u) (s : List Char) :
    (quotedBody q (s ++ u)).result =
      (quotedBody q s).result.map fun p => (p.1, p.2 ++ u) := by
  fun_induction quotedBody q s with
  | case1 => exact quotedBody_eq_none h
  | case2 s => rw [List.cons_append, quotedBody.eq_def]; simp
  | case3 hq =>
      cases u with
      | nil => simp [quotedBody.eq_def, hq]
      | cons d u =>
          have hu : q ∉ u := fun hu => h (List.mem_cons_of_mem d hu)
          rw [List.singleton_append, quotedBody.eq_def]
          simp [hq, quotedBody_eq_none hu]
  | case4 d s _ _ hq ih =>
      rw [List.cons_append, List.cons_append, quotedBody.eq_def]
      simp only [hq, if_false, if_true, ih, Option.map_map]
      rfl
  | case5 c s hq hc _ ih =>
      rw [List.cons_append, quotedBody.eq_def]
      simp only [hq, hc, if_false, ih, Option.map_map]
      rfl

theorem blind_quotedBy {q : Char} (space : (' ' == q) = false) (h : q ∉ closing w) :
    Blind w (quotedBy q) :=
  .bind (.oneOf space) fun _ =>
    .bind ⟨shrinks_quotedBody q, fun s _ => quotedBody_append h s⟩ fun _ => .pure _

theorem blind_quotedString : Blind w quotedString := by
  refine ⟨shrinks_quotedString, fun s hs => ?_⟩
  rcases hs with hs | hw
  -- no string begins in the text, with or without what follows
  · have hunquoted : (∀ c ∈ s.head?, c ≠ '"' ∧ c ≠ '\'') ∧
        ∀ c ∈ (s ++ closing w).head?, c ≠ '"' ∧ c ≠ '\'' := by
      cases s with
      | nil =>
          refine ⟨nofun, ?_⟩
          rintro c ⟨⟩
          decide
      | cons d s =>
          have hd := hs d List.mem_cons_self
          constructor <;> (rintro c ⟨⟩; exact hd)
    rw [read_quotedString_eq_none hunquoted.1, read_quotedString_eq_none hunquoted.2,
      Option.map_none]
  -- a string may begin in the text, but finds no closing mark behind it
  · have hdouble := blind_quotedBy (q := '"') (by decide) fun h => (hw _ h).1 rfl
    have hsingle := blind_quotedBy (q := '\'') (by decide) fun h => (hw _ h).2 rfl
    exact (hdouble.orElse hsingle).read s (Or.inr hw)

/-! ## Paths -/

theorem blind_index : Blind w index := by
  have hbody : Blind w indexBody :=
    .orElse (.bind blind_integer fun _ => .pure _)
      (.orElse (.bind blind_quotedString fun _ => .pure _)
        (.bind (.oneOf (by decide)) fun _ => .pure _))
  exact .bind (.oneOf (by decide)) fun _ => .bind hbody fun _ =>
    .bind (.oneOf (by decide)) fun _ => .pure _

theorem blind_path : Blind w path := by
  have hsegment : Blind w segment :=
    .bind blind_fieldName fun _ => .bind (.optional blind_index) fun _ => .pure _
  exact .bind hsegment fun _ =>
    .bind (.many (.bind (.oneOf (by decide)) fun _ => hsegment)) fun _ => .pure _

/-! ## Comparisons -/

theorem blind_comparisonOperator : Blind w comparisonOperator := by
  have hspellings : ∀ t ∈ Comparison.spellings, ' ' ∉ t.1.toList := by decide
  unfold comparisonOperator
  extract_lets spelled
  generalize Comparison.spellings = ts at hspellings
  induction ts with
  | nil => exact ⟨nofun, fun _ _ => rfl⟩
  | cons t ts ih =>
      exact .orElse (.bind (.word (hspellings t List.mem_cons_self)) fun _ => .pure _)
        (ih fun u hu => hspellings u (List.mem_cons_of_mem t hu))

theorem bareBody_append_closing (s : List Char) :
    bareBody (s ++ closing w) = ((bareBody s).1, (bareBody s).2 ++ closing w) := by
  have hstop : bareBody (closing w) = ([], closing w) := bareBody_of_stop (by decide) _
  fun_induction bareBody s with
  | case1 => exact hstop
  | case2 c s hc => rw [List.cons_append, bareBody_of_stop hc]
  | case3 d t hd body rest heq _ ih =>
      rw [List.cons_append, List.cons_append, bareBody_escaped hd, ih, heq]
  | case4 d t hd body rest heq hslash ih =>
      rw [List.cons_append, bareBody_of_plain (Bool.eq_false_iff.2 hslash), ih, heq]
      rintro - _ ⟨⟩
      exact Bool.eq_false_iff.2 hd
  | case5 c s alone body rest heq hc ih =>
      rw [List.cons_append, bareBody_of_plain (Bool.eq_false_iff.2 hc), ih, heq]
      intro hslash d hd
      cases s with
      | nil =>
          cases hd
          decide
      | cons e s => exact (alone e s hslash rfl).elim

theorem blind_operand : Blind w operand := by
  have hbare : Blind w bareValue := by
    refine ⟨shrinks_bareValue, fun s _ => ?_⟩
    rw [read_bareValue, read_bareValue, bareBody_append_closing]
    split <;> rfl
  exact .bind (.orElse blind_quotedString hbare) fun _ => .pure _

/-! ## White space -/

/-- A text with a closing parenthesis behind it, from its first character that is not white
space. -/
def enclosed (w s : List Char) : List Char := Text.skipSpace (s ++ closing w)

theorem enclosed_nil : enclosed w [] = ')' :: w := rfl

theorem enclosed_cons {c : Char} (h : Text.isSpace c = false) (s : List Char) :
    enclosed w (c :: s) = c :: (s ++ closing w) := Text.skipSpace_cons_self h _

theorem enclosed_skipSpace (s : List Char) : enclosed w (Text.skipSpace s) = enclosed w s := by
  induction s with
  | nil => rfl
  | cons c s ih =>
      rw [Text.skipSpace_cons]
      split
      · rename_i hc
        rw [ih, enclosed, enclosed, List.cons_append, Text.skipSpace_cons, if_pos hc]
      · rfl

/-- The matcher reads nothing where a text ends or a parenthesis closes it. -/
structure Stops (w : List Char) (m : Matcher α) : Prop where
  nil : m.read [] = none
  close : m.read (')' :: w) = none

theorem Matcher.Blind.read_enclosed {m : Matcher α} (hm : Blind w m) (stop : Stops w m)
    {s : List Char} (hs : Apart s (closing w)) :
    m.read (enclosed w s) = (m.read (Text.skipSpace s)).map fun p => (p.1, p.2 ++ closing w) := by
  rw [← enclosed_skipSpace]
  have hspace := Text.isSpace_head_skipSpace s
  have happart := hs.of_suffix (Text.skipSpace_suffix s)
  cases hskip : Text.skipSpace s with
  | nil => rw [enclosed_nil, stop.close, stop.nil, Option.map_none]
  | cons c t =>
      rw [hskip] at hspace happart
      rw [enclosed_cons (hspace c rfl), ← List.cons_append, hm.read _ happart]

/-- White space between two matchers makes no difference when neither can read what closes. -/
theorem Matcher.Blind.padded_bind {m : Matcher α} {f : α → Matcher β} (hm : Blind w m)
    (stop : Stops w m) (hf : ∀ a, Blind w (f a)) (stops : ∀ a, Stops w (f a)) :
    Blind w (padded m >>= f) := by
  refine ⟨.bind (.padded hm.shrinks) fun a => (hf a).shrinks, fun s hs => ?_⟩
  have hfirst : (padded m).read (s ++ closing w) =
      (m.read (Text.skipSpace s)).map fun p => (p.1, enclosed w p.2) := by
    rw [read_padded, ← enclosed, hm.read_enclosed stop hs, Option.map_map]
    rfl
  rw [read_bind, read_bind, hfirst, read_padded]
  cases hread : m.read (Text.skipSpace s) with
  | none => rfl
  | some p =>
      have hrest := (hm.shrinks _ p.1 p.2 hread).trans (Text.skipSpace_suffix s)
      exact (hf p.1).read_enclosed (stops p.1) (hs.of_suffix hrest)

theorem blind_comparison : Blind w comparison := by
  have hoperator : Stops w comparisonOperator :=
    ⟨rfl, read_comparisonOperator_eq_none (by rintro c ⟨⟩; exact Or.inr (Or.inr rfl))⟩
  have hoperand : ∀ c : Comparison,
      Stops w (do let v ← operand; return (c, v) : Matcher (Comparison × Value)) :=
    fun _ => ⟨rfl, rfl⟩
  exact .bind blind_path fun _ => .bind (.optional (.padded_bind blind_comparisonOperator hoperator
    (fun _ => .bind blind_operand fun _ => .pure _) hoperand)) fun _ => .pure _

end EventQuery.Grammar
