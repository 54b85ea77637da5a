import EventQuery.Proofs.Grammar.Enclosure
import EventQuery.Proofs.Grammar.ViableLexemes

/-!
# Failures in criteria

One character decides how a criterion goes on: the signs of an index, of a longer path, of an
operator, of the two connectives and of a closing parenthesis are all different, and so are those of
a negation, of a group and of a path. The constructs of the grammar are therefore viable together
with all that may come behind them.

The disjunction of a group is read behind a parenthesis. So what is known of disjunctions on shorter
texts is enough for the ones on longer texts.
-/

namespace EventQuery.Grammar

open Matcher

variable {β : Type} {n : Nat} {F : Char → Prop}

/-! ## Paths -/

theorem viable_indexBody {k : Index → Matcher β} (hk : ∀ i, Viable n (· = ')') (k i)) :
    Viable n (fun c => (c = '-' ∨ c.isDigit = true) ∨ isQuote c ∨ c = '*')
      (indexBody >>= k) := by
  have hinteger : Viable n (fun c => c = '-' ∨ c.isDigit = true)
      ((integer >>= fun i => Pure.pure (.position i)) >>= k) := by
    simp only [bind_assoc, pure_bind]
    refine viable_integer ?_ fun i => hk (.position i)
    rintro c rfl
    decide
  have hkey : Viable n isQuote ((quotedString >>= fun s => Pure.pure (.key s)) >>= k) := by
    simp only [bind_assoc, pure_bind]
    exact (viable_quotedString fun s => hk (.key s)).le (Nat.le_succ n)
  have hany : Viable n (· = '*') ((char '*' >>= fun _ => Pure.pure .any) >>= k) := by
    simp only [bind_assoc, pure_bind]
    exact (Viable.char (by decide) (hk .any)).le (Nat.le_succ n)
  have hrest := hkey.choose_heads hany (heads_quotedString.bind _)
    (by rintro c (rfl | rfl) <;> decide)
  rw [indexBody, orElse_bind, orElse_bind]
  refine hinteger.choose_heads hrest (heads_integer.bind _) ?_
  rintro c hc ((rfl | rfl) | rfl)
  · exact absurd hc (by decide)
  · exact absurd hc (by decide)
  · exact absurd hc (by decide)

theorem viable_index {k : Index → Matcher β} (hk : ∀ i, Viable n F (k i)) :
    Viable (n + 1) (· = '(') (index >>= k) := by
  have hindex : index >>= k = char '(' >>= fun _ => indexBody >>= fun i =>
      char ')' >>= fun _ => k i := by
    simp only [index, bind_assoc, pure_bind]
  rw [hindex]
  refine .char (by decide) (viable_indexBody fun i => ?_)
  exact (Viable.char (by decide) (hk i)).le (Nat.le_succ n)

theorem heads_index : Heads (· = '(') index := (Heads.char '(').bind _

theorem viable_segment {k : Segment → Matcher β} (names : ∀ c, F c → isNameChar c = false)
    (paren : ¬ F '(') (hk : ∀ s, Viable n F (k s)) :
    Viable (n + 1) (·.isAlpha = true) (segment >>= k) := by
  have hsegment : segment >>= k = fieldName >>= fun name =>
      choose index (fun i => k ⟨name, some i⟩) (k ⟨name, none⟩) := by
    simp only [segment, bind_assoc, pure_bind]
    simp only [optional_bind]
  have hindex : ∀ name, Viable n (fun c => c = '(' ∨ F c)
      (choose index (fun i => k ⟨name, some i⟩) (k ⟨name, none⟩)) := by
    intro name
    have hyes := (viable_index fun i => hk ⟨name, some i⟩).le (Nat.le_succ n)
    refine hyes.choose_heads (hk ⟨name, none⟩) heads_index ?_
    rintro c rfl
    exact paren
  rw [hsegment]
  refine viable_fieldName ?_ hindex
  rintro c (rfl | hc)
  · decide
  · exact names c hc

theorem heads_segment : Heads (·.isAlpha = true) segment := heads_fieldName.bind _

/-- What may come behind a path, apart from more of it. -/
def pathMarks : List Char := operatorMarks ++ operandMarks

theorem isNameChar_of_mem_pathMarks : ∀ c ∈ pathMarks, isNameChar c = false :=
  List.all_iff_forall_prop.1 (by decide)

theorem isSpace_of_mem_pathMarks : ∀ c ∈ pathMarks, Text.isSpace c = false :=
  List.all_iff_forall_prop.1 (by decide)

theorem isReserved_of_mem_operandMarks : ∀ c ∈ operandMarks, isReserved c = true :=
  List.all_iff_forall_prop.1 (by decide)

theorem not_mem_operandMarks_of_mem_operatorMarks : ∀ c ∈ operatorMarks, c ∉ operandMarks :=
  List.all_iff_forall_prop.1 (by decide)

theorem viable_path {k : Path → Matcher β} (hk : ∀ p, Viable n (· ∈ pathMarks) (k p)) :
    Viable (n + 1) (·.isAlpha = true) (path >>= k) := by
  have hheads : Heads (· = '.') (char '.' >>= fun _ => segment) := (Heads.char '.').bind _
  have hdot : ∀ c, c = '.' → Text.isSpace c = false := by
    rintro c rfl
    decide
  have hadvances : (char '.' >>= fun _ => segment).Advances :=
    .bind (.oneOf _) fun _ => shrinks_segment
  have hsegment : ∀ {j} {γ : Type} {l : Segment → Matcher γ},
      (∀ s, Viable j (fun c => c = '.' ∨ c ∈ pathMarks) (l s)) →
      Viable (j + 1) (·.isAlpha = true) (segment >>= l) := by
    intro j γ l hl
    refine viable_segment ?_ (by decide) hl
    rintro c (rfl | hc)
    · decide
    · exact isNameChar_of_mem_pathMarks c hc
  have hmore : ∀ first, Viable n (fun c => c = '.' ∨ c ∈ pathMarks)
      (many (char '.' >>= fun _ => segment) >>= fun more => k ⟨first :: more, by simp⟩) := by
    intro first
    refine .many_heads hadvances hheads hdot ?_ (fun j _ yes hyes => ?_) fun more => hk _
    · rintro c rfl
      decide
    · rw [bind_assoc]
      exact .char (by decide) ((hsegment hyes).le (Nat.le_succ j))
  have hpath : path >>= k = segment >>= fun first =>
      many (char '.' >>= fun _ => segment) >>= fun more => k ⟨first :: more, by simp⟩ := by
    rw [path, bind_assoc]
    exact congrArg (segment >>= ·) (funext fun first => bind_pure_bind _ _ k)
  rw [hpath]
  exact hsegment hmore

theorem heads_path : Heads (·.isAlpha = true) path := heads_segment.bind _

/-! ## Comparisons -/

/-- An operator and its operand. -/
def comparisonTest : Matcher (Comparison × Value) := do
  let c ← padded comparisonOperator
  let v ← operand
  return (c, v)

/-- An operator behind white space. -/
theorem comparisonTest_eq : comparisonTest = space >>= fun _ => comparisonOperator >>= fun c =>
    space >>= fun _ => operand >>= fun v => Pure.pure (c, v) := by
  simp only [comparisonTest, padded, bind_assoc, pure_bind]

theorem viable_comparison {k : Criterion → Matcher β}
    (hk : ∀ a, Viable n (· ∈ operandMarks) (k a)) :
    Viable (n + 1) (·.isAlpha = true) (comparison >>= k) := by
  have hcomparison : comparison >>= k = path >>= fun p => choose comparisonTest
      (fun t => k (.leaf ⟨p, .comparison t.1, some t.2⟩)) (k (.leaf (.present p))) := by
    rw [comparison, bind_assoc]
    refine congrArg (path >>= ·) (funext fun p => ?_)
    exact (bind_pure_bind (optional comparisonTest) _ k).trans (optional_bind comparisonTest _)
  have htest : ∀ p, Viable n (· ∈ pathMarks) (choose comparisonTest
      (fun t => k (.leaf ⟨p, .comparison t.1, some t.2⟩)) (k (.leaf (.present p)))) := by
    intro p
    have hoperand : ∀ c, Viable n isOrdinary
        (operand >>= fun v => k (.leaf ⟨p, .comparison c, some v⟩)) := fun c =>
      viable_operand isReserved_of_mem_operandMarks fun v => hk _
    have hyes : Viable n (· ∈ operatorMarks) ((comparisonOperator >>= fun c =>
        space >>= fun _ => operand >>= fun v => Pure.pure (c, v)) >>=
        fun t => k (.leaf ⟨p, .comparison t.1, some t.2⟩)) := by
      simp only [bind_assoc, pure_bind]
      exact (viable_comparisonOperator fun c => (hoperand c).space).le (Nat.le_succ n)
    rw [comparisonTest_eq]
    refine (hyes.choose_space (hk _) (heads_comparisonOperator.bind _)
      not_mem_operandMarks_of_mem_operatorMarks).mono ?_ isSpace_of_mem_pathMarks
    exact fun c hc => List.mem_append.2 hc
  rw [hcomparison]
  exact viable_path htest

theorem heads_comparison : Heads (·.isAlpha = true) comparison := heads_path.bind _

/-! ## Operands -/

section Operands

variable {inner : Matcher Criterion} {k : Criterion → Matcher β}

/-- The characters that a criterion may begin with. -/
def isStart (c : Char) : Prop := c = '!' ∨ c = '(' ∨ c.isAlpha = true

theorem isSpace_of_isStart {c : Char} (h : isStart c) : Text.isSpace c = false := by
  rcases h with rfl | rfl | h
  · decide
  · decide
  · exact Text.isSpace_of_isAlpha h

/-- With everything that may come behind a closing parenthesis the matcher is viable. -/
def ViableInside (n : Nat) (inner : Matcher Criterion) : Prop :=
  ∀ {γ : Type} (k : Criterion → Matcher γ), (∀ a, Viable n (· = ')') (k a)) →
    Viable n isStart (inner >>= k)

/-- A group without the white space in front of it. -/
def groupBody (inner : Matcher Criterion) : Matcher Criterion := do
  let _ ← char '('
  space
  let a ← inner
  let _ ← padded (char ')')
  return a

theorem group_eq (inner : Matcher Criterion) :
    group inner = space >>= fun _ => groupBody inner := by
  simp only [group, groupBody, padded, bind_assoc, pure_bind]

theorem heads_groupBody (inner : Matcher Criterion) : Heads (· = '(') (groupBody inner) :=
  (Heads.char '(').bind _

theorem viable_groupBody (hinner : ViableInside n inner) (hk : ∀ a, Viable n F (k a)) :
    Viable (n + 1) (· = '(') (groupBody inner >>= k) := by
  have hgroup : groupBody inner >>= k = char '(' >>= fun _ => space >>= fun _ => inner >>=
      fun a => padded (char ')') >>= fun _ => k a := by
    simp only [groupBody, bind_assoc, pure_bind]
  rw [hgroup]
  refine .char (by decide) (.space (hinner _ fun a => .padded ?_))
  exact (Viable.char (by decide) (hk a).space).le (Nat.le_succ n)

theorem viable_operandAlternatives (hinner : ViableInside n inner)
    (hk : ∀ a, Viable n (· ∈ operandMarks) (k a)) :
    Viable (n + 1) (fun c => c = '(' ∨ c.isAlpha = true)
      ((group inner <|> comparison) >>= k) := by
  rw [orElse_bind, group_eq]
  refine (viable_groupBody hinner hk).choose_space (viable_comparison hk) (heads_groupBody inner) ?_
  rintro c rfl
  decide

/-- An exclamation mark and the white space behind it. -/
def bangBody : Matcher Char := do
  let c ← char '!'
  space
  return c

theorem padded_bang : padded (char '!') = space >>= fun _ => bangBody := rfl

theorem viable_negation (hinner : ViableInside n inner)
    (hk : ∀ a, Viable n (· ∈ operandMarks) (k a)) :
    Viable (n + 1) isStart (negation inner >>= k) := by
  have hnegation : negation inner >>= k = many (space >>= fun _ => bangBody) >>= fun bangs =>
      padded (group inner <|> comparison) >>= fun a =>
        k (if bangs.length % 2 = 1 then a.negate else a) := by
    rw [negation, padded_bang]
    refine (bind_assoc (m := Matcher) (many (space >>= fun _ => bangBody)) _ k).trans ?_
    exact congrArg (Bind.bind (m := Matcher) (many (space >>= fun _ => bangBody)))
      (funext fun bangs => bind_pure_bind _ _ k)
  have hbang : ∀ c, c = '!' → Text.isSpace c = false := by
    rintro c rfl
    decide
  rw [hnegation]
  refine .many_space (Advances.padded (.oneOf _)) ((Heads.char '!').bind _) hbang ?_
    (fun j _ yes hyes => ?_) fun bangs => ?_
  · rintro c rfl
    decide
  · rw [bangBody, bind_assoc]
    simp only [bind_assoc, pure_bind]
    exact .char (by decide) (hyes '!').space
  · exact .padded (viable_operandAlternatives hinner fun a => (hk _).space)

/-- Joined operands begin as the first of them does and end where they do, apart from the mark of
the connective. -/
theorem viable_joined {c : Connective} {m : Matcher Criterion} {H : Char → Prop}
    (hm : ∀ j ≤ n, ∀ {γ : Type} (l : Criterion → Matcher γ),
      (∀ a, Viable j (fun d => d = c.mark ∨ F d) (l a)) → Viable (j + 1) H (m >>= l))
    (shrinks : m.Shrinks) (apart : ¬ F c.mark) (hk : ∀ a, Viable n F (k a)) :
    Viable (n + 1) H (joined c m >>= k) := by
  have hround : (do padded (word c.token.toList); m : Matcher Criterion) =
      space >>= fun _ => word [c.mark, c.mark] >>= fun _ => space >>= fun _ => m := by
    rw [c.token_toList]
    simp only [padded, bind_assoc, pure_bind]
  have hjoined : joined c m >>= k = m >>= fun first =>
      many (space >>= fun _ => word [c.mark, c.mark] >>= fun _ => space >>= fun _ => m) >>=
        fun more => k (more.foldl (Criterion.combine c) first) := by
    rw [joined, bind_assoc, hround]
    exact congrArg (m >>= ·) (funext fun first => bind_pure_bind _ _ k)
  have hmark : Text.isSpace c.mark = false := by
    cases c <;> rfl
  have hadvances : (space >>= fun _ => word [c.mark, c.mark] >>= fun _ => space >>= fun _ =>
      m).Advances := by
    have hword : (word c.token.toList).Advances := by
      rw [c.token_toList]
      exact .bind (.oneOf _) fun _ => .word _
    rw [← hround]
    exact .bind (.padded hword) fun _ => shrinks
  rw [hjoined]
  refine hm n (Nat.le_refl n) _ fun first => ?_
  refine .many_space hadvances ((Heads.word c.mark [c.mark]).bind _) ?_ ?_
    (fun j hj yes hyes => ?_) fun more => hk _
  · rintro d rfl
    exact hmark
  · rintro d rfl
    exact apart
  · simp only [bind_assoc]
    refine .word ?_ ((hm j hj yes hyes).le (Nat.le_succ j)).space
    exact List.forall_mem_cons.2 ⟨hmark, List.forall_mem_singleton.2 hmark⟩

end Operands

/-! ## Disjunctions -/

theorem idle_negation (inner : Matcher Criterion) : Idle isStart (negation inner) := by
  have hbang : Idle (· = '!') (padded (char '!')) := by
    rw [padded_bang]
    exact (((Heads.char '!').bind _).idle fun c hc => isSpace_of_isStart (Or.inl hc)).space
  have hgroup : Idle (· = '(') (group inner) := by
    rw [group_eq]
    exact ((heads_groupBody inner).idle fun c hc => isSpace_of_isStart (Or.inr (Or.inl hc))).space
  have hcomparison : Idle (·.isAlpha = true) comparison :=
    heads_comparison.idle fun c hc => isSpace_of_isStart (Or.inr (Or.inr hc))
  have hnegation : negation inner = choose (padded (char '!')) _ _ :=
    many_bind (Advances.padded (.oneOf _)) _
  rw [hnegation]
  exact hbang.choose (((hgroup.orElse hcomparison).bind _).space.bind _)

/-- A path alone is a disjunction, at the end of the text and before a closing parenthesis. -/
theorem exists_read_disjunction :
    ∃ a, ∀ w, (∀ c ∈ w.head?, c = ')') → disjunction.read ('a' :: w) = some (a, w) := by
  have hreads := reads_operand (reads_presence (p := .single "a") (by decide)).1
  refine ⟨.leaf (.present (.single "a")), fun w hw => ?_⟩
  have hspace : Text.skipSpace w = w := Text.skipSpace_of_head fun c hc => by
    rw [hw c hc]
    decide
  have hfollows : Follows [')'] w := by
    refine ⟨fun c hc => Or.inr (hw c hc), fun c hc => ?_⟩
    rw [hspace] at hc
    exact List.mem_singleton.2 (hw c hc)
  have hread := hreads.read w hfollows
  rw [hspace] at hread
  exact hread

theorem viableInside_disjunction (n : Nat) : ViableInside n disjunction := by
  induction n using Nat.strongRecOn with
  | _ n ih =>
      intro γ k hk
      cases n with
      | zero =>
          refine ⟨fun c hc => isSpace_of_isStart hc, ?_, ?_,
            fun s hs => absurd hs (Nat.not_lt_zero _)⟩
          · obtain ⟨a, ha⟩ := exists_read_disjunction
            obtain ⟨w, hw, p, hp⟩ := (hk a).starts
            refine ⟨'a' :: w, ?_, p, (read_bind_of_some (ha w hw)).trans hp⟩
            rintro _ ⟨⟩
            exact Or.inr (Or.inr (by decide))
          · rw [disjunction_eq]
            exact (((idle_negation disjunction).bind _).bind _).bind _
      | succ n =>
          have hshrinks : (negation disjunction).Shrinks :=
            shrinks_negation guarded_disjunction.shrinks
          have hnegation : ∀ j ≤ n, ∀ {γ : Type} (l : Criterion → Matcher γ),
              (∀ a, Viable j (fun d => d = '&' ∨ d = '|' ∨ d = ')') (l a)) →
              Viable (j + 1) isStart (negation disjunction >>= l) := fun j hj γ l hl =>
            viable_negation (ih j (Nat.lt_succ_of_le hj)) fun a =>
              (hl a).mono (by simp [operandMarks]) fun c hc =>
                isSpace_of_mem_pathMarks c (List.mem_append_right operatorMarks hc)
          rw [disjunction_eq]
          refine viable_joined (c := .or) (F := (· = ')')) (fun j hj γ l hl => ?_)
            (shrinks_joined .and hshrinks) (by decide) fun a => (hk a).le (Nat.le_succ n)
          refine viable_joined (c := .and) (F := fun d => d = '|' ∨ d = ')')
            (fun i hi => hnegation i (hi.trans hj)) hshrinks (by decide) hl

/-- A whole text that is no criterion fails behind what can be completed to one. -/
theorem viable_criteria (n : Nat) :
    Viable n isStart (do let a ← criteria; finish; return a : Matcher Criterion) := by
  refine Viable.padded (viableInside_disjunction n _ fun a => Viable.space (.finish ?_ ⟨_, rfl⟩))
  rintro c rfl
  decide

end EventQuery.Grammar
