import EventQuery.Proofs.Grammar.Recursion

/-!
# Failures and alternatives

The choice of the furthest failure is associative, so that matchers obey the laws of a monad: a
sequence can be read as its first matcher and all that comes after it. Seen in this way an optional
match, a choice and a repetition all come down to one alternative, `choose`: one way to go on where
a matcher succeeds, and another where it fails.

A matcher is known by its heads, the characters it may begin with: on any other text it fails at
once.
-/

namespace EventQuery.Grammar

theorem furthest_assoc (a b c : Option Failure) :
    furthest (furthest a b) c = furthest a (furthest b c) := by
  cases a with
  | none => simp
  | some a =>
      cases b with
      | none => simp
      | some b =>
          cases c with
          | none => simp
          | some c => grind [furthest]

/-- The furthest of two failures in one text lies where the one closer to the end does. -/
theorem exists_furthest_eq {f g : Failure} {s : List Char} (hf : f.rest <:+ s) (hg : g.rest <:+ s) :
    ∃ fault, furthest (some f) (some g) =
      some ⟨if g.rest.length < f.rest.length then g.rest else f.rest, fault⟩ := by
  obtain hlt | heq | hgt := Nat.lt_trichotomy g.rest.length f.rest.length
  · exact ⟨g.fault, by simp [furthest, hlt]⟩
  · have hrest : g.rest = f.rest :=
      (List.suffix_of_suffix_length_le hg hf (Nat.le_of_eq heq)).eq_of_length heq
    rw [furthest, heq, if_neg (Nat.lt_irrefl _), if_neg (Nat.lt_irrefl _),
      if_neg (Nat.lt_irrefl _)]
    split
    · exact ⟨g.fault, by rw [← hrest]⟩
    · exact ⟨f.fault, rfl⟩
  · exact ⟨f.fault, by simp [furthest, hgt, Nat.lt_asymm hgt]⟩

namespace Outcome

variable {α : Type}

theorem after_after (a b : Option Failure) (o : Outcome α) :
    (o.after b).after a = o.after (furthest a b) := by
  simp [after, furthest_assoc]

@[simp] theorem after_none (o : Outcome α) : o.after none = o := by
  simp [after]

/-- An earlier failure that is no closer to the end does not move the place of a later one. -/
theorem exists_after_eq {e f : Failure} (hf : f.rest <:+ e.rest) :
    ∃ fault, (⟨none, some f⟩ : Outcome α).after (some e) = ⟨none, some ⟨f.rest, fault⟩⟩ := by
  obtain ⟨fault, h⟩ := exists_furthest_eq (List.suffix_refl e.rest) hf
  refine ⟨fault, congrArg (Outcome.mk none) (h.trans ?_)⟩
  split
  · rfl
  · rename_i hle
    rw [hf.eq_of_length_le (Nat.not_lt.1 hle)]

/-- Two failures that are no nearer to the end than some place. -/
theorem exists_after_eq_of_le {k : Nat} {e f : Failure} (he : k ≤ e.rest.length)
    (hf : k ≤ f.rest.length) :
    ∃ g, (⟨none, some f⟩ : Outcome α).after (some e) = ⟨none, some g⟩ ∧ k ≤ g.rest.length := by
  obtain h | h : furthest (some e) (some f) = some e ∨ furthest (some e) (some f) = some f := by
    grind [furthest]
  · exact ⟨e, congrArg (Outcome.mk none) h, he⟩
  · exact ⟨f, congrArg (Outcome.mk none) h, hf⟩

end Outcome

namespace Matcher

variable {α β γ : Type} {m : Matcher α} {s rest : List Char} {a : α} {f : Option Failure}

theorem bind_of_some {k : α → Matcher β} (h : m s = ⟨some (a, rest), f⟩) :
    (m >>= k) s = (k a rest).after f := by
  rw [bind_apply, h]

theorem bind_of_none {k : α → Matcher β} (h : m s = ⟨none, f⟩) : (m >>= k) s = ⟨none, f⟩ := by
  rw [bind_apply, h]

theorem bind_of_some_none {k : α → Matcher β} (h : m s = ⟨some (a, rest), none⟩) :
    (m >>= k) s = k a rest := by
  rw [bind_of_some h, Outcome.after_none]

theorem read_bind_of_some {k : α → Matcher β} (h : m.read s = some (a, rest)) :
    (m >>= k).read s = (k a).read rest := by
  rw [read_bind, h, Option.bind_some]

theorem run0_append {p : Char → Bool} {cs t : List Char} (all : ∀ c ∈ cs, p c = true)
    (stop : ∀ c ∈ t.head?, p c = false) :
    run0 p (cs ++ t) = ⟨some (cs, t), some ⟨t, .unexpected⟩⟩ := by
  have hread := read_run0_append all stop
  rw [read_run0, Option.some.injEq, Prod.mk.injEq] at hread
  rw [run0]
  simp only [hread.1, hread.2]

theorem run1_append {p : Char → Bool} {cs t : List Char} (hne : cs ≠ [])
    (all : ∀ c ∈ cs, p c = true) (stop : ∀ c ∈ t.head?, p c = false) :
    run1 p (cs ++ t) = ⟨some (cs, t), some ⟨t, .unexpected⟩⟩ := by
  cases cs with
  | nil => exact absurd rfl hne
  | cons c cs =>
      obtain ⟨hc, hcs⟩ := List.forall_mem_cons.1 all
      have hone : oneOf p (c :: (cs ++ t)) = ⟨some (c, cs ++ t), none⟩ := if_pos hc
      exact (bind_of_some_none hone).trans ((bind_of_some (run0_append hcs stop)).trans rfl)

theorem outcome_cases (m : Matcher α) (s : List Char) :
    (∃ a rest f, m s = ⟨some (a, rest), f⟩) ∨ ∃ f, m s = ⟨none, f⟩ := by
  obtain ⟨_ | ⟨a, rest⟩, f⟩ := m s
  · exact Or.inr ⟨f, rfl⟩
  · exact Or.inl ⟨a, rest, f, rfl⟩

instance : LawfulMonad Matcher := LawfulMonad.mk' Matcher
  (by
    intro α m
    funext s
    obtain ⟨a, rest, f, h⟩ | ⟨f, h⟩ := outcome_cases m s
    · exact (bind_of_some h).trans (by rw [h]; simp [Outcome.after])
    · exact (bind_of_none h).trans h.symm)
  (by
    intro α β a k
    funext s
    exact bind_of_some_none (pure_apply a s))
  (by
    intro α β γ m k l
    funext s
    obtain ⟨a, rest, f, h⟩ | ⟨f, h⟩ := outcome_cases m s
    · rw [bind_of_some (k := fun a => k a >>= l) h]
      obtain ⟨b, rest', g, hk⟩ | ⟨g, hk⟩ := outcome_cases (k a) rest
      · rw [bind_of_some (k := l) hk, Outcome.after_after]
        exact bind_of_some (by rw [bind_of_some h, hk]; rfl)
      · rw [bind_of_none (k := l) hk]
        exact bind_of_none (by rw [bind_of_some h, hk]; rfl)
    · rw [bind_of_none (k := fun a => k a >>= l) h]
      exact bind_of_none (bind_of_none h))

theorem parse_of_some (h : (do let a ← m; finish; return a : Matcher α) s = ⟨some (a, rest), f⟩) :
    m.parse s = .ok a := by
  rw [Matcher.parse, run, h]

theorem parse_of_none {e : Failure}
    (h : (do let a ← m; finish; return a : Matcher α) s = ⟨none, some e⟩) :
    m.parse s = .error (.ofFailure s e) := by
  rw [Matcher.parse, run, h]
  rfl

/-- What a matcher reads is only changed before it is passed on. -/
theorem bind_pure_bind (m : Matcher α) (g : α → β) (k : β → Matcher γ) :
    (m >>= fun a => Pure.pure (g a)) >>= k = m >>= fun a => k (g a) := by
  simp only [bind_assoc, pure_bind]

/-! ## Alternatives -/

/-- One way to go on where a matcher succeeds, and another where it fails. -/
def choose (m : Matcher α) (yes : α → Matcher β) (no : Matcher β) : Matcher β := fun s =>
  match m s with
  | ⟨some (a, rest), failure⟩ => (yes a rest).after failure
  | ⟨none, failure⟩ => (no s).after failure

section Choose

variable {yes : α → Matcher β} {no : Matcher β} {k : α → Matcher β}

theorem choose_of_some (h : m s = ⟨some (a, rest), f⟩) :
    choose m yes no s = (m >>= yes) s := by
  rw [bind_of_some h, choose, h]

theorem choose_of_none (h : m s = ⟨none, f⟩) : choose m yes no s = (no s).after f := by
  rw [choose, h]

theorem read_choose_of_some {b : β} (h : (m >>= yes).read s = some (b, rest)) :
    (choose m yes no).read s = some (b, rest) := by
  obtain ⟨a, middle, f, hm⟩ | ⟨f, hm⟩ := outcome_cases m s
  · exact (congrArg Outcome.result (choose_of_some hm)).trans h
  · have hnone := (congrArg Outcome.result (bind_of_none (k := yes) hm)).symm.trans h
    cases hnone

theorem read_choose_of_none (h : m.read s = none) : (choose m yes no).read s = no.read s := by
  obtain ⟨f, hm⟩ := exists_outcome_of_read h
  exact (congrArg Outcome.result (choose_of_none hm)).trans rfl

theorem optional_bind (m : Matcher α) (k : Option α → Matcher β) :
    optional m >>= k = choose m (fun a => k (some a)) (k none) := by
  funext s
  obtain ⟨a, rest, f, h⟩ | ⟨f, h⟩ := outcome_cases m s
  · rw [choose_of_some h, bind_of_some h]
    exact bind_of_some (by rw [optional, h])
  · rw [choose_of_none h]
    exact bind_of_some (by rw [optional, h])

theorem orElse_bind (m n : Matcher α) (k : α → Matcher β) :
    (m <|> n) >>= k = choose m k (n >>= k) := by
  funext s
  show (Matcher.or m n >>= k) s = _
  obtain ⟨a, rest, f, h⟩ | ⟨f, h⟩ := outcome_cases m s
  · rw [choose_of_some h, bind_of_some h]
    exact bind_of_some (by rw [Matcher.or, h])
  · have hor : Matcher.or m n s = (n s).after f := by rw [Matcher.or, h]
    rw [choose_of_none h]
    obtain ⟨a, rest, g, hn⟩ | ⟨g, hn⟩ := outcome_cases n s
    · rw [bind_of_some hn, Outcome.after_after]
      exact bind_of_some (by rw [hor, hn]; rfl)
    · rw [bind_of_none hn]
      exact bind_of_none (by rw [hor, hn]; rfl)

theorem orElse_assoc (m n l : Matcher α) : ((m <|> n) <|> l) = (m <|> (n <|> l)) := by
  funext s
  show Matcher.or (Matcher.or m n) l s = Matcher.or m (Matcher.or n l) s
  obtain ⟨a, rest, f, hm⟩ | ⟨f, hm⟩ := outcome_cases m s
  · simp [Matcher.or, hm]
  · obtain ⟨a, rest, g, hn⟩ | ⟨g, hn⟩ := outcome_cases n s
    · simp [Matcher.or, hm, hn, Outcome.after]
    · simp [Matcher.or, hm, hn, Outcome.after, furthest_assoc]

/-- A repetition that never stands still ends, or goes on behind one match. -/
theorem many_bind (advances : m.Advances) (k : List α → Matcher β) :
    many m >>= k = choose m (fun a => many m >>= fun as => k (a :: as)) (k []) := by
  funext s
  obtain ⟨a, rest, f, h⟩ | ⟨f, h⟩ := outcome_cases m s
  · have progress : rest.length < s.length :=
      advances s a rest (congrArg Outcome.result h)
    have hmany : many m s = ⟨(many m rest).result.map fun p => (a :: p.1, p.2),
        furthest f (many m rest).failure⟩ := by
      rw [many, h]
      exact if_pos progress
    rw [choose_of_some h, bind_of_some h]
    obtain ⟨as, rest', g, hrest⟩ | ⟨g, hrest⟩ := outcome_cases (many m) rest
    · rw [bind_of_some hrest, Outcome.after_after]
      exact bind_of_some (by rw [hmany, hrest]; rfl)
    · rw [bind_of_none hrest]
      exact bind_of_none (by rw [hmany, hrest]; rfl)
  · rw [choose_of_none h]
    exact bind_of_some (by rw [many, h])

end Choose

/-! ## Heads -/

/-- On a text that does not begin with a head the matcher fails at once. -/
def Heads (F : Char → Prop) (m : Matcher α) : Prop :=
  ∀ s, (∀ c ∈ s.head?, ¬ F c) → ∃ fault, m s = ⟨none, some ⟨s, fault⟩⟩

section Heads

variable {F G : Char → Prop}

theorem Heads.read_eq_none (hm : Heads F m) (h : ∀ c ∈ s.head?, ¬ F c) : m.read s = none := by
  obtain ⟨fault, hs⟩ := hm s h
  exact congrArg Outcome.result hs

theorem Heads.rest_eq (hm : Heads F m) (h : ∀ c ∈ s.head?, ¬ F c) {e : Failure}
    (he : m s = ⟨none, some e⟩) : e.rest = s := by
  obtain ⟨fault, hfail⟩ := hm s h
  rw [Option.some.inj (congrArg Outcome.failure (he.symm.trans hfail))]

/-- A text that begins like one without a head is refused as well. -/
theorem Heads.read_append_eq_none (hm : Heads F m) (h : ∀ c ∈ s.head?, ¬ F c) {e : Failure}
    (he : m s = ⟨none, some e⟩) {x y : List Char} (hs : s = x ++ y)
    (hlt : y.length < e.rest.length) (w : List Char) : m.read (x ++ w) = none := by
  rw [hm.rest_eq h he] at hlt
  subst hs
  refine hm.read_eq_none fun c hc => ?_
  cases x with
  | nil => exact absurd hlt (Nat.lt_irrefl _)
  | cons d x => exact h c hc

theorem Heads.mono (hm : Heads F m) (h : ∀ c, F c → G c) : Heads G m :=
  fun s hs => hm s fun c hc hF => hs c hc (h c hF)

theorem Heads.bind (hm : Heads F m) (k : α → Matcher β) : Heads F (m >>= k) := by
  intro s hs
  obtain ⟨fault, hfail⟩ := hm s hs
  exact ⟨fault, bind_of_none hfail⟩

theorem Heads.choose {yes : α → Matcher β} {no : Matcher β} (hm : Heads F m) (hno : Heads G no) :
    Heads (fun c => F c ∨ G c) (choose m yes no) := by
  intro s hs
  obtain ⟨fault, hfail⟩ := hm s fun c hc hF => hs c hc (Or.inl hF)
  obtain ⟨fault', hfail'⟩ := hno s fun c hc hG => hs c hc (Or.inr hG)
  rw [choose_of_none hfail, hfail']
  exact Outcome.exists_after_eq (List.suffix_refl s)

theorem Heads.orElse {n : Matcher α} (hm : Heads F m) (hn : Heads G n) :
    Heads (fun c => F c ∨ G c) (m <|> n) := by
  have h : Heads (fun c => F c ∨ G c) ((m <|> n) >>= Pure.pure) := by
    rw [orElse_bind]
    exact hm.choose (hn.bind _)
  rwa [bind_pure] at h

theorem Heads.oneOf (p : Char → Bool) : Heads (p · = true) (oneOf p) := by
  intro s hs
  cases s with
  | nil => exact ⟨.unexpected, rfl⟩
  | cons c s => exact ⟨.unexpected, if_neg (hs c rfl)⟩

theorem Heads.char (c : Char) : Heads (· = c) (char c) :=
  (Heads.oneOf (· == c)).mono fun _ => eq_of_beq

theorem Heads.word (c : Char) (cs : List Char) : Heads (· = c) (word (c :: cs)) :=
  (Heads.char c).bind _

theorem Heads.run1 (p : Char → Bool) : Heads (p · = true) (run1 p) := (Heads.oneOf p).bind _

theorem Heads.checked {check : α → Except SyntaxFault β} (hm : Heads F m) :
    Heads F (checked m check) := by
  intro s hs
  obtain ⟨fault, hfail⟩ := hm s hs
  exact ⟨fault, by rw [Matcher.checked, hfail]⟩

end Heads

end Matcher

end EventQuery.Grammar
