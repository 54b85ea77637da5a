import EventQuery.Proofs.Grammar.Reading

/-!
# What matchers leave, and recursion

A matcher leaves an end of the text it is given. Because of that, a matcher that refers to itself
only behind a character calls itself on shorter texts only: the guard of `recursive` never refuses,
and the matcher is simply the one it is defined by.

Two matchers agree below a length when shorter texts cannot tell them apart. Agreement passes
through all ways of composing matchers and gains a character behind a matcher that reads one.
-/

namespace EventQuery.Grammar.Matcher

variable {α β : Type}

/-- The matcher leaves an end of the text. -/
def Shrinks (m : Matcher α) : Prop := ∀ s a rest, m.read s = some (a, rest) → rest <:+ s

/-- The matcher reads at least one character. -/
def Advances (m : Matcher α) : Prop :=
  ∀ s a rest, m.read s = some (a, rest) → rest.length < s.length

/-- Everything the matcher reads has a property. -/
def Yields (m : Matcher α) (P : α → Prop) : Prop :=
  ∀ s a rest, m.read s = some (a, rest) → P a

/-- On texts shorter than `n` the matchers have the same outcome and leave an end of the text. -/
def AgreeBelow (n : Nat) (m m' : Matcher α) : Prop :=
  ∀ s, s.length < n → m s = m' s ∧ ∀ a rest, m.read s = some (a, rest) → rest <:+ s

theorem AgreeBelow.of_shrinks {m : Matcher α} (h : m.Shrinks) (n : Nat) : AgreeBelow n m m :=
  fun s _ => ⟨rfl, h s⟩

theorem AgreeBelow.shrinks {m : Matcher α} (h : ∀ n, AgreeBelow n m m) : m.Shrinks :=
  fun s => (h (s.length + 1) s (Nat.lt_succ_self _)).2

/-! ## Composition -/

section Composition

variable {n : Nat} {m m' k k' : Matcher α} {f f' : α → Matcher β}

/-- A sequence on one text needs its continuations only where the first part stops. -/
theorem agree_bind {s : List Char} (heq : m s = m' s)
    (hrest : ∀ a rest, m.read s = some (a, rest) → rest <:+ s)
    (hf : ∀ a middle, m.read s = some (a, middle) →
      f a middle = f' a middle ∧ ∀ b rest, (f a).read middle = some (b, rest) → rest <:+ middle) :
    (m >>= f) s = (m' >>= f') s ∧
      ∀ b rest, Matcher.read (m >>= f) s = some (b, rest) → rest <:+ s := by
  constructor
  · rw [bind_apply, bind_apply, ← heq]
    cases hread : m.read s with
    | none =>
        obtain ⟨failure, hout⟩ := exists_outcome_of_read hread
        rw [hout]
    | some p =>
        obtain ⟨failure, hout⟩ := exists_outcome_of_read hread
        rw [hout]
        show Outcome.after failure (f p.1 p.2) = Outcome.after failure (f' p.1 p.2)
        rw [(hf p.1 p.2 hread).1]
  · intro b rest h
    rw [read_bind] at h
    obtain ⟨⟨a, middle⟩, ha, hb⟩ := Option.bind_eq_some_iff.1 h
    exact ((hf a middle ha).2 b rest hb).trans (hrest a middle ha)

theorem AgreeBelow.bind (hm : AgreeBelow n m m') (hf : ∀ a, AgreeBelow n (f a) (f' a)) :
    AgreeBelow n (m >>= f) (m' >>= f') := by
  intro s hs
  obtain ⟨heq, hrest⟩ := hm s hs
  refine agree_bind heq hrest fun a middle ha => hf a middle ?_
  exact Nat.lt_of_le_of_lt (hrest a middle ha).length_le hs

/-- Behind a matcher that reads a character, agreement below `n` is enough for one more. -/
theorem AgreeBelow.bind_advance (hm : m.Shrinks) (hadv : m.Advances)
    (hf : ∀ a, AgreeBelow n (f a) (f' a)) : AgreeBelow (n + 1) (m >>= f) (m >>= f') := by
  intro s hs
  refine agree_bind rfl (hm s) fun a middle ha => hf a middle ?_
  have hlt := hadv s a middle ha
  omega

theorem AgreeBelow.orElse (hm : AgreeBelow n m m') (hk : AgreeBelow n k k') :
    AgreeBelow n (m <|> k) (m' <|> k') := by
  intro s hs
  obtain ⟨heq, hrest⟩ := hm s hs
  constructor
  · show Matcher.or m k s = Matcher.or m' k' s
    rw [Matcher.or, Matcher.or, ← heq, (hk s hs).1]
  · intro a rest h
    rw [read_orElse, Option.or_eq_some_iff] at h
    rcases h with h | ⟨-, h⟩
    · exact hrest a rest h
    · exact (hk s hs).2 a rest h

theorem AgreeBelow.optional (hm : AgreeBelow n m m') :
    AgreeBelow n (optional m) (optional m') := by
  intro s hs
  obtain ⟨heq, hrest⟩ := hm s hs
  constructor
  · rw [Matcher.optional, Matcher.optional, ← heq]
  · intro a? rest h
    rw [read_optional] at h
    cases hread : m.read s with
    | none =>
        rw [hread] at h
        cases h
        exact List.suffix_refl s
    | some p =>
        rw [hread] at h
        cases h
        exact hrest p.1 p.2 hread

theorem AgreeBelow.many (hm : AgreeBelow n m m') :
    AgreeBelow n (many m) (many m' : Matcher (List α)) := by
  intro s
  induction hlen : s.length using Nat.strongRecOn generalizing s with
  | _ length ih =>
      subst hlen
      intro hs
      obtain ⟨heq, hrest⟩ := hm s hs
      cases hread : m.read s with
      | none =>
          obtain ⟨failure, hout⟩ := exists_outcome_of_read hread
          constructor
          · rw [Matcher.many, Matcher.many, ← heq, hout]
          · intro as rest h
            rw [read_many_of_none hread] at h
            cases h
            exact List.suffix_refl s
      | some p =>
          obtain ⟨failure, hout⟩ := exists_outcome_of_read hread
          have hp := hrest p.1 p.2 hread
          by_cases progress : p.2.length < s.length
          · obtain ⟨heq', hrest'⟩ := ih p.2.length progress p.2 rfl (Nat.lt_trans progress hs)
            constructor
            · rw [Matcher.many, Matcher.many, ← heq, hout]
              simp only [if_pos progress, heq']
            · intro as rest h
              rw [read_many_of_some hread progress] at h
              obtain ⟨q, hq, h⟩ := Option.map_eq_some_iff.1 h
              cases h
              exact (hrest' q.1 q.2 hq).trans hp
          · constructor
            · rw [Matcher.many, Matcher.many, ← heq, hout]
              simp only [if_neg progress]
            · intro as rest h
              rw [read_many_of_not_lt hread progress] at h
              cases h
              exact hp

theorem AgreeBelow.checked (hm : AgreeBelow n m m') (check : α → Except SyntaxFault β) :
    AgreeBelow n (checked m check) (checked m' check) := by
  intro s hs
  obtain ⟨heq, hrest⟩ := hm s hs
  constructor
  · rw [Matcher.checked, Matcher.checked, ← heq]
  · intro b rest h
    obtain ⟨a, ha, -⟩ := read_checked_eq_some_iff.1 h
    exact hrest a rest ha

end Composition

/-! ## What matchers leave -/

section Leaving

variable {m k : Matcher α} {f : α → Matcher β}

theorem Shrinks.pure (a : α) : Shrinks (Pure.pure a : Matcher α) := by
  intro s b rest h
  cases h
  exact List.suffix_refl s

theorem Shrinks.bind (hm : m.Shrinks) (hf : ∀ a, (f a).Shrinks) : (m >>= f).Shrinks :=
  AgreeBelow.shrinks fun n => .bind (.of_shrinks hm n) fun a => .of_shrinks (hf a) n

theorem Shrinks.orElse (hm : m.Shrinks) (hk : k.Shrinks) : (m <|> k).Shrinks :=
  AgreeBelow.shrinks fun n => .orElse (.of_shrinks hm n) (.of_shrinks hk n)

theorem Shrinks.optional (hm : m.Shrinks) : (optional m).Shrinks :=
  AgreeBelow.shrinks fun n => .optional (.of_shrinks hm n)

theorem Shrinks.many (hm : m.Shrinks) : Shrinks (many m) :=
  AgreeBelow.shrinks fun n => .many (.of_shrinks hm n)

theorem Shrinks.oneOf (p : Char → Bool) : Shrinks (oneOf p) := by
  intro s a rest h
  obtain ⟨rfl, -⟩ := eq_cons_of_read_oneOf h
  exact List.suffix_cons a rest

theorem Shrinks.word (w : List Char) : Shrinks (word w) := by
  induction w with
  | nil => exact .pure ()
  | cons c w ih => exact .bind (.oneOf _) fun _ => ih

theorem Shrinks.run0 (p : Char → Bool) : Shrinks (run0 p) := by
  intro s a rest h
  cases h
  exact List.dropWhile_suffix p

theorem Shrinks.run1 (p : Char → Bool) : Shrinks (run1 p) :=
  .bind (.oneOf p) fun c => .bind (.run0 p) fun cs => .pure (c :: cs)

theorem Shrinks.space : Shrinks space := by
  intro s a rest h
  cases h
  exact Text.skipSpace_suffix s

theorem Shrinks.padded (hm : m.Shrinks) : (padded m).Shrinks :=
  .bind .space fun _ => .bind hm fun a => .bind .space fun _ => .pure a

theorem AgreeBelow.padded {n : Nat} {m' : Matcher α} (hm : AgreeBelow n m m') :
    AgreeBelow n (padded m) (padded m') :=
  .bind (.of_shrinks .space n) fun _ => .bind hm fun _ =>
    .of_shrinks (.bind .space fun _ => .pure _) n

theorem Shrinks.checked (hm : m.Shrinks) (check : α → Except SyntaxFault β) :
    (checked m check).Shrinks :=
  AgreeBelow.shrinks fun n => .checked (.of_shrinks hm n) check

theorem Advances.oneOf (p : Char → Bool) : Advances (oneOf p) := by
  intro s a rest h
  obtain ⟨rfl, -⟩ := eq_cons_of_read_oneOf h
  exact Nat.lt_succ_self _

theorem Advances.bind (hm : m.Advances) (hf : ∀ a, (f a).Shrinks) : (m >>= f).Advances := by
  intro s b rest h
  rw [read_bind] at h
  obtain ⟨⟨a, middle⟩, ha, h⟩ := Option.bind_eq_some_iff.1 h
  exact Nat.lt_of_le_of_lt (hf a middle b rest h).length_le (hm s a middle ha)

theorem Advances.padded (hm : m.Advances) : (padded m).Advances := by
  intro s a rest h
  rw [read_padded] at h
  obtain ⟨⟨b, rest'⟩, hb, h⟩ := Option.map_eq_some_iff.1 h
  cases h
  calc (Text.skipSpace rest').length ≤ rest'.length := (Text.skipSpace_suffix rest').length_le
    _ < (Text.skipSpace s).length := hm _ _ _ hb
    _ ≤ s.length := (Text.skipSpace_suffix s).length_le

end Leaving

/-! ## Recursion -/

/-- A matcher that uses the one it is given only behind a character. -/
def Guarded (m : Matcher α → Matcher α) : Prop :=
  ∀ n k k', AgreeBelow n k k' → AgreeBelow (n + 1) (m k) (m k')

section Recursion

variable {m : Matcher α → Matcher α}

theorem Guarded.recursive_apply (hm : Guarded m) (s : List Char) :
    recursive m s = m (recursive m) s ∧
      ∀ a rest, Matcher.read (recursive m) s = some (a, rest) → rest <:+ s := by
  induction hlen : s.length using Nat.strongRecOn generalizing s with
  | _ length ih =>
      subst hlen
      have hguard : AgreeBelow s.length
          (fun t => if t.length < s.length then recursive m t else ⟨none, none⟩)
          (recursive m) := by
        intro t ht
        refine ⟨if_pos ht, fun a rest h => ?_⟩
        refine (ih t.length ht t rfl).2 a rest (Eq.trans ?_ h)
        exact (congrArg Outcome.result (if_pos ht)).symm
      obtain ⟨heq, hrest⟩ := hm _ _ _ hguard s (Nat.lt_succ_self _)
      have hunfold : recursive m s =
          m (fun t => if t.length < s.length then recursive m t else ⟨none, none⟩) s := by
        rw [recursive]
      refine ⟨hunfold.trans heq, fun a rest h => hrest a rest (Eq.trans ?_ h)⟩
      exact congrArg Outcome.result hunfold.symm

/-- A guarded matcher is the one it is defined by. -/
theorem Guarded.recursive_eq (hm : Guarded m) : recursive m = m (recursive m) :=
  funext fun s => (hm.recursive_apply s).1

theorem Guarded.shrinks (hm : Guarded m) : Shrinks (recursive m) :=
  fun s => (hm.recursive_apply s).2

end Recursion

/-! ## What is read -/

section Reading

variable {m k : Matcher α} {f : α → Matcher β} {P : α → Prop} {Q : β → Prop}

theorem Yields.pure {a : α} (h : P a) : Yields (Pure.pure a : Matcher α) P := by
  intro s b rest hread
  cases hread
  exact h

theorem Yields.bind (hm : m.Yields P) (hf : ∀ a, P a → (f a).Yields Q) : (m >>= f).Yields Q := by
  intro s b rest h
  rw [read_bind] at h
  obtain ⟨⟨a, middle⟩, ha, hb⟩ := Option.bind_eq_some_iff.1 h
  exact hf a (hm s a middle ha) middle b rest hb

theorem Yields.bind_all (hf : ∀ a, (f a).Yields Q) : (m >>= f).Yields Q :=
  Yields.bind (P := fun _ => True) (fun _ _ _ _ => trivial) fun a _ => hf a

theorem Yields.orElse (hm : m.Yields P) (hk : k.Yields P) : (m <|> k).Yields P := by
  intro s a rest h
  rw [read_orElse, Option.or_eq_some_iff] at h
  rcases h with h | ⟨-, h⟩
  · exact hm s a rest h
  · exact hk s a rest h

theorem Yields.optional (hm : m.Yields P) : (optional m).Yields (∀ a ∈ ·, P a) := by
  intro s a? rest h
  rw [read_optional] at h
  cases hread : m.read s with
  | none =>
      rw [hread] at h
      cases h
      exact nofun
  | some p =>
      rw [hread] at h
      cases h
      rintro a ⟨⟩
      exact hm s p.1 p.2 hread

theorem Yields.oneOf (p : Char → Bool) : (oneOf p).Yields (p · = true) :=
  fun _ _ _ h => (eq_cons_of_read_oneOf h).2

theorem Yields.run0 (p : Char → Bool) : (run0 p).Yields (·.all p = true) := by
  intro s cs rest h
  cases h
  exact List.all_takeWhile

theorem Yields.many (hm : m.Yields P) : Yields (many m) (∀ a ∈ ·, P a) := by
  intro s as rest h
  refine many_induct (motive := fun _ as _ => ∀ a ∈ as, P a) (fun _ _ => nofun) ?_ ?_ h
  · intro s a middle as rest hread _ ih
    exact List.forall_mem_cons.2 ⟨hm s a middle hread, ih⟩
  · intro s a rest hread _
    exact List.forall_mem_singleton.2 (hm s a rest hread)

theorem Yields.padded (hm : m.Yields P) : (padded m).Yields P :=
  .bind_all fun _ => .bind hm fun _ h => .bind_all fun _ => .pure h

theorem Yields.separated {k : Matcher β} (hm : m.Yields P) :
    (separated m k).Yields (∀ a ∈ ·, P a) :=
  .bind hm fun _ hfirst => .bind (.many (.bind_all fun _ => hm)) fun _ hmore =>
    .pure (List.forall_mem_cons.2 ⟨hfirst, hmore⟩)

theorem Yields.checked {check : α → Except SyntaxFault β} (hm : m.Yields P)
    (hcheck : ∀ a b, P a → check a = .ok b → Q b) : (checked m check).Yields Q := by
  intro s b rest h
  obtain ⟨a, ha, hb⟩ := read_checked_eq_some_iff.1 h
  exact hcheck a b (hm s a rest ha) hb

theorem Yields.recursive {m : Matcher α → Matcher α}
    (hm : ∀ k : Matcher α, k.Yields P → (m k).Yields P) : Yields (recursive m) P := by
  intro s
  induction hlen : s.length using Nat.strongRecOn generalizing s with
  | _ length ih =>
      subst hlen
      have hguard : Yields
          (fun t => if t.length < s.length then Matcher.recursive m t else ⟨none, none⟩) P := by
        intro t a rest h
        by_cases ht : t.length < s.length
        · refine ih t.length ht t rfl a rest (Eq.trans ?_ h)
          exact (congrArg Outcome.result (if_pos ht)).symm
        · have hnone := (congrArg Outcome.result (if_neg ht)).symm.trans h
          cases hnone
      intro a rest h
      refine hm _ hguard s a rest (Eq.trans ?_ h)
      show _ = (Matcher.recursive m s).result
      rw [Matcher.recursive]
      rfl

end Reading

end EventQuery.Grammar.Matcher
