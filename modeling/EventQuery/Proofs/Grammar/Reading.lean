import EventQuery.Grammar.Matcher

/-!
# What matchers read

The value a matcher reads and the text it leaves do not depend on the failures it reports. `read` is
that part of an outcome, with one equation for each way of composing matchers.

A matcher leaves an end of the text it is given. One that refers to itself only behind a character
can therefore be unfolded without its guard: the guard never fails.
-/

namespace EventQuery.Text

theorem skipSpace_blank (s : List Char) : skipSpace (' ' :: s) = skipSpace s := rfl

theorem skipSpace_cons_self {c : Char} (h : isSpace c = false) (s : List Char) :
    skipSpace (c :: s) = c :: s := by
  rw [skipSpace_cons, if_neg (Bool.eq_false_iff.1 h)]

/-- What is so of some first character is so of any: there is one at most. -/
theorem forall_head_of_exists {s : List Char} {P : Char → Prop} (h : ∃ c ∈ s.head?, P c) :
    ∀ c ∈ s.head?, P c := by
  obtain ⟨c, hc, hP⟩ := h
  exact fun d hd => Option.mem_unique hc hd ▸ hP

theorem skipSpace_of_head {s : List Char} (h : ∀ c ∈ s.head?, isSpace c = false) :
    skipSpace s = s := by
  cases s with
  | nil => rfl
  | cons c s => exact skipSpace_cons_self (h c rfl) s

theorem isSpace_head_skipSpace (s : List Char) :
    ∀ c ∈ (skipSpace s).head?, isSpace c = false := by
  induction s with
  | nil => exact nofun
  | cons d s ih =>
      rw [skipSpace_cons]
      split
      · exact ih
      · rename_i hd
        rintro c ⟨⟩
        simpa using hd

@[simp] theorem skipSpace_skipSpace (s : List Char) :
    skipSpace (skipSpace s) = skipSpace s :=
  skipSpace_of_head (isSpace_head_skipSpace s)

theorem toNat_of_isAlpha {c : Char} (h : c.isAlpha = true) :
    (65 ≤ c.toNat ∧ c.toNat ≤ 90) ∨ (97 ≤ c.toNat ∧ c.toNat ≤ 122) := by
  rcases Bool.or_eq_true_iff.1 h with h | h
  · obtain ⟨hle, hge⟩ := of_decide_eq_true h
    exact Or.inl ⟨UInt32.le_iff_toNat_le.1 hle, UInt32.le_iff_toNat_le.1 hge⟩
  · obtain ⟨hle, hge⟩ := Bool.and_eq_true_iff.1 h
    exact Or.inr ⟨UInt32.le_iff_toNat_le.1 (of_decide_eq_true hle),
      UInt32.le_iff_toNat_le.1 (of_decide_eq_true hge)⟩

theorem isDigit_of_isAlpha {c : Char} (h : c.isAlpha = true) : c.isDigit = false := by
  rw [Bool.eq_false_iff]
  intro hdigit
  have hletter := toNat_of_isAlpha h
  have hrange : 48 ≤ c.toNat ∧ c.toNat ≤ 57 := Char.isDigit_iff_toNat.1 hdigit
  omega

theorem isSpace_of_isAlphanum {c : Char} (h : c.isAlphanum = true) : isSpace c = false := by
  have hrange : ((65 ≤ c.toNat ∧ c.toNat ≤ 90) ∨ (97 ≤ c.toNat ∧ c.toNat ≤ 122)) ∨
      (48 ≤ c.toNat ∧ c.toNat ≤ 57) := by
    cases Bool.or_eq_true_iff.1 h with
    | inl h => exact Or.inl (toNat_of_isAlpha h)
    | inr h => exact Or.inr (Char.isDigit_iff_toNat.1 h)
  rw [isSpace, Bool.eq_false_iff]
  intro hspace
  simp only [Bool.or_eq_true, Bool.and_eq_true, decide_eq_true_eq, beq_iff_eq] at hspace
  omega

theorem isSpace_of_isAlpha {c : Char} (h : c.isAlpha = true) : isSpace c = false :=
  isSpace_of_isAlphanum (by rw [Char.isAlphanum, h, Bool.true_or])

theorem isSpace_of_isDigit {c : Char} (h : c.isDigit = true) : isSpace c = false :=
  isSpace_of_isAlphanum (by rw [Char.isAlphanum, h, Bool.or_true])

end EventQuery.Text

namespace EventQuery.Grammar.Matcher

variable {α β : Type}

/-- The value read and the text that remains. -/
def read (m : Matcher α) (s : List Char) : Option (α × List Char) := (m.run s).result

/-! ## Composition -/

@[simp] theorem read_pure (a : α) (s : List Char) :
    (Pure.pure a : Matcher α).read s = some (a, s) := rfl

theorem read_bind (m : Matcher α) (f : α → Matcher β) (s : List Char) :
    (m >>= f).read s = (m.read s).bind fun p => (f p.1).read p.2 := by
  show ((m >>= f) s).result = ((m s).result).bind _
  rw [bind_apply]
  obtain ⟨_ | ⟨a, rest⟩, failure⟩ := m s <;> rfl

/-- What is read is only wrapped. -/
theorem read_bind_pure (m : Matcher α) (f : α → β) (s : List Char) :
    (m >>= fun a => Pure.pure (f a)).read s = (m.read s).map fun p => (f p.1, p.2) := by
  rw [read_bind]
  cases m.read s <;> rfl

/-- What two matchers read one behind the other is only put together. -/
theorem read_bind_bind_pure_eq_some_iff {γ : Type} {m : Matcher α} {k : Matcher β}
    {f : α → β → γ} {s rest : List Char} {c : γ} :
    (do let a ← m; let b ← k; return f a b : Matcher γ).read s = some (c, rest) ↔
      ∃ a b t, m.read s = some (a, t) ∧ k.read t = some (b, rest) ∧ f a b = c := by
  rw [read_bind]
  constructor
  · intro h
    obtain ⟨⟨a, t⟩, ha, h⟩ := Option.bind_eq_some_iff.1 h
    rw [read_bind_pure] at h
    obtain ⟨⟨b, u⟩, hb, h⟩ := Option.map_eq_some_iff.1 h
    cases h
    exact ⟨a, b, t, ha, hb, rfl⟩
  · intro h
    obtain ⟨a, b, t, ha, hb, rfl⟩ := h
    rw [ha, Option.bind_some, read_bind_pure, hb]
    rfl

theorem read_orElse (m n : Matcher α) (s : List Char) :
    (m <|> n).read s = (m.read s).or (n.read s) := by
  show (Matcher.or m n s).result = ((m s).result).or _
  unfold Matcher.or
  obtain ⟨_ | r, failure⟩ := m s <;> rfl

theorem read_optional (m : Matcher α) (s : List Char) :
    (optional m).read s = match m.read s with
      | some (a, rest) => some (some a, rest)
      | none => some (none, s) := by
  show (optional m s).result = match (m s).result with | some (a, rest) => _ | none => _
  unfold optional
  obtain ⟨_ | ⟨a, rest⟩, failure⟩ := m s <;> rfl

theorem read_optional_eq_some_some_iff {m : Matcher α} {s rest : List Char} {a : α} :
    (optional m).read s = some (some a, rest) ↔ m.read s = some (a, rest) := by
  rw [read_optional]
  cases m.read s <;> simp [Prod.ext_iff]

theorem read_optional_eq_some_none_iff {m : Matcher α} {s rest : List Char} :
    (optional m).read s = some (none, rest) ↔ m.read s = none ∧ rest = s := by
  rw [read_optional]
  cases m.read s <;> simp [eq_comm]

@[simp] theorem read_oneOf_nil (p : Char → Bool) : (oneOf p).read [] = none := rfl

theorem read_oneOf_cons (p : Char → Bool) (c : Char) (s : List Char) :
    (oneOf p).read (c :: s) = if p c then some (c, s) else none := by
  show (if p c then (⟨some (c, s), none⟩ : Outcome Char) else _).result = _
  split <;> rfl

theorem eq_cons_of_read_oneOf {p : Char → Bool} {a : Char} {s rest : List Char}
    (h : (oneOf p).read s = some (a, rest)) : s = a :: rest ∧ p a = true := by
  cases s with
  | nil => cases h
  | cons c s =>
      rw [read_oneOf_cons] at h
      split at h
      · rename_i hc
        cases h
        exact ⟨rfl, hc⟩
      · cases h

@[simp] theorem read_char_self (c : Char) (s : List Char) :
    (char c).read (c :: s) = some (c, s) := by
  simp [char, read_oneOf_cons]

theorem read_char_of_ne {c : Char} {s : List Char} (h : ∀ d ∈ s.head?, d ≠ c) :
    (char c).read s = none := by
  cases s with
  | nil => rfl
  | cons d s =>
      rw [char, read_oneOf_cons, if_neg (by simpa using h d rfl)]

theorem read_char_bind_of_ne {c : Char} {f : Char → Matcher α} {s : List Char}
    (h : ∀ d ∈ s.head?, d ≠ c) : (char c >>= f).read s = none := by
  rw [read_bind, read_char_of_ne h, Option.bind_none]

theorem read_optional_char_of_ne {c : Char} {f : Char → Matcher α} {s : List Char}
    (h : ∀ d ∈ s.head?, d ≠ c) : (optional (char c >>= f)).read s = some (none, s) := by
  rw [read_optional, read_char_bind_of_ne h]

theorem eq_cons_of_read_char {c a : Char} {s rest : List Char}
    (h : (char c).read s = some (a, rest)) : s = c :: rest ∧ a = c := by
  obtain ⟨rfl, ha⟩ := eq_cons_of_read_oneOf h
  obtain rfl := eq_of_beq ha
  exact ⟨rfl, rfl⟩

theorem read_char_bind_eq_some_iff {c : Char} {m : Matcher α} {s rest : List Char} {a : α} :
    (do let _ ← char c; m : Matcher α).read s = some (a, rest) ↔
      ∃ t, s = c :: t ∧ m.read t = some (a, rest) := by
  rw [read_bind]
  constructor
  · intro h
    obtain ⟨⟨d, t⟩, hc, h⟩ := Option.bind_eq_some_iff.1 h
    exact ⟨t, (eq_cons_of_read_char hc).1, h⟩
  · intro h
    obtain ⟨t, rfl, h⟩ := h
    rw [read_char_self, Option.bind_some, h]

theorem read_bind_char_eq_some_iff {m : Matcher α} {c : Char} {f : α → β} {s rest : List Char}
    {b : β} :
    (do let a ← m; let _ ← char c; return f a : Matcher β).read s = some (b, rest) ↔
      ∃ a, m.read s = some (a, c :: rest) ∧ f a = b := by
  rw [read_bind]
  constructor
  · intro h
    obtain ⟨⟨a, middle⟩, ha, h⟩ := Option.bind_eq_some_iff.1 h
    obtain ⟨t, rfl, h⟩ := read_char_bind_eq_some_iff.1 h
    cases h
    exact ⟨a, ha, rfl⟩
  · intro h
    obtain ⟨a, ha, rfl⟩ := h
    rw [ha, Option.bind_some, read_bind, read_char_self]
    rfl

@[simp] theorem read_word_append (w s : List Char) : (word w).read (w ++ s) = some ((), s) := by
  induction w with
  | nil => rfl
  | cons c w ih =>
      show (bind (char c) fun _ => word w).read _ = _
      rw [show bind (char c) (fun _ => word w) = char c >>= fun _ => word w from rfl, read_bind,
        List.cons_append, read_char_self, Option.bind_some, ih]

theorem read_word_of_ne {c : Char} {w s : List Char} (h : ∀ d ∈ s.head?, d ≠ c) :
    (word (c :: w)).read s = none :=
  read_char_bind_of_ne h

theorem eq_append_of_read_word {w s rest : List Char} {u : Unit}
    (h : (word w).read s = some (u, rest)) : s = w ++ rest := by
  induction w generalizing s with
  | nil =>
      cases h
      rfl
  | cons c w ih =>
      rw [show word (c :: w) = char c >>= fun _ => word w from rfl, read_bind] at h
      obtain ⟨⟨d, middle⟩, hd, h⟩ := Option.bind_eq_some_iff.1 h
      have hmiddle : middle = w ++ rest := ih h
      rw [(eq_cons_of_read_char hd).1, hmiddle, List.cons_append]

theorem read_run0 (p : Char → Bool) (s : List Char) :
    (run0 p).read s = some (s.takeWhile p, s.dropWhile p) := rfl

theorem read_run0_append {p : Char → Bool} {cs rest : List Char} (all : ∀ c ∈ cs, p c = true)
    (stop : ∀ c ∈ rest.head?, p c = false) : (run0 p).read (cs ++ rest) = some (cs, rest) := by
  have hrest : rest.takeWhile p = [] ∧ rest.dropWhile p = rest := by
    cases rest with
    | nil => exact ⟨rfl, rfl⟩
    | cons c rest => simp [stop c rfl]
  rw [read_run0, List.takeWhile_append_of_pos all, List.dropWhile_append_of_pos all, hrest.1,
    hrest.2, List.append_nil]

theorem read_space (s : List Char) : space.read s = some ((), Text.skipSpace s) := rfl

theorem read_padded (m : Matcher α) (s : List Char) :
    (padded m).read s = (m.read (Text.skipSpace s)).map fun p => (p.1, Text.skipSpace p.2) := by
  rw [padded, read_bind, read_space, Option.bind_some, read_bind]
  cases m.read (Text.skipSpace s) <;> rfl

theorem read_padded_char {c : Char} (h : Text.isSpace c = false) (s : List Char) :
    (padded (char c)).read (c :: s) = some (c, Text.skipSpace s) := by
  rw [read_padded, Text.skipSpace_cons_self h, read_char_self,
    Option.map_some]

theorem read_padded_char_of_ne {c : Char} {s : List Char}
    (h : ∀ d ∈ (Text.skipSpace s).head?, d ≠ c) : (padded (char c)).read s = none := by
  rw [read_padded, read_char_of_ne h, Option.map_none]

theorem eq_cons_of_read_padded_char {c d : Char} {s rest : List Char}
    (start : Text.skipSpace s = s) (h : (padded (char c)).read s = some (d, rest)) :
    ∃ t, s = c :: t ∧ d = c ∧ rest = Text.skipSpace t := by
  rw [read_padded, start] at h
  obtain ⟨⟨e, t⟩, hchar, h⟩ := Option.map_eq_some_iff.1 h
  cases h
  obtain ⟨rfl, rfl⟩ := eq_cons_of_read_char hchar
  exact ⟨t, rfl, rfl, rfl⟩

theorem read_checked (m : Matcher α) (check : α → Except SyntaxFault β) (s : List Char) :
    (checked m check).read s = (m.read s).bind fun p =>
      match check p.1 with
      | .ok b => some (b, p.2)
      | .error _ => none := by
  show (checked m check s).result = ((m s).result).bind _
  unfold checked
  obtain ⟨_ | ⟨a, rest⟩, failure⟩ := m s
  · rfl
  · show (match check a with | .ok b => _ | .error e => _ : Outcome β).result = _
    cases h : check a <;> simp [h]

theorem read_checked_eq_some_iff {m : Matcher α} {check : α → Except SyntaxFault β}
    {s rest : List Char} {b : β} :
    (checked m check).read s = some (b, rest) ↔
      ∃ a, m.read s = some (a, rest) ∧ check a = .ok b := by
  rw [read_checked]
  constructor
  · intro h
    obtain ⟨⟨a, rest'⟩, ha, h⟩ := Option.bind_eq_some_iff.1 h
    cases hcheck : check a with
    | error fault => simp [hcheck] at h
    | ok b' =>
        simp only [hcheck, Option.some.injEq, Prod.mk.injEq] at h
        obtain ⟨rfl, rfl⟩ := h
        exact ⟨a, ha, hcheck⟩
  · intro h
    obtain ⟨a, ha, hcheck⟩ := h
    rw [ha, Option.bind_some]
    simp only [hcheck]

theorem exists_outcome_of_read {m : Matcher α} {s : List Char} {r : Option (α × List Char)}
    (h : m.read s = r) : ∃ failure, m s = ⟨r, failure⟩ :=
  ⟨(m s).failure, by rw [← h]; rfl⟩

/-- The end of a repetition. -/
theorem read_many_of_none {m : Matcher α} {s : List Char} (h : m.read s = none) :
    Matcher.read (many m) s = some ([], s) := by
  obtain ⟨failure, h⟩ := exists_outcome_of_read h
  show (many m s).result = _
  rw [many, h]

/-- A round of a repetition. -/
theorem read_many_of_some {m : Matcher α} {s rest : List Char} {a : α}
    (h : m.read s = some (a, rest)) (progress : rest.length < s.length) :
    Matcher.read (many m) s = (Matcher.read (many m) rest).map fun p => (a :: p.1, p.2) := by
  obtain ⟨failure, h⟩ := exists_outcome_of_read h
  show (many m s).result = _
  rw [many, h]
  exact congrArg Outcome.result (if_pos progress)

/-- A round that reads no character is the last. -/
theorem read_many_of_not_lt {m : Matcher α} {s rest : List Char} {a : α}
    (h : m.read s = some (a, rest)) (stuck : ¬ rest.length < s.length) :
    Matcher.read (many m) s = some ([a], rest) := by
  obtain ⟨failure, h⟩ := exists_outcome_of_read h
  show (many m s).result = _
  rw [many, h]
  exact congrArg Outcome.result (if_neg stuck)

/-- A repetition of one round, whether that reads a character or not. -/
theorem read_many_of_once {m : Matcher α} {s rest : List Char} {a : α}
    (h : m.read s = some (a, rest)) (stop : m.read rest = none) :
    Matcher.read (many m) s = some ([a], rest) := by
  by_cases progress : rest.length < s.length
  · rw [read_many_of_some h progress, read_many_of_none stop, Option.map_some]
  · exact read_many_of_not_lt h progress

/-- A repetition that reads nothing leaves the text as it is. -/
theorem eq_of_read_many_nil {m : Matcher α} {s rest : List Char}
    (h : Matcher.read (many m) s = some ([], rest)) : rest = s := by
  cases hread : m.read s with
  | none =>
      rw [read_many_of_none hread] at h
      cases h
      rfl
  | some p =>
      by_cases progress : p.2.length < s.length
      · rw [read_many_of_some hread progress] at h
        obtain ⟨q, -, h⟩ := Option.map_eq_some_iff.1 h
        cases h
      · rw [read_many_of_not_lt hread progress] at h
        cases h

/-- A repetition always ends. -/
theorem exists_read_many (m : Matcher α) (s : List Char) :
    ∃ as rest, Matcher.read (many m) s = some (as, rest) := by
  induction hlen : s.length using Nat.strongRecOn generalizing s with
  | _ length ih =>
      subst hlen
      cases hread : m.read s with
      | none => exact ⟨[], s, read_many_of_none hread⟩
      | some p =>
          by_cases progress : p.2.length < s.length
          · obtain ⟨as, rest, h⟩ := ih p.2.length progress p.2 rfl
            exact ⟨p.1 :: as, rest, by rw [read_many_of_some hread progress, h]; rfl⟩
          · exact ⟨[p.1], p.2, read_many_of_not_lt hread progress⟩

/-- Induction over the rounds of a repetition. -/
theorem many_induct {m : Matcher α} {motive : List Char → List α → List Char → Prop}
    (stop : ∀ s, m.read s = none → motive s [] s)
    (round : ∀ s a middle as rest, m.read s = some (a, middle) → middle.length < s.length →
      motive middle as rest → motive s (a :: as) rest)
    (stuck : ∀ s a rest, m.read s = some (a, rest) → ¬ rest.length < s.length → motive s [a] rest)
    {s rest : List Char} {as : List α} (h : Matcher.read (many m) s = some (as, rest)) :
    motive s as rest := by
  induction hlen : s.length using Nat.strongRecOn generalizing s as with
  | _ length ih =>
      subst hlen
      cases hread : m.read s with
      | none =>
          rw [read_many_of_none hread] at h
          cases h
          exact stop _ hread
      | some p =>
          by_cases progress : p.2.length < s.length
          · rw [read_many_of_some hread progress] at h
            obtain ⟨q, hq, h⟩ := Option.map_eq_some_iff.1 h
            cases h
            exact round s p.1 p.2 q.1 q.2 hread progress (ih p.2.length progress hq rfl)
          · rw [read_many_of_not_lt hread progress] at h
            cases h
            exact stuck s p.1 p.2 hread progress

/-- A repetition reads texts that each begin with a mark. What stands behind each of them, which is
the next mark or the end, must not continue it. -/
theorem read_many_marked {γ : Type} (Ends : List Char → Prop) {m : Matcher α} {mark : Char}
    {text : γ → List Char} {f : γ → α} (marks : ∀ s, Ends (mark :: s)) {bs : List γ}
    (round : ∀ b ∈ bs, ∀ rest, Ends rest → m.read (mark :: (text b ++ rest)) = some (f b, rest))
    {rest : List Char} (ends : Ends rest) (stop : m.read rest = none) :
    Matcher.read (many m) (bs.flatMap (fun b => mark :: text b) ++ rest) =
      some (bs.map f, rest) := by
  have hends : ∀ bs : List γ, Ends (bs.flatMap (fun b => mark :: text b) ++ rest) := by
    intro bs
    cases bs with
    | nil => exact ends
    | cons b bs => exact marks _
  induction bs with
  | nil => exact read_many_of_none stop
  | cons b bs ih =>
      have hround := round b List.mem_cons_self _ (hends bs)
      rw [List.flatMap_cons, List.append_assoc, List.cons_append,
        read_many_of_some hround (by simp only [List.length_cons, List.length_append]; omega),
        ih fun b hb => round b (List.mem_cons_of_mem _ hb)]
      rfl

/-- Matches with a separator are a first one and a repetition behind separators. -/
theorem read_separated_eq (m : Matcher α) (k : Matcher β) (s : List Char) :
    (separated m k).read s = (m.read s).bind fun p =>
      (Matcher.read (many (do let _ ← k; m)) p.2).map fun q => (p.1 :: q.1, q.2) := by
  rw [separated, read_bind]
  refine congrArg _ (funext fun p => ?_)
  exact read_bind_pure (many (do let _ ← k; m)) _ _

theorem read_finish (s : List Char) : finish.read s = if s = [] then some ((), s) else none := by
  show (finish s).result = _
  unfold finish
  split <;> rfl

/-- A whole text is read when the matcher leaves nothing of it. -/
theorem parse_eq_ok_iff {m : Matcher α} {text : List Char} {a : α} :
    m.parse text = .ok a ↔ m.read text = some (a, []) := by
  have hwhole : (do let a ← m; finish; return a : Matcher α).read text =
      (m.read text).bind fun p => if p.2 = [] then some p else none := by
    rw [read_bind]
    refine congrArg _ (funext fun p => ?_)
    rw [read_bind, read_finish]
    split <;> rfl
  have hparse : m.parse text = .ok a ↔
      ∃ rest, (do let a ← m; finish; return a : Matcher α).read text = some (a, rest) := by
    unfold Matcher.parse read
    obtain ⟨_ | ⟨b, rest⟩, failure⟩ := run (do let a ← m; finish; return a : Matcher α) text
    · simp
    · simp
  rw [hparse, hwhole]
  constructor
  · rintro ⟨rest, h⟩
    obtain ⟨⟨b, remaining⟩, hp, h⟩ := Option.bind_eq_some_iff.1 h
    by_cases hend : remaining = []
    · rw [if_pos hend] at h
      cases h
      rw [hp, hend]
    · rw [if_neg hend] at h
      cases h
  · intro h
    exact ⟨[], by rw [h]; rfl⟩

end EventQuery.Grammar.Matcher
