import EventQuery.Proofs.Grammar.Failures

/-!
# The text before a failure can be completed

A matcher that is sure of its choices fails only where the text before the failure is the beginning
of some text that it reads: every choice that was made before could still have been the right one.

`Viable` says so of a matcher together with all that comes after it, which is why the rules below
have the form `m >>= k`: they tell what `m` needs of its continuations. A class of characters comes
with it, the characters that a text for the matcher may begin with. A text that goes on with any
other character is refused no later than there, so that of two alternatives with different
characters at most one gets beyond the first.

Recursion is on the length of texts: behind a character it is enough to know about shorter ones.
-/

namespace EventQuery.Text

/-- What is skipped ends at the first character that is not white space, whatever follows. -/
theorem exists_skipSpace (s : List Char) : ∃ blank, s = blank ++ skipSpace s ∧
    ∀ t, (∀ c ∈ t.head?, isSpace c = false) → skipSpace (blank ++ t) = t := by
  refine ⟨s.takeWhile isSpace, (List.takeWhile_append_dropWhile).symm, fun t ht => ?_⟩
  have hblank : ∀ c ∈ s.takeWhile isSpace, isSpace c = true :=
    List.all_eq_true.1 List.all_takeWhile
  rw [skipSpace, List.dropWhile_append_of_pos hblank]
  exact skipSpace_of_head ht

end EventQuery.Text

namespace EventQuery.Grammar.Matcher

variable {α β : Type} {n : Nat} {F G P : Char → Prop} {m : Matcher α}

/-- A text is cut behind its first characters of one kind. -/
theorem exists_run (p : Char → Bool) (s : List Char) :
    ∃ cs rest, s = cs ++ rest ∧ (∀ c ∈ cs, p c = true) ∧ ∀ c ∈ rest.head?, p c = false := by
  refine ⟨s.takeWhile p, s.dropWhile p, List.takeWhile_append_dropWhile.symm,
    List.all_eq_true.1 List.all_takeWhile, fun c hc => ?_⟩
  have hnot := List.head?_dropWhile_not p s
  rw [Option.mem_def.1 hc] at hnot
  exact hnot

/-- A beginning of a text that is completed begins as the text does, or as the completion if there
is nothing of it. -/
theorem forall_head_append {s x y w : List Char} (hs : s = x ++ y) (h : ∀ c ∈ s.head?, P c)
    (hw : x = [] → ∀ c ∈ w.head?, P c) : ∀ c ∈ (x ++ w).head?, P c := by
  subst hs
  cases x with
  | nil => exact hw rfl
  | cons d x => exact h

/-- The matcher reads a beginning of the text. -/
def Accepts (m : Matcher α) (s : List Char) : Prop := ∃ p, m.read s = some p

/-- The text before the failure can be completed to one that the matcher reads. Where nothing stands
before it, the text put there begins with a character of the class or is empty. -/
def Completable (F : Char → Prop) (m : Matcher α) (s : List Char) (f : Failure) : Prop :=
  ∃ x w, s = x ++ f.rest ∧ (x = [] → ∀ c ∈ w.head?, F c) ∧ m.Accepts (x ++ w)

/-- A text whose first character behind white space is not in the class is refused there or
before. -/
def Idle (F : Char → Prop) (m : Matcher α) : Prop :=
  ∀ s, (∃ c ∈ (Text.skipSpace s).head?, ¬ F c) →
    ∃ f, m s = ⟨none, some f⟩ ∧ (Text.skipSpace s).length ≤ f.rest.length

/-- On texts shorter than `n` the matcher fails behind what can be completed only. -/
structure Viable (n : Nat) (F : Char → Prop) (m : Matcher α) : Prop where
  visible : ∀ c, F c → Text.isSpace c = false
  starts : ∃ w, (∀ c ∈ w.head?, F c) ∧ m.Accepts w
  idle : Idle F m
  fails : ∀ s, s.length < n → m.read s = none → ∃ f, m s = ⟨none, some f⟩ ∧ Completable F m s f

theorem Completable.suffix {s : List Char} {f : Failure} (h : Completable F m s f) :
    f.rest <:+ s := by
  obtain ⟨x, w, rfl, -⟩ := h
  exact List.suffix_append x f.rest

/-! ## Idle matchers -/

theorem Heads.idle (hm : Heads F m) (visible : ∀ c, F c → Text.isSpace c = false) : Idle F m := by
  rintro s ⟨c, hc, hF⟩
  obtain ⟨fault, hfail⟩ := hm s fun d hd hFd => by
    rw [Text.skipSpace_of_head] at hc
    · exact hF (Option.mem_unique hd hc ▸ hFd)
    · intro e he
      exact Option.mem_unique hd he ▸ visible d hFd
  exact ⟨_, hfail, (Text.skipSpace_suffix s).length_le⟩

theorem Idle.bind (hm : Idle F m) (k : α → Matcher β) : Idle F (m >>= k) := by
  intro s hs
  obtain ⟨f, hf, hle⟩ := hm s hs
  exact ⟨f, bind_of_none hf, hle⟩

theorem space_bind (m : Matcher α) (s : List Char) :
    (space >>= fun _ => m) s = m (Text.skipSpace s) :=
  bind_of_some_none (k := fun _ => m) (rfl : space s = ⟨some ((), Text.skipSpace s), none⟩)

theorem read_space_bind (m : Matcher α) (s : List Char) :
    (space >>= fun _ => m).read s = m.read (Text.skipSpace s) :=
  congrArg Outcome.result (space_bind m s)

theorem Idle.space (hm : Idle F m) : Idle F (space >>= fun _ => m) := by
  intro s hs
  have hidle := hm (Text.skipSpace s)
  rw [Text.skipSpace_skipSpace] at hidle
  rw [space_bind]
  exact hidle hs

theorem Idle.choose {yes : α → Matcher β} {no : Matcher β} (hm : Idle F m) (hno : Idle G no) :
    Idle (fun c => F c ∨ G c) (choose m yes no) := by
  rintro s ⟨c, hc, hout⟩
  obtain ⟨f, hf, hle⟩ := hm s ⟨c, hc, fun h => hout (Or.inl h)⟩
  obtain ⟨g, hg, hle'⟩ := hno s ⟨c, hc, fun h => hout (Or.inr h)⟩
  rw [choose_of_none hf, hg]
  exact Outcome.exists_after_eq_of_le hle hle'

theorem Idle.orElse {m k : Matcher α} (hm : Idle F m) (hk : Idle G k) :
    Idle (fun c => F c ∨ G c) (m <|> k) := by
  have h : Idle (fun c => F c ∨ G c) ((m <|> k) >>= Pure.pure) := by
    rw [orElse_bind]
    exact hm.choose (hk.bind _)
  rwa [bind_pure] at h

/-! ## Viable matchers -/

namespace Viable

theorem le {j : Nat} (h : Viable n F m) (hj : j ≤ n) : Viable j F m :=
  ⟨h.visible, h.starts, h.idle, fun s hs => h.fails s (Nat.lt_of_lt_of_le hs hj)⟩

/-- The class of characters may be larger. -/
theorem mono (h : Viable n F m) (sub : ∀ c, F c → G c)
    (visible : ∀ c, G c → Text.isSpace c = false) : Viable n G m := by
  refine ⟨visible, ?_, ?_, fun s hs hread => ?_⟩
  · obtain ⟨w, hw, haccepts⟩ := h.starts
    exact ⟨w, fun c hc => sub c (hw c hc), haccepts⟩
  · rintro s ⟨c, hc, hG⟩
    exact h.idle s ⟨c, hc, fun hF => hG (sub c hF)⟩
  · obtain ⟨f, hf, x, w, hx, hw, haccepts⟩ := h.fails s hs hread
    exact ⟨f, hf, x, w, hx, fun hnil c hc => sub c (hw hnil c hc), haccepts⟩

/-! ### Characters and white space -/

theorem oneOf {p : Char → Bool} {k : Char → Matcher β} (some : ∃ c, p c = true)
    (visible : ∀ c, p c = true → Text.isSpace c = false)
    (hk : ∀ c, p c = true → Viable n F (k c)) : Viable (n + 1) (p · = true) (oneOf p >>= k) := by
  have haccepts : ∀ {c w}, p c = true → (k c).Accepts w →
      (Matcher.oneOf p >>= k).Accepts (c :: w) := by
    rintro c w hc ⟨q, hq⟩
    refine ⟨q, ?_⟩
    rw [read_bind, read_oneOf_cons, if_pos hc]
    exact hq
  obtain ⟨c₀, hc₀⟩ := some
  obtain ⟨w₀, -, hw₀⟩ := (hk c₀ hc₀).starts
  have hstart : ∀ c ∈ (c₀ :: w₀).head?, p c = true := by
    rintro c ⟨⟩
    exact hc₀
  refine ⟨visible, ⟨c₀ :: w₀, hstart, haccepts hc₀ hw₀⟩, ((Heads.oneOf p).bind k).idle visible, ?_⟩
  intro s hs hread
  by_cases hhead : ∃ c ∈ s.head?, p c = true
  · obtain ⟨c, hc, hpc⟩ := hhead
    obtain ⟨t, rfl⟩ := List.head?_eq_some_iff.1 hc
    have hone : Matcher.oneOf p (c :: t) = ⟨.some (c, t), none⟩ := if_pos hpc
    have hbind := bind_of_some_none (k := k) hone
    have hnone : (k c).read t = none := (congrArg Outcome.result hbind).symm.trans hread
    obtain ⟨f, hf, x, w, rfl, -, hw⟩ := (hk c hpc).fails t (Nat.lt_of_succ_lt_succ hs) hnone
    exact ⟨f, hbind.trans hf, c :: x, w, rfl, nofun, haccepts hpc hw⟩
  · obtain ⟨fault, hfail⟩ := Heads.oneOf p s fun c hc hpc => hhead ⟨c, hc, hpc⟩
    exact ⟨_, bind_of_none hfail, [], c₀ :: w₀, rfl, fun _ => hstart, haccepts hc₀ hw₀⟩

theorem char {c : Char} {k : Char → Matcher β} (visible : Text.isSpace c = false)
    (hk : Viable n F (k c)) : Viable (n + 1) (· = c) (char c >>= k) := by
  have h : Viable (n + 1) (fun d => (d == c) = true) (Matcher.oneOf (· == c) >>= k) := by
    refine oneOf (F := F) ⟨c, beq_self_eq_true c⟩ (fun d hd => ?_) fun d hd => ?_
    · rw [eq_of_beq hd]
      exact visible
    · rw [eq_of_beq hd]
      exact hk
  exact h.mono (fun d hd => eq_of_beq hd) fun d hd => hd ▸ visible

theorem word {c : Char} {cs : List Char} {k : Unit → Matcher β}
    (visible : ∀ d ∈ c :: cs, Text.isSpace d = false) (hk : Viable n F (k ())) :
    Viable (n + 1) (· = c) (word (c :: cs) >>= k) := by
  have hword : ∀ c cs, Matcher.word (c :: cs) >>= k =
      Matcher.char c >>= fun _ => Matcher.word cs >>= k := fun c cs =>
    bind_assoc (Matcher.char c) (fun _ => Matcher.word cs) k
  obtain ⟨hfirst, hrest⟩ := List.forall_mem_cons.1 visible
  induction cs generalizing c with
  | nil =>
      rw [hword]
      refine char (F := F) hfirst ?_
      rwa [show Matcher.word [] = Pure.pure () from rfl, pure_bind]
  | cons d cs ih =>
      obtain ⟨hnext, hlast⟩ := List.forall_mem_cons.1 hrest
      rw [hword]
      exact char hfirst ((ih hrest hnext hlast).le (Nat.le_succ n))

theorem space (h : Viable n F m) : Viable n F (space >>= fun _ => m) := by
  refine ⟨h.visible, ?_, h.idle.space, fun s hs hread => ?_⟩
  · obtain ⟨w, hw, p, hp⟩ := h.starts
    refine ⟨w, hw, p, ?_⟩
    rw [read_space_bind, Text.skipSpace_of_head fun c hc => h.visible c (hw c hc)]
    exact hp
  · rw [read_space_bind] at hread
    have hlen : (Text.skipSpace s).length < n :=
      Nat.lt_of_le_of_lt (Text.skipSpace_suffix s).length_le hs
    obtain ⟨f, hf, x, w, hx, hw, p, hp⟩ := h.fails _ hlen hread
    obtain ⟨blank, hblank, hskip⟩ := Text.exists_skipSpace s
    refine ⟨f, (space_bind m s).trans hf, blank ++ x, w, ?_, fun hnil => ?_, p, ?_⟩
    · rw [List.append_assoc, ← hx]
      exact hblank
    · exact hw (List.append_eq_nil_iff.1 hnil).2
    · rw [read_space_bind, List.append_assoc, hskip]
      · exact hp
      · exact forall_head_append hx (Text.isSpace_head_skipSpace s) fun hnil c hc =>
          h.visible c (hw hnil c hc)

theorem padded {k : α → Matcher β}
    (h : Viable n F (m >>= fun a => Matcher.space >>= fun _ => k a)) :
    Viable n F (padded m >>= k) := by
  have hpadded : Matcher.padded m >>= k =
      Matcher.space >>= fun _ => m >>= fun a => Matcher.space >>= fun _ => k a := by
    simp only [Matcher.padded, bind_assoc, pure_bind]
  rw [hpadded]
  exact h.space

/-- Behind a text that has been read, and up to the end of which nothing further was refused, the
failure is that of what comes next. The text before it is completed if the first part is read in the
same way before the completion. -/
theorem fails_behind {k : α → Matcher β} {a : α} {z rest : List Char} {e : Failure}
    (hk : Viable n F (k a)) (hm : m (z ++ rest) = ⟨some (a, rest), some e⟩)
    (he : rest <:+ e.rest) (hs : (z ++ rest).length < n)
    (hread : (m >>= k).read (z ++ rest) = none) :
    ∃ f x w, (m >>= k) (z ++ rest) = ⟨none, some f⟩ ∧ rest = x ++ f.rest ∧
      (x = [] → ∀ c ∈ w.head?, F c) ∧
      (m.read (z ++ (x ++ w)) = some (a, x ++ w) → (m >>= k).Accepts (z ++ x ++ w)) := by
  have hbind := bind_of_some (k := k) hm
  have hlen : rest.length < n := by
    rw [List.length_append] at hs
    omega
  obtain ⟨f, hf, hcomplete⟩ := hk.fails rest hlen
    ((congrArg Outcome.result hbind).symm.trans hread)
  obtain ⟨fault, hafter⟩ := Outcome.exists_after_eq (α := β) (hcomplete.suffix.trans he)
  obtain ⟨x, w, hx, hw, p, hp⟩ := hcomplete
  refine ⟨⟨f.rest, fault⟩, x, w, ?_, hx, hw, fun hagain => ⟨p, ?_⟩⟩
  · rw [hbind, hf, hafter]
  · rw [List.append_assoc]
    exact (read_bind_of_some hagain).trans hp

/-- Behind all characters of one kind there is none of them. -/
theorem run0 {p : Char → Bool} {k : List Char → Matcher β}
    (visible : ∀ c, p c = true → Text.isSpace c = false) (apart : ∀ c, F c → p c = false)
    (hk : ∀ cs, Viable n F (k cs)) : Viable n (fun c => p c = true ∨ F c) (run0 p >>= k) := by
  refine ⟨?_, ?_, ?_, fun s hs hread => ?_⟩
  · rintro c (hc | hc)
    · exact visible c hc
    · exact (hk []).visible c hc
  · obtain ⟨w, hw, q, hq⟩ := (hk []).starts
    have hzero : (Matcher.run0 p).read w = some ([], w) :=
      read_run0_append (List.forall_mem_nil _) fun c hc => apart c (hw c hc)
    exact ⟨w, fun c hc => Or.inr (hw c hc), q, (read_bind_of_some hzero).trans hq⟩
  · rintro s ⟨c, hc, hout⟩
    obtain ⟨hp, hF⟩ := not_or.1 hout
    have hhead : ∀ d ∈ s.head?, p d = false := by
      intro d hd
      refine Bool.eq_false_iff.2 fun hpd => ?_
      rw [Text.skipSpace_of_head fun e he => Option.mem_unique hd he ▸ visible d hpd] at hc
      exact hp (Option.mem_unique hd hc ▸ hpd)
    obtain ⟨f, hf, hle⟩ := (hk []).idle s ⟨c, hc, hF⟩
    have hzero := bind_of_some (k := k) (run0_append (List.forall_mem_nil _) hhead)
    rw [List.nil_append, hf] at hzero
    rw [hzero]
    exact Outcome.exists_after_eq_of_le (Text.skipSpace_suffix s).length_le hle
  · obtain ⟨cs, rest, rfl, hall, hstop⟩ := exists_run p s
    obtain ⟨f, x, w, hf, hx, hw, haccepts⟩ :=
      (hk cs).fails_behind (run0_append hall hstop) (List.suffix_refl rest) hs hread
    refine ⟨f, hf, cs ++ x, w, ?_, fun hnil c hc => ?_, haccepts ?_⟩
    · rw [List.append_assoc, ← hx]
    · exact Or.inr (hw (List.append_eq_nil_iff.1 hnil).2 c hc)
    · refine read_run0_append hall (forall_head_append hx hstop fun hnil c hc => ?_)
      exact apart c (hw hnil c hc)

theorem finish {k : Unit → Matcher β} (visible : ∀ c, F c → Text.isSpace c = false)
    (hk : (k ()).Accepts []) : Viable n F (finish >>= k) := by
  have haccepts : (Matcher.finish >>= k).Accepts [] := by
    obtain ⟨q, hq⟩ := hk
    exact ⟨q, hq⟩
  have hfail : ∀ s ≠ [], (Matcher.finish >>= k) s = ⟨none, some ⟨s, .unexpected⟩⟩ := fun s hs =>
    bind_of_none (if_neg hs)
  refine ⟨visible, ⟨[], nofun, haccepts⟩, ?_, fun s _ hread => ?_⟩
  · rintro s ⟨c, hc, -⟩
    refine ⟨_, hfail s ?_, (Text.skipSpace_suffix s).length_le⟩
    rintro rfl
    cases hc
  · have hs : s ≠ [] := by
      rintro rfl
      obtain ⟨q, hq⟩ := haccepts
      rw [hread] at hq
      cases hq
    exact ⟨_, hfail s hs, [], [], rfl, fun _ => nofun, haccepts⟩

end Viable

/-! ## Alternatives -/

/-- A failure on a text shorter than `n` either comes behind a character of the class, which then is
the first one behind white space, or comes again however the text goes on behind it. -/
def Predicts (n : Nat) (P : Char → Prop) (m : Matcher α) : Prop :=
  ∀ s f, s.length < n → m s = ⟨none, some f⟩ →
    ((∃ c ∈ (Text.skipSpace s).head?, P c) ∧ f.rest.length ≤ (Text.skipSpace s).length) ∨
      ∀ x y w, s = x ++ y → y.length < f.rest.length → m.read (x ++ w) = none

section Predicts

variable {yes : α → Matcher β}

theorem Viable.suffix_of_none (h : Viable n F (m >>= yes)) {s : List Char} {f : Failure}
    (hs : s.length < n) (hf : m s = ⟨none, some f⟩) : f.rest <:+ s := by
  have hbind := bind_of_none (k := yes) hf
  obtain ⟨g, hg, hcomplete⟩ := h.fails s hs (congrArg Outcome.result hbind)
  have heq : some g = some f := congrArg Outcome.failure (hg.symm.trans hbind)
  exact Option.some.inj heq ▸ hcomplete.suffix

/-- The head of a text decides what a matcher with heads does with it. -/
theorem Viable.predicts (h : Viable n F (m >>= yes)) (hm : Heads P m)
    (visible : ∀ c, P c → Text.isSpace c = false) : Predicts n P m := by
  intro s f hs hf
  have hsuffix := h.suffix_of_none hs hf
  by_cases hhead : ∃ c ∈ s.head?, P c
  · obtain ⟨c, hc, hP⟩ := hhead
    have hspace : Text.skipSpace s = s :=
      Text.skipSpace_of_head fun d hd => Option.mem_unique hc hd ▸ visible c hP
    exact Or.inl ⟨⟨c, by rwa [hspace], hP⟩, by rw [hspace]; exact hsuffix.length_le⟩
  · exact Or.inr fun x y w hxy hlt =>
      hm.read_append_eq_none (fun c hc hP => hhead ⟨c, hc, hP⟩) hf hxy hlt w

/-- So does the first character behind white space where that is skipped. -/
theorem Viable.predicts_space (h : Viable n F (m >>= yes)) (hm : Heads P m) :
    Predicts n P (Matcher.space >>= fun _ => m) := by
  intro s f hs hf
  rw [space_bind] at hf
  have hsuffix := h.suffix_of_none
    (Nat.lt_of_le_of_lt (Text.skipSpace_suffix s).length_le hs) hf
  by_cases hhead : ∃ c ∈ (Text.skipSpace s).head?, P c
  · exact Or.inl ⟨hhead, hsuffix.length_le⟩
  · refine Or.inr fun x y w hxy hlt => ?_
    obtain ⟨blank, hblank, hskip⟩ := Text.exists_skipSpace s
    have hlength := hsuffix.length_le
    cases hrest : Text.skipSpace s with
    | nil =>
        rw [hrest, List.length_nil] at hlength
        omega
    | cons d t =>
        -- The text before `y` reaches beyond the white space and the character behind it.
        obtain ⟨x', rfl⟩ : ∃ x', x = blank ++ d :: x' := by
          rw [hrest] at hblank hlength
          have hprefix : blank ++ [d] <+: x := by
            have hfront : blank ++ [d] <+: s := ⟨t, by simp [← hblank]⟩
            refine List.prefix_of_prefix_length_le hfront ⟨y, hxy.symm⟩ ?_
            have htotal := congrArg List.length (hblank.symm.trans hxy)
            simp only [List.length_append, List.length_cons, List.length_nil] at htotal hlength ⊢
            omega
          obtain ⟨x', rfl⟩ := hprefix
          exact ⟨x', by simp⟩
        have hd : Text.isSpace d = false :=
          Text.isSpace_head_skipSpace s d (by rw [hrest]; rfl)
        rw [read_space_bind, List.append_assoc, hskip]
        · refine hm.read_eq_none ?_
          rintro c ⟨⟩ hP
          exact hhead ⟨d, by rw [hrest]; rfl, hP⟩
        · rintro c ⟨⟩
          exact hd

end Predicts

namespace Viable

section Choose

variable {yes : α → Matcher β} {no : Matcher β}

/-- Where the second alternative gets further than the first, the first fails again on the completed
text; where it does not, the first one is completed. -/
theorem choose (hyes : Viable n F (m >>= yes)) (hno : Viable n G no) (idle : Idle F m)
    (predicts : Predicts n P m) (apart : ∀ c, P c → ¬ G c) :
    Viable n (fun c => F c ∨ G c) (choose m yes no) := by
  have haccepts : ∀ {s}, (m >>= yes).Accepts s → (Matcher.choose m yes no).Accepts s := by
    rintro s ⟨⟨b, rest⟩, hq⟩
    exact ⟨(b, rest), read_choose_of_some hq⟩
  refine ⟨?_, ?_, idle.choose hno.idle, fun s hs hread => ?_⟩
  · rintro c (hc | hc)
    · exact hyes.visible c hc
    · exact hno.visible c hc
  · obtain ⟨w, hw, hstart⟩ := hyes.starts
    exact ⟨w, fun c hc => Or.inl (hw c hc), haccepts hstart⟩
  obtain ⟨a, middle, e, hm⟩ | ⟨e, hm⟩ := outcome_cases m s
  · have hchoose : Matcher.choose m yes no s = (m >>= yes) s := choose_of_some hm
    obtain ⟨f, hf, x, w, hx, hw, hcomplete⟩ :=
      hyes.fails s hs ((congrArg Outcome.result hchoose).symm.trans hread)
    exact ⟨f, hchoose.trans hf, x, w, hx, fun hnil c hc => Or.inl (hw hnil c hc),
      haccepts hcomplete⟩
  have hbind := bind_of_none (k := yes) hm
  obtain ⟨f, hf, hcomplete⟩ := hyes.fails s hs (congrArg Outcome.result hbind)
  obtain rfl : e = some f := congrArg Outcome.failure (hbind.symm.trans hf)
  have hnone : m.read s = none := congrArg Outcome.result hm
  rw [read_choose_of_none hnone] at hread
  obtain ⟨g, hg, hcomplete'⟩ := hno.fails s hs hread
  obtain ⟨fault, hfurthest⟩ := exists_furthest_eq hcomplete.suffix hcomplete'.suffix
  have hfail : Matcher.choose m yes no s = ⟨none, furthest (some f) (some g)⟩ := by
    rw [choose_of_none hm, hg]
    rfl
  refine ⟨_, hfail.trans (congrArg (Outcome.mk none) hfurthest), ?_⟩
  by_cases hlt : g.rest.length < f.rest.length
  · simp only [if_pos hlt]
    obtain ⟨x, w, hx, hw, q, hq⟩ := hcomplete'
    refine ⟨x, w, hx, fun hnil c hc => Or.inr (hw hnil c hc), q, ?_⟩
    rw [read_choose_of_none ?_, hq]
    obtain ⟨⟨c, hc, hP⟩, hle⟩ | again := predicts s f hs hm
    · obtain ⟨g', hg', hle'⟩ := hno.idle s ⟨c, hc, apart c hP⟩
      obtain rfl : g' = g := Option.some.inj (congrArg Outcome.failure (hg'.symm.trans hg))
      omega
    · exact again x g.rest w hx hlt
  · simp only [if_neg hlt]
    obtain ⟨x, w, hx, hw, haccept⟩ := hcomplete
    exact ⟨x, w, hx, fun hnil c hc => Or.inl (hw hnil c hc), haccepts haccept⟩

/-- The first character decides between alternatives. -/
theorem choose_heads (hyes : Viable n F (m >>= yes)) (hno : Viable n G no) (hm : Heads F m)
    (apart : ∀ c, F c → ¬ G c) : Viable n (fun c => F c ∨ G c) (Matcher.choose m yes no) :=
  hyes.choose hno (hm.idle hyes.visible) (hyes.predicts hm hyes.visible) apart

/-- The first character behind white space decides between alternatives. -/
theorem choose_space (hyes : Viable n F (m >>= yes)) (hno : Viable n G no) (hm : Heads F m)
    (apart : ∀ c, F c → ¬ G c) :
    Viable n (fun c => F c ∨ G c) (Matcher.choose (Matcher.space >>= fun _ => m) yes no) := by
  have hspace := hyes.space
  rw [← bind_assoc] at hspace
  exact hspace.choose hno (hm.idle hyes.visible).space (hyes.predicts_space hm) apart

end Choose

/-- Each round of a repetition begins with a character that nothing behind the repetition begins
with. -/
theorem many {k : List α → Matcher β} (advances : m.Advances) (idle : Idle F m)
    (apart : ∀ c, F c → ¬ G c)
    (round : ∀ j ≤ n, ∀ yes : α → Matcher β, (∀ a, Viable j (fun c => F c ∨ G c) (yes a)) →
      Viable (j + 1) F (m >>= yes) ∧ Predicts (j + 1) F m)
    (visible : ∀ c, F c → Text.isSpace c = false) (hk : ∀ as, Viable n G (k as)) :
    Viable n (fun c => F c ∨ G c) (many m >>= k) := by
  induction n generalizing k with
  | zero =>
      have hno := hk []
      rw [many_bind advances]
      refine ⟨?_, ?_, idle.choose hno.idle, fun s hs => absurd hs (Nat.not_lt_zero _)⟩
      · rintro c (hc | hc)
        · exact visible c hc
        · exact hno.visible c hc
      · obtain ⟨w, hw, q, hq⟩ := hno.starts
        refine ⟨w, fun c hc => Or.inr (hw c hc), q, ?_⟩
        rw [read_choose_of_none ?_, hq]
        cases w with
        | nil =>
            cases hread : m.read [] with
            | none => rfl
            | some p => exact absurd (advances [] p.1 p.2 hread) (Nat.not_lt_zero _)
        | cons c w =>
            have hspace : Text.skipSpace (c :: w) = c :: w :=
              Text.skipSpace_cons_self (hno.visible c (hw c rfl)) w
            obtain ⟨f, hf, -⟩ := idle (c :: w)
              ⟨c, by rw [hspace]; rfl, fun hF => apart c hF (hw c rfl)⟩
            exact congrArg Outcome.result hf
  | succ j ih =>
      have hrest : ∀ a, Viable j (fun c => F c ∨ G c)
          (Matcher.many m >>= fun as => k (a :: as)) := fun a =>
        ih (fun i hi => round i (Nat.le_succ_of_le hi)) fun as => (hk (a :: as)).le (Nat.le_succ j)
      obtain ⟨hyes, hpredicts⟩ := round j (Nat.le_succ j) _ hrest
      rw [many_bind advances]
      exact hyes.choose (hk []) idle hpredicts apart

theorem many_heads {k : List α → Matcher β} (advances : m.Advances) (hm : Heads F m)
    (visible : ∀ c, F c → Text.isSpace c = false) (apart : ∀ c, F c → ¬ G c)
    (round : ∀ j ≤ n, ∀ yes : α → Matcher β, (∀ a, Viable j (fun c => F c ∨ G c) (yes a)) →
      Viable (j + 1) F (m >>= yes))
    (hk : ∀ as, Viable n G (k as)) : Viable n (fun c => F c ∨ G c) (Matcher.many m >>= k) := by
  refine many advances (hm.idle visible) apart (fun j hj yes hyes => ?_) visible hk
  have hround := round j hj yes hyes
  exact ⟨hround, hround.predicts hm visible⟩

theorem many_space {k : List α → Matcher β}
    (advances : (Matcher.space >>= fun _ => m).Advances) (hm : Heads F m)
    (visible : ∀ c, F c → Text.isSpace c = false) (apart : ∀ c, F c → ¬ G c)
    (round : ∀ j ≤ n, ∀ yes : α → Matcher β, (∀ a, Viable j (fun c => F c ∨ G c) (yes a)) →
      Viable (j + 1) F (m >>= yes))
    (hk : ∀ as, Viable n G (k as)) :
    Viable n (fun c => F c ∨ G c) (Matcher.many (Matcher.space >>= fun _ => m) >>= k) := by
  refine many advances (hm.idle visible).space apart (fun j hj yes hyes => ?_) visible hk
  have hround := round j hj yes hyes
  have hspace := hround.space
  rw [← bind_assoc] at hspace
  exact ⟨hspace, hround.predicts_space hm⟩

end Viable

/-- A text that is not read as a whole has a beginning that can be completed to one that is. -/
theorem exists_completion_of_parse_eq_error {s : List Char} {e : SyntaxError}
    (hm : Viable (s.length + 1) F (do let a ← m; finish; return a : Matcher α))
    (h : m.parse s = .error e) :
    ∃ (f : Failure) (x w : List Char) (a : α), e = .ofFailure s f ∧ s = x ++ f.rest ∧
      m.parse (x ++ w) = .ok a := by
  obtain ⟨a, rest, f, hrun⟩ | ⟨f, hrun⟩ :=
      outcome_cases (do let a ← m; finish; return a : Matcher α) s
  · rw [parse_of_some hrun] at h
    cases h
  · obtain ⟨g, hg, x, w, hs, -, ⟨a, rest⟩, hread⟩ :=
      hm.fails s (Nat.lt_succ_self _) (congrArg Outcome.result hrun)
    rw [parse_of_none hg] at h
    obtain ⟨failure, hwhole⟩ := exists_outcome_of_read hread
    exact ⟨g, x, w, a, (Except.error.inj h).symm, hs, parse_of_some hwhole⟩

end EventQuery.Grammar.Matcher
