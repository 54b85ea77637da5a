import Mathlib.Data.Bool.AllAny
import EventQuery.Proofs.Grammar.Comparison
import EventQuery.Proofs.Grammar.Viability

/-!
# Failures in names, numbers, strings and operators

Where a lexeme ends without a mark of its own, as names, digits and bare values do, what comes
behind it must not begin with a character that continues it. A string whose closing mark is missing
fails at the end of the text, and one more mark completes it. A number out of range is refused where
it begins, and another number in its place is not.

Longer operators are tried before the shorter ones they begin with. They share their first
characters, but a word that fails within a text fails there whatever comes behind.
-/

namespace EventQuery.Grammar

open Matcher

variable {β : Type} {n : Nat} {F : Char → Prop}

/-! ## Names -/

theorem isSpace_of_isNameChar {c : Char} (h : isNameChar c = true) : Text.isSpace c = false := by
  have hcases : c.isAlphanum = true ∨ c = '-' ∨ c = '_' := by
    simpa [isNameChar, or_assoc] using h
  rcases hcases with h | rfl | rfl
  · exact Text.isSpace_of_isAlphanum h
  · decide
  · decide

theorem viable_fieldName {k : String → Matcher β} (apart : ∀ c, F c → isNameChar c = false)
    (hk : ∀ name, Viable n F (k name)) :
    Viable (n + 1) (·.isAlpha = true) (fieldName >>= k) := by
  have hname : fieldName >>= k = oneOf Char.isAlpha >>= fun c =>
      run0 isNameChar >>= fun cs => k (String.ofList (c :: cs)) := by
    simp only [fieldName, bind_assoc, pure_bind]
  have hrest : ∀ c, Viable n (fun d => isNameChar d = true ∨ F d)
      (run0 isNameChar >>= fun cs => k (String.ofList (c :: cs))) := fun c =>
    .run0 (fun d hd => isSpace_of_isNameChar hd) apart fun cs => hk _
  rw [hname]
  exact .oneOf ⟨'a', by decide⟩ (fun c hc => Text.isSpace_of_isAlpha hc) fun c _ => hrest c

theorem heads_fieldName : Heads (·.isAlpha = true) fieldName := (Heads.oneOf Char.isAlpha).bind _

/-! ## Quoted strings -/

theorem quotedBody_mark (q : Char) (t : List Char) :
    quotedBody q (q :: t) = ⟨some ([], t), some ⟨q :: t, .unexpected⟩⟩ := by
  rw [quotedBody.eq_def]
  exact if_pos rfl

theorem quotedBody_plain {q c : Char} (hq : c ≠ q) (hslash : c ≠ '\\') (t : List Char) :
    quotedBody q (c :: t) =
      ⟨(quotedBody q t).result.map fun p => (c :: p.1, p.2), (quotedBody q t).failure⟩ := by
  rw [quotedBody.eq_def]
  simp only [if_neg hq, if_neg hslash]

theorem quotedBody_slash {q : Char} (hq : q ≠ '\\') (d : Char) (t : List Char) :
    quotedBody q ('\\' :: d :: t) =
      ⟨(quotedBody q t).result.map fun p =>
        ((if d = q ∨ d = '\\' then [d] else ['\\', d]) ++ p.1, p.2), (quotedBody q t).failure⟩ := by
  rw [quotedBody.eq_def]
  simp only [if_neg hq.symm, if_pos]

/-- A string up to its mark, whatever follows, or a string without its mark, which a character and
the mark complete. The character keeps a backslash at the end from hiding the mark. -/
theorem quotedBody_cases {q : Char} (hq : q ≠ '\\') (hx : 'x' ≠ q) (s : List Char) :
    (∃ z body rest, s = z ++ q :: rest ∧
      ∀ t, quotedBody q (z ++ q :: t) = ⟨some (body, t), some ⟨q :: t, .unexpected⟩⟩) ∨
    (quotedBody q s = ⟨none, some ⟨[], .unexpected⟩⟩ ∧
      ∃ body, ∀ t, (quotedBody q (s ++ 'x' :: q :: t)).result = some (body, t)) := by
  have hslash : ('x' : Char) ≠ '\\' := by decide
  induction s using quotedBody.induct q with
  | case1 =>
      refine Or.inr ⟨rfl, ['x'], fun t => ?_⟩
      rw [List.nil_append, quotedBody_plain hx hslash, quotedBody_mark]
      rfl
  | case2 s => exact Or.inl ⟨[], [], s, rfl, quotedBody_mark q⟩
  | case3 =>
      refine Or.inr ⟨?_, ['\\', 'x'], fun t => ?_⟩
      · rw [quotedBody.eq_def]
        simp only [if_neg hq.symm, if_pos]
      · rw [List.cons_append, List.nil_append, quotedBody_slash hq, quotedBody_mark,
          if_neg (not_or.2 ⟨hx, hslash⟩)]
        rfl
  | case4 d s _ ih =>
      have hescape := quotedBody_slash hq d
      generalize (if d = q ∨ d = '\\' then [d] else ['\\', d]) = kept at hescape
      obtain ⟨z, body, rest, rfl, hread⟩ | ⟨hnone, body, hread⟩ := ih
      · refine Or.inl ⟨'\\' :: d :: z, kept ++ body, rest, rfl, fun t => ?_⟩
        rw [List.cons_append, List.cons_append, hescape, hread]
        rfl
      · refine Or.inr ⟨by rw [hescape, hnone]; rfl, kept ++ body, fun t => ?_⟩
        rw [List.cons_append, List.cons_append, hescape, hread]
        rfl
  | case5 c s hmark hplain ih =>
      obtain ⟨z, body, rest, rfl, hread⟩ | ⟨hnone, body, hread⟩ := ih
      · refine Or.inl ⟨c :: z, c :: body, rest, rfl, fun t => ?_⟩
        rw [List.cons_append, quotedBody_plain hmark hplain, hread]
        rfl
      · refine Or.inr ⟨by rw [quotedBody_plain hmark hplain, hnone]; rfl, c :: body, fun t => ?_⟩
        rw [List.cons_append, quotedBody_plain hmark hplain, hread]
        rfl

theorem viable_quotedBody {q : Char} (hslash : q ≠ '\\') (hx : 'x' ≠ q)
    (visible : Text.isSpace q = false) {k : List Char → Matcher β}
    (hk : ∀ body, Viable n F (k body)) :
    Viable n (Text.isSpace · = false) ((quotedBody q : Matcher (List Char)) >>= k) := by
  refine ⟨fun _ h => h, ?_, ?_, fun s hs hread => ?_⟩
  · obtain ⟨w, -, p, hp⟩ := (hk []).starts
    refine ⟨q :: w, ?_, p, ?_⟩
    · rintro c ⟨⟩
      exact visible
    · have hmark : Matcher.read (quotedBody q) (q :: w) = some ([], w) :=
        quotedBody_escape hslash [] w
      exact (read_bind_of_some hmark).trans hp
  · rintro s ⟨c, hc, hspace⟩
    exact absurd (Text.isSpace_head_skipSpace s c hc) hspace
  obtain ⟨z, body, rest, rfl, hbody⟩ | ⟨hnone, body, hbody⟩ := quotedBody_cases hslash hx s
  · have hsplit : ∀ t, z ++ q :: t = (z ++ [q]) ++ t := fun t => by simp
    rw [hsplit] at hs hread ⊢
    obtain ⟨f, x, w, hf, hx, -, haccepts⟩ := (hk body).fails_behind
      ((congrArg _ (hsplit rest)).symm.trans (hbody rest)) (List.suffix_cons q rest) hs hread
    refine ⟨f, hf, (z ++ [q]) ++ x, w, ?_, fun hnil => ?_, haccepts ?_⟩
    · rw [List.append_assoc (z ++ [q]), ← hx]
    · simp at hnil
    · rw [← hsplit]
      exact congrArg Outcome.result (hbody (x ++ w))
  · obtain ⟨w, -, p, hp⟩ := (hk body).starts
    refine ⟨_, bind_of_none hnone, s, 'x' :: q :: w, (List.append_nil s).symm, fun _ => ?_, p, ?_⟩
    · rintro c ⟨⟩
      decide
    · have hclosed : Matcher.read (quotedBody q) (s ++ 'x' :: q :: w) = some (body, w) := hbody w
      exact (read_bind_of_some hclosed).trans hp

section Quoted

variable {q : Char} {k : String → Matcher β}

theorem viable_quotedBy (hslash : q ≠ '\\') (hx : 'x' ≠ q) (visible : Text.isSpace q = false)
    (hk : ∀ s, Viable n F (k s)) : Viable (n + 1) (· = q) (quotedBy q >>= k) := by
  have hbody := viable_quotedBody hslash hx visible fun body => hk (String.ofList body)
  have hquoted : quotedBy q >>= k = char q >>= fun _ =>
      Bind.bind (m := Matcher) (quotedBody q) fun body => k (String.ofList body) := by
    rw [quotedBy, bind_assoc]
    exact congrArg (char q >>= ·) (funext fun _ => bind_pure_bind (quotedBody q) _ k)
  rw [hquoted]
  exact .char visible hbody

theorem heads_quotedBy (q : Char) : Heads (· = q) (quotedBy q) := (Heads.char q).bind _

/-- A string fails at its opening mark or at the end of the text. -/
theorem predicts_quotedBy (hslash : q ≠ '\\') (hx : 'x' ≠ q) (n : Nat) :
    Predicts n (fun _ => False) (quotedBy q) := by
  intro s f _ hf
  refine Or.inr fun x y w hxy hlt => ?_
  by_cases hhead : ∃ c ∈ s.head?, c = q
  · obtain ⟨c, hc, rfl⟩ := hhead
    obtain ⟨t, rfl⟩ := List.head?_eq_some_iff.1 hc
    have hchar : char c (c :: t) = ⟨some (c, t), none⟩ := if_pos (beq_self_eq_true c)
    have hquoted : quotedBy c (c :: t) =
        ((quotedBody c : Matcher (List Char)) >>= fun body => pure (String.ofList body)) t :=
      bind_of_some_none hchar
    obtain ⟨z, body, rest, rfl, hbody⟩ | ⟨hnone, -⟩ := quotedBody_cases hslash hx t
    · rw [hquoted, bind_of_some (hbody rest)] at hf
      cases hf
    · rw [hquoted, bind_of_none hnone] at hf
      cases hf
      exact absurd hlt (Nat.not_lt_zero _)
  · have hnone : ∀ c ∈ s.head?, ¬ c = q := fun c hc heq => hhead ⟨c, hc, heq⟩
    exact (heads_quotedBy q).read_append_eq_none hnone hf hxy hlt w

/-- The quotation marks. -/
def isQuote (c : Char) : Prop := c = '"' ∨ c = '\''

theorem viable_quotedString (hk : ∀ s, Viable n F (k s)) :
    Viable (n + 1) isQuote (quotedString >>= k) := by
  have hdouble := viable_quotedBy (q := '"') (by decide) (by decide) (by decide) hk
  have hsingle := viable_quotedBy (q := '\'') (by decide) (by decide) (by decide) hk
  rw [quotedString, orElse_bind]
  refine hdouble.choose_heads hsingle (heads_quotedBy '"') ?_
  rintro c rfl
  decide

theorem heads_quotedString : Heads isQuote quotedString :=
  (heads_quotedBy '"').orElse (heads_quotedBy '\'')

end Quoted

/-! ## Bare values -/

/-- The value at the beginning of the text, up to `rest`, ends at the same place before every text
that begins alike, and one character later before every text that ends a value. -/
structure BareParts (s z body rest : List Char) : Prop where
  text : s = z ++ rest
  alike : ∀ t, t.head? = rest.head? → bareBody (z ++ t) = (body, t)
  longer : ∀ t, EndsValue t → bareBody (z ++ 'x' :: t) = (body ++ ['x'], t)

theorem bareParts_nil {s : List Char}
    (h : ∀ t : List Char, t.head? = s.head? → bareBody t = ([], t)) : BareParts s [] [] s :=
  ⟨rfl, h, fun t ht => @bareBody_append ['x'] t (List.forall_mem_singleton.2 (by decide)) ht⟩

theorem bareParts_empty : BareParts [] [] [] [] :=
  bareParts_nil fun t ht => by
    rw [List.head?_eq_none_iff.1 ht]
    rfl

theorem BareParts.cons {c : Char} {s z body rest : List Char} (h : BareParts s z body rest)
    (hc : (isReserved c || Text.isSpace c) = false)
    (hs : c = '\\' → ∀ d ∈ s.head?, isReserved d = false) :
    BareParts (c :: s) (c :: z) (c :: body) rest := by
  obtain ⟨rfl, halike, hlonger⟩ := h
  refine ⟨rfl, fun t ht => ?_, fun t ht => ?_⟩
  · have hhead : (z ++ t).head? = (z ++ rest).head? := by
      cases z with
      | nil => exact ht
      | cons d z => rfl
    rw [List.cons_append, bareBody_of_plain hc (by rwa [hhead]), halike t ht]
  · have hhead : c = '\\' → ∀ d ∈ (z ++ 'x' :: t).head?, isReserved d = false := by
      intro hslash d hd
      cases z with
      | nil =>
          cases hd
          decide
      | cons e z =>
          cases hd
          exact hs hslash d rfl
    rw [List.cons_append, bareBody_of_plain hc hhead, hlonger t ht]
    rfl

theorem exists_bareParts (s : List Char) : ∃ z body rest, BareParts s z body rest := by
  fun_induction bareBody s with
  | case1 => exact ⟨[], [], [], bareParts_empty⟩
  | case2 c s hstop =>
      refine ⟨[], [], c :: s, bareParts_nil fun t ht => ?_⟩
      obtain ⟨t, rfl⟩ := List.head?_eq_some_iff.1 ht
      exact bareBody_of_stop hstop t
  | case3 d s hd _ _ _ _ ih =>
      obtain ⟨z, body, rest, rfl, halike, hlonger⟩ := ih
      refine ⟨'\\' :: d :: z, d :: body, rest, rfl, fun t ht => ?_, fun t ht => ?_⟩
      · rw [List.cons_append, List.cons_append, bareBody_escaped hd, halike t ht]
      · rw [List.cons_append, List.cons_append, bareBody_escaped hd, hlonger t ht]
        rfl
  | case4 d s hd _ _ _ hstop ih =>
      obtain ⟨z, body, rest, hparts⟩ := ih
      refine ⟨_, _, rest, hparts.cons (by decide) fun _ => ?_⟩
      rintro _ ⟨⟩
      exact Bool.eq_false_iff.2 hd
  | case5 c s hslash _ _ _ hstop ih =>
      obtain ⟨z, body, rest, hparts⟩ := ih
      refine ⟨_, _, rest, hparts.cons (Bool.eq_false_iff.2 hstop) fun hc d hd => ?_⟩
      obtain ⟨t, ht⟩ := List.head?_eq_some_iff.1 hd
      exact (hslash d t hc ht).elim

/-- The characters that a value without quotation marks may begin with. -/
def isOrdinary (c : Char) : Prop := isReserved c = false ∧ Text.isSpace c = false

theorem heads_bareValue : Heads isOrdinary bareValue := by
  intro s hs
  refine ⟨.unexpected, ?_⟩
  cases s with
  | nil => rfl
  | cons c s =>
      have hstop : (isReserved c || Text.isSpace c) = true := by
        by_contra hplain
        exact hs c rfl (by simpa [isOrdinary] using hplain)
      rw [bareValue, bareBody_of_stop hstop]
      rfl

section Bare

variable {k : String → Matcher β}

theorem BareParts.exists_accepts {s z body rest : List Char} (h : BareParts s z body rest)
    (reserved : ∀ c, F c → isReserved c = true) (hk : ∀ v, Viable n F (k v)) :
    ∃ w, (bareValue >>= k).Accepts (z ++ 'x' :: w) := by
  obtain ⟨w, hw, p, hp⟩ := (hk (String.ofList (body ++ ['x']))).starts
  have hread : bareValue.read (z ++ 'x' :: w) = some (String.ofList (body ++ ['x']), w) := by
    rw [read_bareValue, h.longer w fun c hc => Or.inl (reserved c (hw c hc))]
    simp
  exact ⟨w, p, (read_bind_of_some hread).trans hp⟩

theorem viable_bareValue (reserved : ∀ c, F c → isReserved c = true)
    (hk : ∀ v, Viable n F (k v)) : Viable n isOrdinary (bareValue >>= k) := by
  have hordinary : ∀ w, ∀ c ∈ ('x' :: w).head?, isOrdinary c := by
    rintro w _ ⟨⟩
    exact ⟨by decide, by decide⟩
  refine ⟨fun c hc => hc.2, ?_, (heads_bareValue.bind k).idle fun c hc => hc.2,
    fun s hs hread => ?_⟩
  · obtain ⟨w, hw⟩ := bareParts_empty.exists_accepts reserved hk
    exact ⟨'x' :: w, hordinary w, hw⟩
  obtain ⟨z, body, rest, hparts⟩ := exists_bareParts s
  obtain rfl := hparts.text
  obtain ⟨w₀, hw₀⟩ := hparts.exists_accepts reserved hk
  have hbare : ∀ t, t.head? = rest.head? → bareValue (z ++ t) =
      ⟨if body = [] then none else some (String.ofList body, t), some ⟨t, .unexpected⟩⟩ := by
    intro t ht
    rw [bareValue, hparts.alike t ht]
  by_cases hbody : body = []
  · have hnone := hbare rest rfl
    rw [if_pos hbody] at hnone
    exact ⟨_, bind_of_none hnone, z, 'x' :: w₀, rfl, fun _ => hordinary w₀, hw₀⟩
  have hsome := hbare rest rfl
  rw [if_neg hbody] at hsome
  obtain ⟨f, x, w, hf, hx, -, haccepts⟩ :=
    (hk _).fails_behind hsome (List.suffix_refl rest) hs hread
  refine ⟨f, hf, ?_⟩
  cases x with
  | nil =>
      -- Before the end of the value there is room for one more character.
      rw [List.nil_append] at hx
      exact ⟨z, 'x' :: w₀, congrArg (z ++ ·) hx, fun _ => hordinary w₀, hw₀⟩
  | cons c x =>
      refine ⟨z ++ c :: x, w, ?_, fun hnil => ?_, haccepts ?_⟩
      · rw [List.append_assoc, ← hx]
      · exact absurd (List.append_eq_nil_iff.1 hnil).2 (List.cons_ne_nil c x)
      · refine (congrArg Outcome.result (hbare (c :: (x ++ w)) ?_)).trans (if_neg hbody)
        rw [hx]
        rfl

end Bare

theorem viable_operand {k : Value → Matcher β} (reserved : ∀ c, F c → isReserved c = true)
    (hk : ∀ v, Viable n F (k v)) : Viable n isOrdinary (operand >>= k) := by
  have hoperand : operand >>= k = choose (quotedBy '"') (fun s => k (.text s))
      (choose (quotedBy '\'') (fun s => k (.text s)) (bareValue >>= fun s => k (.text s))) := by
    rw [operand, quotedString, orElse_assoc, bind_assoc, orElse_bind, orElse_bind]
    simp only [pure_bind]
  have hdouble := (viable_quotedBy (q := '"') (by decide) (by decide) (by decide)
    fun s => hk (.text s)).le (Nat.le_succ n)
  have hsingle := (viable_quotedBy (q := '\'') (by decide) (by decide) (by decide)
    fun s => hk (.text s)).le (Nat.le_succ n)
  have hbare := viable_bareValue reserved fun s => hk (.text s)
  have hrest := hsingle.choose hbare ((heads_quotedBy '\'').idle hsingle.visible)
    (predicts_quotedBy (by decide) (by decide) n) fun _ => False.elim
  have hall := hdouble.choose hrest ((heads_quotedBy '"').idle hdouble.visible)
    (predicts_quotedBy (by decide) (by decide) n) fun _ => False.elim
  rw [hoperand]
  refine hall.mono ?_ fun c hc => hc.2
  rintro c (rfl | rfl | hc)
  · exact ⟨by decide, by decide⟩
  · exact ⟨by decide, by decide⟩
  · exact hc

/-! ## Integers -/

/-- The sign of a number. -/
def signText (negative : Bool) : List Char := if negative then ['-'] else []

theorem exists_sign (s : List Char) :
    ∃ negative t, s = signText negative ++ t ∧ (negative = false → ∀ c ∈ t.head?, c ≠ '-') := by
  by_cases h : ∃ c ∈ s.head?, c = '-'
  · obtain ⟨c, hc, rfl⟩ := h
    obtain ⟨t, rfl⟩ := List.head?_eq_some_iff.1 hc
    exact ⟨true, t, rfl, nofun⟩
  · exact ⟨false, s, rfl, fun _ c hc heq => h ⟨c, hc, heq⟩⟩

/-- Behind the sign come the digits. A missing sign is reported where they begin. -/
theorem signedDigits_sign {negative : Bool} {t : List Char}
    (h : negative = false → ∀ c ∈ t.head?, c ≠ '-') :
    ∃ f : Option Failure, (∀ e ∈ f, e.rest = t) ∧ signedDigits (signText negative ++ t) =
      ((run1 Char.isDigit >>= fun ds => Pure.pure (negative, ds)) t).after f := by
  cases negative with
  | true => exact ⟨none, nofun, bind_of_some (rfl : optional (char '-') ('-' :: t) = _)⟩
  | false =>
      obtain ⟨fault, hfail⟩ := Heads.char '-' t (h rfl)
      have hoptional : Matcher.optional (char '-') t = ⟨some (none, t), some ⟨t, fault⟩⟩ := by
        rw [Matcher.optional, hfail]
      refine ⟨some ⟨t, fault⟩, ?_, bind_of_some hoptional⟩
      rintro _ ⟨⟩
      rfl

theorem signedDigits_append {negative : Bool} {ds t : List Char} (hne : ds ≠ [])
    (digits : ∀ d ∈ ds, d.isDigit = true) (stop : ∀ c ∈ t.head?, c.isDigit = false) :
    signedDigits (signText negative ++ (ds ++ t)) =
      ⟨some ((negative, ds), t), some ⟨t, .unexpected⟩⟩ := by
  have hsign : negative = false → ∀ c ∈ (ds ++ t).head?, c ≠ '-' := by
    rintro - c hc rfl
    cases ds with
    | nil => exact hne rfl
    | cons d ds =>
        cases hc
        exact absurd (digits '-' List.mem_cons_self) (by decide)
  obtain ⟨f, hf, hsigned⟩ := signedDigits_sign hsign
  have hdigits : (run1 Char.isDigit >>= fun ds => (Pure.pure (negative, ds) : Matcher _))
      (ds ++ t) = ⟨some ((negative, ds), t), some ⟨t, .unexpected⟩⟩ :=
    (bind_of_some (run1_append hne digits stop)).trans rfl
  rw [hsigned, hdigits]
  refine congrArg (Outcome.mk _) ?_
  cases f with
  | none => rfl
  | some e =>
      have hlt : t.length < e.rest.length := by
        rw [hf e rfl, List.length_append]
        have := List.length_pos_iff.2 hne
        omega
      rw [furthest]
      exact if_pos hlt

theorem signedDigits_of_no_digit {negative : Bool} {t : List Char}
    (hsign : negative = false → ∀ c ∈ t.head?, c ≠ '-')
    (stop : ∀ c ∈ t.head?, c.isDigit = false) :
    ∃ fault, signedDigits (signText negative ++ t) = ⟨none, some ⟨t, fault⟩⟩ := by
  obtain ⟨f, hf, hsigned⟩ := signedDigits_sign hsign
  obtain ⟨fault, hfail⟩ := Heads.run1 Char.isDigit t
    fun c hc hdigit => Bool.false_ne_true ((stop c hc).symm.trans hdigit)
  rw [hsigned, bind_of_none hfail]
  cases f with
  | none => exact ⟨fault, rfl⟩
  | some e => exact Outcome.exists_after_eq ((hf e rfl).symm ▸ List.suffix_refl t)

theorem heads_integer : Heads (fun c => c = '-' ∨ c.isDigit = true) integer := by
  refine Heads.checked fun s hs => ?_
  have hsign : ∀ c ∈ s.head?, c ≠ '-' := fun c hc heq => hs c hc (Or.inl heq)
  have hstop : ∀ c ∈ s.head?, c.isDigit = false := fun c hc =>
    Bool.eq_false_iff.2 fun hdigit => hs c hc (Or.inr hdigit)
  exact @signedDigits_of_no_digit false s (fun _ => hsign) hstop

/-- The digits of a number are missing, or it is refused where it begins, or it is read in the same
way before every text that does not go on with a digit. -/
theorem integer_cases (s : List Char) :
    (∃ negative t fault, s = signText negative ++ t ∧ integer s = ⟨none, some ⟨t, fault⟩⟩) ∨
    (∃ fault, integer s = ⟨none, some ⟨s, fault⟩⟩) ∨
    (∃ z rest i, s = z ++ rest ∧ z ≠ [] ∧ (∀ c ∈ rest.head?, c.isDigit = false) ∧
      ∀ t, (∀ c ∈ t.head?, c.isDigit = false) →
        integer (z ++ t) = ⟨some (i, t), some ⟨t, .unexpected⟩⟩) := by
  obtain ⟨negative, t, rfl, hsign⟩ := exists_sign s
  obtain ⟨ds, rest, rfl, hall, hstop⟩ := exists_run Char.isDigit t
  by_cases hne : ds = []
  · subst hne
    obtain ⟨fault, hfail⟩ := signedDigits_of_no_digit hsign hstop
    exact Or.inl ⟨negative, [] ++ rest, fault, rfl, by rw [integer, checked, hfail]⟩
  cases hcheck : inRange (integerOf? negative ds) with
  | error fault =>
      refine Or.inr (Or.inl ⟨fault, ?_⟩)
      rw [integer, checked, signedDigits_append hne hall hstop]
      simp only [hcheck]
  | ok i =>
      refine Or.inr (Or.inr ⟨signText negative ++ ds, rest, i, (List.append_assoc _ _ _).symm,
        fun hnil => hne (List.append_eq_nil_iff.1 hnil).2, hstop, fun t ht => ?_⟩)
      rw [List.append_assoc, integer, checked, signedDigits_append hne hall ht]
      simp only [hcheck]

/-- A number out of range fails where it begins: there, and behind a sign, zero may stand. -/
theorem viable_integer {k : Int64 → Matcher β} (apart : ∀ c, F c → c.isDigit = false)
    (hk : ∀ i, Viable n F (k i)) :
    Viable n (fun c => c = '-' ∨ c.isDigit = true) (integer >>= k) := by
  have visible : ∀ c : Char, c = '-' ∨ c.isDigit = true → Text.isSpace c = false := by
    rintro c (rfl | hc)
    · decide
    · exact Text.isSpace_of_isDigit hc
  have hzero : ∀ negative, ∃ w, (integer >>= k).Accepts (signText negative ++ '0' :: w) := by
    intro negative
    obtain ⟨w, hw, p, hp⟩ := (hk 0).starts
    have hdigits : signedDigits (signText negative ++ (['0'] ++ w)) = _ :=
      signedDigits_append (List.cons_ne_nil '0' []) (List.forall_mem_singleton.2 (by decide))
        fun c hc => apart c (hw c hc)
    have hread : integer.read (signText negative ++ '0' :: w) = some (0, w) := by
      refine read_checked_eq_some_iff.2 ⟨_, congrArg Outcome.result hdigits, ?_⟩
      cases negative <;> rfl
    exact ⟨w, p, (read_bind_of_some hread).trans hp⟩
  have hhead : ∀ w, ∀ c ∈ ('0' :: w).head?, c = '-' ∨ c.isDigit = true := by
    rintro w _ ⟨⟩
    exact Or.inr (by decide)
  obtain ⟨w₀, hw₀⟩ := hzero false
  refine ⟨visible, ⟨'0' :: w₀, hhead w₀, hw₀⟩, (heads_integer.bind k).idle visible,
    fun s hs hread => ?_⟩
  obtain ⟨negative, t, fault, rfl, hfail⟩ | ⟨fault, hfail⟩ |
    ⟨z, rest, i, rfl, hne, hstop, hinteger⟩ := integer_cases s
  · obtain ⟨w, hw⟩ := hzero negative
    exact ⟨_, bind_of_none hfail, signText negative, '0' :: w, rfl, fun _ => hhead w, hw⟩
  · exact ⟨_, bind_of_none hfail, [], '0' :: w₀, rfl, fun _ => hhead w₀, hw₀⟩
  · obtain ⟨f, x, w, hf, hx, hw, haccepts⟩ :=
      (hk i).fails_behind (hinteger rest hstop) (List.suffix_refl rest) hs hread
    refine ⟨f, hf, z ++ x, w, ?_, fun hnil => ?_, haccepts ?_⟩
    · rw [List.append_assoc, ← hx]
    · exact absurd (List.append_eq_nil_iff.1 hnil).1 hne
    · refine congrArg Outcome.result (hinteger (x ++ w) ?_)
      exact forall_head_append hx hstop fun hnil c hc => apart c (hw hnil c hc)

/-! ## Operators -/

/-- The matcher for one spelling of a comparison. -/
def spelled (t : String × Comparison) : Matcher Comparison := do
  word t.1.toList
  return t.2

/-- The matcher that fails without a report. -/
def silent : Matcher Comparison := fun _ => ⟨none, none⟩

theorem orElse_silent (m : Matcher Comparison) : (m <|> silent) = m := by
  funext s
  show Matcher.or m silent s = m s
  obtain ⟨a, rest, f, hm⟩ | ⟨f, hm⟩ := outcome_cases m s
  · rw [Matcher.or, hm]
  · rw [Matcher.or, hm]
    simp [silent, Outcome.after]

/-- Induction over the spellings of comparisons, of which there is at least one. -/
theorem comparisonOperator_induct {motive : Matcher Comparison → Prop}
    (single : ∀ t ∈ Comparison.spellings, motive (spelled t))
    (more : ∀ t ∈ Comparison.spellings, ∀ m, motive m → motive (spelled t <|> m)) :
    motive comparisonOperator := by
  have hfold : ∀ ts : List (String × Comparison), ts ≠ [] → ts ⊆ Comparison.spellings →
      motive (ts.foldr (fun t m => spelled t <|> m) silent) := by
    intro ts hne hsub
    induction ts with
    | nil => exact absurd rfl hne
    | cons t ts ih =>
        rw [List.foldr_cons]
        cases ts with
        | nil =>
            rw [List.foldr_nil, orElse_silent]
            exact single t (hsub List.mem_cons_self)
        | cons u us =>
            exact more t (hsub List.mem_cons_self) _
              (ih (List.cons_ne_nil u us) (List.subset_of_cons_subset hsub))
  exact hfold Comparison.spellings (by decide) (List.Subset.refl _)

/-- The characters that an operator may begin with. -/
def operatorMarks : List Char := ['!', '<', '=', '>', '~']

theorem spelling_cases {t : String × Comparison} (h : t ∈ Comparison.spellings) :
    ∃ c cs, t.1.toList = c :: cs ∧ c ∈ operatorMarks ∧ ∀ d ∈ c :: cs, Text.isSpace d = false := by
  have hall : ∀ t ∈ Comparison.spellings, t.1.toList.head?.any operatorMarks.contains = true ∧
      t.1.toList.any Text.isSpace = false := by decide
  obtain ⟨hmark, hvisible⟩ := hall t h
  obtain ⟨c, hc, hmark⟩ := (Option.any_eq_true _ _).1 hmark
  obtain ⟨cs, hcs⟩ := List.head?_eq_some_iff.1 hc
  rw [hcs] at hvisible
  exact ⟨c, cs, hcs, List.contains_iff_mem.1 hmark, fun d hd =>
    Bool.eq_false_iff.2 (List.any_eq_false.1 hvisible d hd)⟩

theorem isSpace_of_mem_operatorMarks : ∀ c ∈ operatorMarks, Text.isSpace c = false :=
  List.all_iff_forall_prop.1 (by decide)

theorem heads_spelled {t : String × Comparison} (h : t ∈ Comparison.spellings) :
    Heads (· ∈ operatorMarks) (spelled t) := by
  obtain ⟨c, cs, hcs, hmark, -⟩ := spelling_cases h
  rw [spelled, hcs]
  exact ((Heads.word c cs).bind _).mono fun d hd => hd ▸ hmark

theorem heads_comparisonOperator : Heads (· ∈ operatorMarks) comparisonOperator := by
  refine comparisonOperator_induct (fun t ht => heads_spelled ht) fun t ht m hm => ?_
  exact ((heads_spelled ht).orElse hm).mono fun c hc => hc.elim id id

/-- A word fails at its first character that is not there, whatever comes behind. -/
theorem fails_word {w s : List Char} {f : Failure} (h : word w s = ⟨none, some f⟩) :
    f.rest <:+ s ∧ ∀ x y z, s = x ++ y → y.length < f.rest.length →
      (word w).read (x ++ z) = none := by
  induction w generalizing s with
  | nil => cases h
  | cons c w ih =>
      by_cases hhead : ∃ d ∈ s.head?, d = c
      · obtain ⟨d, hd, rfl⟩ := hhead
        obtain ⟨t, rfl⟩ := List.head?_eq_some_iff.1 hd
        have hchar : char d (d :: t) = ⟨some (d, t), none⟩ := if_pos (beq_self_eq_true d)
        have hword : word (d :: w) (d :: t) = word w t := bind_of_some_none hchar
        obtain ⟨hsuffix, hagain⟩ := ih (hword.symm.trans h)
        refine ⟨hsuffix.trans (List.suffix_cons d t), fun x y z hxy hlt => ?_⟩
        cases x with
        | nil =>
            have hle := hsuffix.length_le
            rw [List.nil_append] at hxy
            rw [← hxy, List.length_cons] at hlt
            omega
        | cons e x =>
            obtain ⟨rfl, rfl⟩ := List.cons.inj hxy
            exact (read_bind_of_some (read_char_self d (x ++ z))).trans (hagain x y z rfl hlt)
      · have hnone : ∀ d ∈ s.head?, ¬ d = c := fun d hd heq => hhead ⟨d, hd, heq⟩
        have hword := Heads.word c w
        exact ⟨hword.rest_eq hnone h ▸ List.suffix_refl f.rest, fun x y z hxy hlt =>
          hword.read_append_eq_none hnone h hxy hlt z⟩

theorem predicts_spelled (t : String × Comparison) (n : Nat) :
    Predicts n (fun _ => False) (spelled t) := by
  intro s f _ hf
  obtain ⟨u, rest, e, hword⟩ | ⟨e, hword⟩ := outcome_cases (word t.1.toList) s
  · have hnone := (bind_of_some (k := fun _ => Pure.pure t.2) hword).symm.trans hf
    cases hnone
  · obtain rfl : e = some f := congrArg Outcome.failure ((bind_of_none hword).symm.trans hf)
    refine Or.inr fun x y w hxy hlt => ?_
    have hagain := (fails_word hword).2 x y w hxy hlt
    exact (read_bind _ _ _).trans (by rw [hagain]; rfl)

theorem viable_comparisonOperator {k : Comparison → Matcher β} (hk : ∀ c, Viable n F (k c)) :
    Viable (n + 1) (· ∈ operatorMarks) (comparisonOperator >>= k) := by
  have hspelled : ∀ t ∈ Comparison.spellings,
      Viable (n + 1) (· ∈ operatorMarks) (spelled t >>= k) := by
    intro t ht
    obtain ⟨c, cs, hcs, hmark, hvisible⟩ := spelling_cases ht
    have hbind : spelled t >>= k = word (c :: cs) >>= fun _ => k t.2 := by
      rw [spelled, hcs, bind_assoc]
      simp only [pure_bind]
    rw [hbind]
    exact (Viable.word hvisible (hk t.2)).mono (fun d hd => hd ▸ hmark)
      isSpace_of_mem_operatorMarks
  refine comparisonOperator_induct
    (motive := fun m => Viable (n + 1) (· ∈ operatorMarks) (m >>= k)) hspelled fun t ht m hm => ?_
  rw [orElse_bind]
  refine ((hspelled t ht).choose hm ((heads_spelled ht).idle isSpace_of_mem_operatorMarks)
    (predicts_spelled t (n + 1)) fun _ => False.elim).mono ?_ isSpace_of_mem_operatorMarks
  exact fun c hc => hc.elim id id

end EventQuery.Grammar
