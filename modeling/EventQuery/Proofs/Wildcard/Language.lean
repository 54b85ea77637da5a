import EventQuery.Backend.Wildcard

/-!
# The language of patterns

A pattern is a sequence of pieces: runs of any characters, and single characters. Both notations
that a pattern is translated to accept the texts that its pieces match.

What an engine does with a notation is a parameter. `IsGlob` and `IsLike` are what is documented of
the two operators for the patterns written here: how each beginning of a pattern consumes a
beginning of the text. Characters may be compared up to a folding of their case.
-/

namespace EventQuery.Wildcard

inductive Piece where
  | anyRun
  | exactly (c : Char)
  deriving DecidableEq

/-- The pieces of a pattern. A backslash at its end stands for itself. -/
def pieces : List Char → List Piece
  | [] => []
  | ['\\'] => [.exactly '\\']
  | '\\' :: c :: p => .exactly c :: pieces p
  | '*' :: p => .anyRun :: pieces p
  | c :: p => .exactly c :: pieces p

/-- The whole text consists of parts that match the pieces, up to `fold`. -/
def Matches (fold : Char → Char) : List Piece → List Char → Prop
  | [], s => s = []
  | .anyRun :: ps, s => ∃ u v, s = u ++ v ∧ Matches fold ps v
  | .exactly c :: ps, s => ∃ d v, s = d :: v ∧ fold d = fold c ∧ Matches fold ps v

@[simp] theorem pieces_star (p : List Char) : pieces ('*' :: p) = .anyRun :: pieces p := rfl

@[simp] theorem pieces_escaped (c : Char) (p : List Char) :
    pieces ('\\' :: c :: p) = .exactly c :: pieces p := rfl

theorem pieces_cons_of_ne {c : Char} (h : c ≠ '\\') (hs : c ≠ '*') (p : List Char) :
    pieces (c :: p) = .exactly c :: pieces p := by
  simp [pieces, h]

/-- Induction over a pattern, two characters at a time where the first is a backslash. -/
@[elab_as_elim]
theorem pattern_induct {motive : List Char → Prop} (nil : motive []) (dangling : motive ['\\'])
    (escaped : ∀ c p, motive p → motive ('\\' :: c :: p))
    (star : ∀ p, motive p → motive ('*' :: p))
    (ordinary : ∀ c p, c ≠ '\\' → c ≠ '*' → motive p → motive (c :: p)) (p : List Char) :
    motive p := by
  refine pieces.induct motive nil dangling escaped star (fun c p hlast hpair hstar ih => ?_) p
  have hc : c ≠ '\\' := by
    rintro rfl
    cases p with
    | nil => exact hlast rfl rfl
    | cons d p => exact hpair d p rfl rfl
  exact ordinary c p hc hstar ih

/-! ## Beginnings of texts -/

theorem exists_cons_eq_iff {d : Char} {s : List Char} {P : Char → List Char → Prop} :
    (∃ e v, d :: s = e :: v ∧ P e v) ↔ P d s := by
  constructor
  · rintro ⟨_, _, hcons, h⟩
    cases hcons
    exact h
  · exact fun h => ⟨d, s, rfl, h⟩

theorem exists_cons_eq_cons_iff {c d : Char} {s : List Char} {P : List Char → Prop} :
    (∃ v, d :: s = c :: v ∧ P v) ↔ d = c ∧ P s := by
  constructor
  · rintro ⟨_, hcons, h⟩
    cases hcons
    exact ⟨rfl, h⟩
  · rintro ⟨rfl, h⟩
    exact ⟨s, rfl, h⟩

/-! ## Parts of patterns -/

variable {fold : Char → Char}

theorem matches_append {ps qs : List Piece} {s : List Char} :
    Matches fold (ps ++ qs) s ↔ ∃ u v, s = u ++ v ∧ Matches fold ps u ∧ Matches fold qs v := by
  induction ps generalizing s with
  | nil =>
      constructor
      · exact fun h => ⟨[], s, rfl, rfl, h⟩
      · rintro ⟨_, v, rfl, rfl, h⟩
        exact h
  | cons p ps ih =>
      cases p with
      | anyRun =>
          simp only [List.cons_append, Matches, ih]
          constructor
          · rintro ⟨u, _, rfl, v, w, rfl, hv, hw⟩
            exact ⟨u ++ v, w, (List.append_assoc ..).symm, ⟨u, v, rfl, hv⟩, hw⟩
          · rintro ⟨_, w, rfl, ⟨u, v, rfl, hv⟩, hw⟩
            exact ⟨u, v ++ w, List.append_assoc .., v, w, rfl, hv, hw⟩
      | exactly c =>
          simp only [List.cons_append, Matches, ih]
          constructor
          · rintro ⟨d, _, rfl, hd, v, w, rfl, hv, hw⟩
            exact ⟨d :: v, w, rfl, ⟨d, v, rfl, hd, hv⟩, hw⟩
          · rintro ⟨_, w, rfl, ⟨d, v, rfl, hd, hv⟩, hw⟩
            exact ⟨d, v ++ w, rfl, hd, v, w, rfl, hv, hw⟩

@[simp] theorem matches_anyRun (s : List Char) : Matches fold [.anyRun] s :=
  ⟨s, [], (List.append_nil s).symm, rfl⟩

theorem matches_id_exactly_cons {c : Char} {ps : List Piece} {s : List Char} :
    Matches id (.exactly c :: ps) s ↔ ∃ v, s = c :: v ∧ Matches id ps v := by
  constructor
  · rintro ⟨_, v, rfl, rfl, hv⟩
    exact ⟨v, rfl, hv⟩
  · rintro ⟨v, rfl, hv⟩
    exact ⟨c, v, rfl, rfl, hv⟩

/-- Characters match a text that is the same up to case. -/
theorem matches_exactly {w s : List Char} :
    Matches fold (w.map .exactly) s ↔ w.map fold = s.map fold := by
  induction w generalizing s with
  | nil => simp [Matches, eq_comm]
  | cons c w ih =>
      cases s with
      | nil => simp [Matches]
      | cons d s =>
          rw [List.map_cons, Matches, exists_cons_eq_iff, ih, List.map_cons, List.map_cons,
            List.cons_eq_cons, eq_comm]

/-- A run in front lets characters match an end of the text. -/
theorem matches_anyRun_exactly {w s : List Char} :
    Matches fold (.anyRun :: w.map .exactly) s ↔ w.map fold <:+ s.map fold := by
  simp only [Matches, matches_exactly]
  constructor
  · rintro ⟨u, v, rfl, hv⟩
    exact ⟨u.map fold, by rw [hv, List.map_append]⟩
  · rintro ⟨u, hu⟩
    obtain ⟨u, v, rfl, -, hv⟩ := List.map_eq_append_iff.1 hu.symm
    exact ⟨u, v, rfl, hv.symm⟩

/-- Runs on both sides let characters match anywhere in the text. -/
theorem matches_anyRun_exactly_anyRun {w s : List Char} :
    Matches fold (.anyRun :: (w.map .exactly ++ [.anyRun])) s ↔ w.map fold <:+: s.map fold := by
  rw [← List.cons_append, matches_append]
  simp only [matches_anyRun_exactly, matches_anyRun, and_true]
  constructor
  · rintro ⟨u, v, rfl, hu⟩
    rw [List.map_append]
    exact hu.isInfix.trans (List.prefix_append _ _).isInfix
  · rintro ⟨a, b, hab⟩
    obtain ⟨u, v, rfl, hu, -⟩ := List.map_eq_append_iff.1 hab.symm
    exact ⟨u, v, rfl, a, hu.symm⟩

/-! ## The notation with bracketed sets -/

/-- Some end of the text passes a test. -/
def anyEnd (test : List Char → Bool) : List Char → Bool
  | [] => test []
  | c :: s => test (c :: s) || anyEnd test s

theorem anyEnd_eq_true_iff {test : List Char → Bool} {s : List Char} :
    anyEnd test s = true ↔ ∃ u v, s = u ++ v ∧ test v = true := by
  induction s with
  | nil =>
      constructor
      · exact fun h => ⟨[], [], rfl, h⟩
      · rintro ⟨u, v, huv, h⟩
        obtain ⟨-, rfl⟩ := List.append_eq_nil_iff.1 huv.symm
        exact h
  | cons c s ih =>
      rw [anyEnd, Bool.or_eq_true, ih]
      constructor
      · rintro (h | ⟨u, v, rfl, h⟩)
        · exact ⟨[], c :: s, rfl, h⟩
        · exact ⟨c :: u, v, rfl, h⟩
      · rintro ⟨u, v, huv, h⟩
        cases u with
        | nil => exact Or.inl (huv ▸ h)
        | cons d u =>
            cases huv
            exact Or.inr ⟨u, v, rfl, h⟩

/-- What an engine does with patterns in the notation with bracketed sets: `*` is any run, a
character alone in brackets is itself, and so is a character that is not special. In brackets a `^`
would exclude and a `]` would not close. -/
structure IsGlob (glob : List Char → List Char → Prop) : Prop where
  nil : ∀ s, glob [] s ↔ s = []
  star : ∀ p s, glob ('*' :: p) s ↔ ∃ u v, s = u ++ v ∧ glob p v
  set : ∀ c p s, c ≠ '^' → c ≠ ']' →
    (glob ('[' :: c :: ']' :: p) s ↔ ∃ v, s = c :: v ∧ glob p v)
  ordinary : ∀ c p s, c ≠ '*' → c ≠ '?' → c ≠ '[' →
    (glob (c :: p) s ↔ ∃ v, s = c :: v ∧ glob p v)

namespace IsGlob

variable {glob : List Char → List Char → Prop}

theorem globLiteral (h : IsGlob glob) (c : Char) (p s : List Char) :
    glob (Wildcard.globLiteral c ++ p) s ↔ ∃ v, s = c :: v ∧ glob p v := by
  unfold Wildcard.globLiteral
  split
  · rename_i hc
    subst hc
    exact h.set '*' p s (by decide) (by decide)
  split
  · rename_i hc
    subst hc
    exact h.set '?' p s (by decide) (by decide)
  split
  · rename_i hc
    subst hc
    exact h.set '[' p s (by decide) (by decide)
  · rename_i hstar hone hset
    exact h.ordinary c p s hstar hone hset

/-- An engine accepts the texts that the pieces of a pattern match. -/
theorem toGlob_iff (h : IsGlob glob) (p s : List Char) :
    glob (toGlob p) s ↔ Matches id (pieces p) s := by
  induction p using pattern_induct generalizing s with
  | nil => exact h.nil s
  | dangling =>
      show glob ('\\' :: []) s ↔ _
      rw [h.ordinary '\\' [] s (by decide) (by decide) (by decide), pieces,
        matches_id_exactly_cons]
      simp only [h.nil, Matches]
  | escaped c p ih =>
      rw [toGlob_escaped, h.globLiteral, pieces_escaped, matches_id_exactly_cons]
      simp only [ih]
  | star p ih =>
      rw [toGlob_star, h.star, pieces_star]
      simp only [Matches, ih]
  | ordinary c p hc hstar ih =>
      rw [toGlob_cons_of_ne hc hstar, h.globLiteral, pieces_cons_of_ne hc hstar,
        matches_id_exactly_cons]
      simp only [ih]

end IsGlob

/-- An engine for patterns whose sets are single characters. -/
def globAccepts : List Char → List Char → Bool
  | [], s => s.isEmpty
  | '*' :: p, s => anyEnd (globAccepts p) s
  | '[' :: c :: ']' :: p, d :: s => d == c && globAccepts p s
  | c :: p, d :: s => (c == '?' || d == c && c != '[') && globAccepts p s
  | _ :: _, [] => false

theorem isGlob_globAccepts : IsGlob fun p s => globAccepts p s = true where
  nil s := List.isEmpty_iff
  star p s := anyEnd_eq_true_iff
  set c p s _ _ := by
    cases s with
    | nil => simp [globAccepts]
    | cons d s =>
        rw [exists_cons_eq_cons_iff, globAccepts, Bool.and_eq_true, beq_iff_eq]
  ordinary c p s hstar hone hset := by
    cases s with
    | nil => simp [globAccepts]
    | cons d s =>
        have haccepts : globAccepts (c :: p) (d :: s) = (d == c && globAccepts p s) := by
          simp [globAccepts, hset, beq_eq_false_iff_ne.2 hone, bne_iff_ne.2 hset]
        rw [exists_cons_eq_cons_iff, haccepts, Bool.and_eq_true, beq_iff_eq]

/-! ## The notation with `%` and `_` -/

/-- What an engine does with patterns in the notation with `%` and `_`, where a backslash makes the
next character ordinary: `%` is any run, `_` any character, and characters are compared up to
`fold`. -/
structure IsLike (fold : Char → Char) (like : List Char → List Char → Prop) : Prop where
  nil : ∀ s, like [] s ↔ s = []
  run : ∀ p s, like ('%' :: p) s ↔ ∃ u v, s = u ++ v ∧ like p v
  one : ∀ p s, like ('_' :: p) s ↔ ∃ d v, s = d :: v ∧ like p v
  escaped : ∀ c p s, like ('\\' :: c :: p) s ↔ ∃ d v, s = d :: v ∧ fold d = fold c ∧ like p v
  ordinary : ∀ c p s, c ≠ '%' → c ≠ '_' → c ≠ '\\' →
    (like (c :: p) s ↔ ∃ d v, s = d :: v ∧ fold d = fold c ∧ like p v)

namespace IsLike

variable {like : List Char → List Char → Prop}

theorem likeLiteral (h : IsLike fold like) (c : Char) (p s : List Char) :
    like (Wildcard.likeLiteral c ++ p) s ↔ ∃ d v, s = d :: v ∧ fold d = fold c ∧ like p v := by
  unfold Wildcard.likeLiteral
  split
  · exact h.escaped c p s
  · rename_i hc
    simp only [not_or] at hc
    exact h.ordinary c p s hc.1 hc.2.1 hc.2.2

/-- An engine accepts the texts that the pieces of a pattern match up to case. -/
theorem toLike_iff (h : IsLike fold like) (p s : List Char) :
    like (toLike p) s ↔ Matches fold (pieces p) s := by
  induction p using pattern_induct generalizing s with
  | nil => exact h.nil s
  | dangling =>
      show like (Wildcard.likeLiteral '\\' ++ []) s ↔ _
      rw [h.likeLiteral]
      simp only [pieces, Matches, h.nil]
  | escaped c p ih =>
      rw [toLike_escaped, h.likeLiteral, pieces_escaped]
      simp only [Matches, ih]
  | star p ih =>
      rw [toLike_star, h.run, pieces_star]
      simp only [Matches, ih]
  | ordinary c p hc hstar ih =>
      rw [toLike_cons_of_ne hc hstar, h.likeLiteral, pieces_cons_of_ne hc hstar]
      simp only [Matches, ih]

end IsLike

/-- An engine that compares characters up to `fold`. -/
def likeAccepts (fold : Char → Char) : List Char → List Char → Bool
  | [], s => s.isEmpty
  | '%' :: p, s => anyEnd (likeAccepts fold p) s
  | '\\' :: c :: p, d :: s => fold d == fold c && likeAccepts fold p s
  | c :: p, d :: s => (c == '_' || fold d == fold c) && likeAccepts fold p s
  | _ :: _, [] => false

theorem isLike_likeAccepts (fold : Char → Char) :
    IsLike fold fun p s => likeAccepts fold p s = true where
  nil s := List.isEmpty_iff
  run p s := anyEnd_eq_true_iff
  one p s := by
    cases s with
    | nil => simp [likeAccepts]
    | cons d s =>
        rw [exists_cons_eq_iff]
        simp [likeAccepts]
  escaped c p s := by
    cases s with
    | nil => simp [likeAccepts]
    | cons d s =>
        rw [exists_cons_eq_iff]
        simp [likeAccepts]
  ordinary c p s _ hone hescape := by
    cases s with
    | nil => simp [likeAccepts]
    | cons d s =>
        rw [exists_cons_eq_iff]
        simp [likeAccepts, hone, hescape]

/-! ## One language for both notations -/

/-- A star that no backslash stands before is what a pattern reads as a run. -/
theorem hasUnescaped_star_iff (p : List Char) : hasUnescaped '*' p = true ↔ .anyRun ∈ pieces p := by
  induction p using pattern_induct with
  | nil => simp [hasUnescaped, pieces]
  | dangling => simp [hasUnescaped, pieces]
  | escaped c p ih =>
      rw [hasUnescaped_escaped, pieces_escaped, ih]
      simp
  | star p ih =>
      rw [hasUnescaped_cons_of_ne (by decide), pieces_star]
      simp
  | ordinary c p hc hstar ih =>
      rw [hasUnescaped_cons_of_ne hc, pieces_cons_of_ne hc hstar, beq_eq_false_iff_ne.2 hstar,
        Bool.false_or, ih]
      simp

/-- Where case counts, a pattern accepts the same texts in both notations, those that it matches
itself. It counts as having a wildcard when it reads as containing a run. -/
theorem translations_accept_iff {glob like : List Char → List Char → Prop} (hglob : IsGlob glob)
    (hlike : IsLike id like) (p s : List Char) :
    (glob (toGlob p) s ↔ Matches id (pieces p) s) ∧
      (like (toLike p) s ↔ Matches id (pieces p) s) ∧
      (hasUnescaped '*' p = true ↔ .anyRun ∈ pieces p) :=
  ⟨hglob.toGlob_iff p s, hlike.toLike_iff p s, hasUnescaped_star_iff p⟩

/-- A star made ordinary, a run, a character special in each notation and a backslash at the end. -/
theorem translations_accept_iff_special :
    let p := ['\\', '*', '*', '_', '[', '\\']
    let s := ['*', 'a', 'b', '_', '[', '\\']
    let glob := fun p s => globAccepts p s = true
    let like := fun p s => likeAccepts id p s = true
    IsGlob glob ∧ IsLike id like ∧ Matches id (pieces p) s ∧ glob (toGlob p) s ∧
      like (toLike p) s ∧ ¬ like (toLike p) ('x' :: s) ∧ .anyRun ∈ pieces p := by
  intro p s glob like
  have hglob : IsGlob glob := isGlob_globAccepts
  have hlike : IsLike id like := isLike_likeAccepts id
  have haccepts : glob (toGlob p) s := by decide
  obtain ⟨hmatches, hlikes, hrun⟩ := translations_accept_iff hglob hlike p s
  refine ⟨hglob, hlike, hmatches.1 haccepts, haccepts, hlikes.2 (hmatches.1 haccepts), ?_, ?_⟩
  · show ¬ likeAccepts id (toLike p) ('x' :: s) = true
    decide
  · exact hrun.1 (by decide)

end EventQuery.Wildcard
