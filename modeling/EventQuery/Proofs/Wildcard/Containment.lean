import EventQuery.Proofs.Wildcard.Language

/-!
# Containment

The operand of a containment test that has no wildcard gets one at each end. What it then accepts
are the texts that contain it, in either notation: case counts in the first, and not in the second.

An operand may end with a backslash that no character follows, as the name of a directory does. By
itself it stands for a backslash. The closing wildcard makes a pair of it, however, and the pattern
accepts the texts that end with the rest of the operand and a star.
-/

namespace EventQuery.Wildcard

/-- The text that an operand without wildcards stands for: the second of each pair that a backslash
begins, and a backslash for one at the end. -/
def literal : List Char → List Char
  | [] => []
  | ['\\'] => ['\\']
  | '\\' :: c :: v => c :: literal v
  | c :: v => c :: literal v

/-- The last character is a backslash that begins a pair. -/
def endsInEscape : List Char → Bool
  | [] => false
  | ['\\'] => true
  | '\\' :: _ :: v => endsInEscape v
  | _ :: v => endsInEscape v

@[simp] theorem literal_escaped (c : Char) (v : List Char) :
    literal ('\\' :: c :: v) = c :: literal v := rfl

theorem literal_cons_of_ne {c : Char} (h : c ≠ '\\') (v : List Char) :
    literal (c :: v) = c :: literal v := by
  simp [literal, h]

@[simp] theorem endsInEscape_escaped (c : Char) (v : List Char) :
    endsInEscape ('\\' :: c :: v) = endsInEscape v := rfl

theorem endsInEscape_cons_of_ne {c : Char} (h : c ≠ '\\') (v : List Char) :
    endsInEscape (c :: v) = endsInEscape v := by
  simp [endsInEscape, h]

theorem literal_ne_nil_of_endsInEscape {v : List Char} (h : endsInEscape v = true) :
    literal v ≠ [] := by
  cases v with
  | nil => cases h
  | cons c v =>
      unfold literal
      split <;> simp_all

/-- The characters of a pattern that a star is put after. -/
theorem pieces_append_star {v : List Char} (plain : hasUnescaped '*' v = false) :
    pieces (v ++ ['*']) =
      if endsInEscape v then ((literal v).dropLast ++ ['*']).map .exactly
      else (literal v).map .exactly ++ [.anyRun] := by
  induction v using pattern_induct with
  | nil => rfl
  | dangling => rfl
  | escaped c v ih =>
      rw [hasUnescaped_escaped] at plain
      rw [List.cons_append, List.cons_append, pieces_escaped, ih plain, literal_escaped,
        endsInEscape_escaped]
      split
      · rename_i h
        rw [List.dropLast_cons_of_ne_nil (literal_ne_nil_of_endsInEscape h)]
        rfl
      · rfl
  | star v ih =>
      rw [hasUnescaped_cons_of_ne (by decide)] at plain
      simp at plain
  | ordinary c v hc hstar ih =>
      rw [hasUnescaped_cons_of_ne hc, Bool.or_eq_false_iff] at plain
      rw [List.cons_append, pieces_cons_of_ne hc hstar, ih plain.2, literal_cons_of_ne hc,
        endsInEscape_cons_of_ne hc]
      split
      · rename_i h
        rw [List.dropLast_cons_of_ne_nil (literal_ne_nil_of_endsInEscape h)]
        rfl
      · rfl

/-- What an operand accepts with a wildcard at each end. -/
theorem matches_surround_iff {fold : Char → Char} {v : List Char}
    (plain : hasUnescaped '*' v = false) (s : List Char) :
    Matches fold (pieces (surround v)) s ↔
      if endsInEscape v then ((literal v).dropLast ++ ['*']).map fold <:+ s.map fold
      else (literal v).map fold <:+: s.map fold := by
  rw [surround, if_neg (by simp [plain]), pieces_star, pieces_append_star plain]
  split
  · exact matches_anyRun_exactly
  · exact matches_anyRun_exactly_anyRun

/-- In either notation an operand without wildcards accepts the texts that contain what it stands
for, unless it ends within an escape: then it accepts the texts that end with all of it but the last
backslash, and a star. -/
theorem surround_accepts_iff {glob like : List Char → List Char → Prop} {fold : Char → Char}
    (hglob : IsGlob glob) (hlike : IsLike fold like) {v : List Char}
    (plain : hasUnescaped '*' v = false) (s : List Char) :
    (endsInEscape v = false →
      (glob (toGlob (surround v)) s ↔ literal v <:+: s) ∧
        (like (toLike (surround v)) s ↔ (literal v).map fold <:+: s.map fold)) ∧
    (endsInEscape v = true →
      (glob (toGlob (surround v)) s ↔ (literal v).dropLast ++ ['*'] <:+ s) ∧
        (like (toLike (surround v)) s ↔
          ((literal v).dropLast ++ ['*']).map fold <:+ s.map fold)) := by
  rw [hglob.toGlob_iff, hlike.toLike_iff, matches_surround_iff plain, matches_surround_iff plain]
  constructor
  · intro h
    simp [h]
  · intro h
    simp [h]

/-- ASCII letters in lower case, as engines fold them unless told otherwise. -/
def asciiFold (c : Char) : Char := c.toLower

/-- An operand with an escaped star accepts what contains it. The name of a directory does not: it
accepts a star in place of the last backslash. -/
theorem surround_accepts_iff_directory :
    let plainly := ['5', '\\', '*', '_']
    let directory := ['d', '\\']
    let glob := fun p s => globAccepts p s = true
    let like := fun p s => likeAccepts asciiFold p s = true
    IsGlob glob ∧ IsLike asciiFold like ∧
      hasUnescaped '*' plainly = false ∧ endsInEscape plainly = false ∧
      glob (toGlob (surround plainly)) ['a', '5', '*', '_', 'b'] ∧
      hasUnescaped '*' directory = false ∧ endsInEscape directory = true ∧
      literal directory <:+: ['d', '\\', 'e'] ∧
      ¬ glob (toGlob (surround directory)) ['d', '\\', 'e'] ∧
      like (toLike (surround directory)) ['a', 'D', '*'] := by
  intro plainly directory glob like
  have hglob : IsGlob glob := isGlob_globAccepts
  have hlike : IsLike asciiFold like := isLike_likeAccepts asciiFold
  have hplainly : hasUnescaped '*' plainly = false := by decide
  have hdirectory : hasUnescaped '*' directory = false := by decide
  refine ⟨hglob, hlike, hplainly, by decide, ?_, hdirectory, by decide, by decide, ?_, ?_⟩
  · have haccepts := surround_accepts_iff hglob hlike hplainly ['a', '5', '*', '_', 'b']
    exact (haccepts.1 (by decide)).1.2 (by decide)
  · have haccepts := surround_accepts_iff hglob hlike hdirectory ['d', '\\', 'e']
    exact mt (haccepts.2 (by decide)).1.1 (by decide)
  · have haccepts := surround_accepts_iff hglob hlike hdirectory ['a', 'D', '*']
    exact (haccepts.2 (by decide)).2.2 (by decide)

end EventQuery.Wildcard
