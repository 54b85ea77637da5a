import EventQuery.Grammar.Criteria
import EventQuery.Proofs.Grammar.Paths

/-!
# Comparisons are read back

Each comparison operator is read back from its token when a space follows. An operand is read back
as the text of its value: from quotation marks whatever the text is, and bare up to white space or a
reserved character.
-/

namespace EventQuery

namespace Grammar

open Matcher

/-! ## Operators -/

theorem read_comparisonOperator (c : Comparison) (s : List Char) :
    comparisonOperator.read (c.token.toList ++ ' ' :: s) = some (c, ' ' :: s) := by
  rcases c with ⟨r, n, k⟩ | o
  · cases r <;> cases n <;> cases k <;> rfl
  · cases o <;> rfl

theorem read_comparisonOperator_eq_none {s : List Char}
    (h : ∀ c ∈ s.head?, c = '&' ∨ c = '|' ∨ c = ')') : comparisonOperator.read s = none := by
  cases s with
  | nil => rfl
  | cons c s => rcases h c rfl with rfl | rfl | rfl <;> rfl

theorem shrinks_comparisonOperator : comparisonOperator.Shrinks := by
  unfold comparisonOperator
  extract_lets spelled
  induction Comparison.spellings with
  | nil => exact nofun
  | cons t ts ih => exact .orElse (.bind (.word _) fun _ => .pure _) ih

/-! ## Operands -/

/-- The text does not go on with a value without quotation marks. -/
def EndsValue (rest : List Char) : Prop :=
  ∀ c ∈ rest.head?, isReserved c = true ∨ Text.isSpace c = true

theorem isSpace_of_isBareChar {c : Char} (h : isBareChar c = true) : Text.isSpace c = false := by
  have hcases : c.isAlphanum = true ∨ c = '-' ∨ c = '.' := by
    simpa [isBareChar, or_assoc] using h
  rcases hcases with h | rfl | rfl
  · exact Text.isSpace_of_isAlphanum h
  · decide
  · decide

/-- A character that is not one of bare text differs from all that are. -/
theorem ne_of_isBareChar {c d : Char} (h : isBareChar c = true) (hd : isBareChar d = false) :
    c ≠ d := by
  rintro rfl
  exact Bool.false_ne_true (hd.symm.trans h)

theorem isReserved_of_isBareChar {c : Char} (h : isBareChar c = true) : isReserved c = false := by
  have hne : c ≠ '&' ∧ c ≠ '|' ∧ c ≠ '(' ∧ c ≠ ')' :=
    ⟨ne_of_isBareChar h (by decide), ne_of_isBareChar h (by decide),
      ne_of_isBareChar h (by decide), ne_of_isBareChar h (by decide)⟩
  simp [isReserved, hne]

theorem bareBody_of_stop {c : Char} (h : (isReserved c || Text.isSpace c) = true)
    (s : List Char) : bareBody (c :: s) = ([], c :: s) := by
  rw [bareBody.eq_def]
  exact if_pos h

theorem bareBody_escaped {c : Char} (h : isReserved c = true) (s : List Char) :
    bareBody ('\\' :: c :: s) = (c :: (bareBody s).1, (bareBody s).2) := by
  rw [bareBody.eq_def]
  simp only [show (isReserved '\\' || Text.isSpace '\\') = false by decide, h]
  rfl

/-- Every character stands for itself that does not end the value, unless it is a backslash before
one that would. -/
theorem bareBody_of_plain {c : Char} (h : (isReserved c || Text.isSpace c) = false)
    {s : List Char} (hs : c = '\\' → ∀ d ∈ s.head?, isReserved d = false) :
    bareBody (c :: s) = (c :: (bareBody s).1, (bareBody s).2) := by
  rw [bareBody.eq_def]
  simp only [h, Bool.false_eq_true, if_false]
  split
  · rename_i d t
    rw [hs rfl d rfl]
    rfl
  · rfl

theorem bareBody_cons {c : Char} (h : isBareChar c = true) (s : List Char) :
    bareBody (c :: s) = (c :: (bareBody s).1, (bareBody s).2) := by
  refine bareBody_of_plain ?_ fun hslash => ?_
  · rw [isReserved_of_isBareChar h, isSpace_of_isBareChar h, Bool.or_false]
  · exact absurd hslash (ne_of_isBareChar h (by decide))

theorem bareBody_append {cs rest : List Char} (all : ∀ c ∈ cs, isBareChar c = true)
    (stop : EndsValue rest) : bareBody (cs ++ rest) = (cs, rest) := by
  induction cs with
  | nil =>
      cases rest with
      | nil => rfl
      | cons c rest => exact bareBody_of_stop (by simpa using stop c rfl) rest
  | cons c cs ih =>
      rw [List.cons_append, bareBody_cons (all c List.mem_cons_self),
        ih fun d hd => all d (List.mem_cons_of_mem _ hd)]

theorem read_bareValue (s : List Char) :
    bareValue.read s = if (bareBody s).1 = [] then none
      else some (String.ofList (bareBody s).1, (bareBody s).2) := by
  show (if (bareBody s).1 = [] then none else some (_, (bareBody s).2)) = _
  split <;> rfl

/-- An operand is read back as the text of its value. -/
theorem read_operand (v : Value) {rest : List Char} (stop : EndsValue rest) :
    operand.read (v.spelling ++ rest) = some (.text (String.ofList v.plainText), rest) := by
  by_cases hv : ∃ s, v = .text s
  · obtain ⟨s, rfl⟩ := hv
    rw [operand, read_bind, read_orElse, Value.spelling, read_quotedString, Option.some_or,
      Option.bind_some, read_pure, Value.plainText_text, String.ofList_toList]
  · have hbare := Value.isBare_plainText fun s hs => hv ⟨s, hs⟩
    have noquote : quotedString.read (v.plainText ++ rest) = none := by
      refine read_quotedString_eq_none fun c hc => ?_
      have hc := hbare.2 c (mem_of_mem_head? hbare.1 hc)
      exact ⟨ne_of_isBareChar hc (by decide), ne_of_isBareChar hc (by decide)⟩
    rw [Value.spelling_of_ne_text fun s hs => hv ⟨s, hs⟩, operand, read_bind, read_orElse, noquote,
      Option.none_or, read_bareValue, bareBody_append hbare.2 stop, if_neg hbare.1,
      Option.bind_some, read_pure]

theorem bareBody_suffix (s : List Char) : (bareBody s).2 <:+ s := by
  fun_induction bareBody s with
  | case1 => exact List.suffix_refl _
  | case2 => exact List.suffix_refl _
  | case3 _ _ _ _ _ heq _ ih =>
      rw [heq] at ih
      exact (ih.trans (List.suffix_cons _ _)).trans (List.suffix_cons _ _)
  | case4 _ _ _ _ _ heq _ ih =>
      rw [heq] at ih
      exact ih.trans (List.suffix_cons _ _)
  | case5 _ _ _ _ _ heq _ ih =>
      rw [heq] at ih
      exact ih.trans (List.suffix_cons _ _)

theorem shrinks_bareValue : bareValue.Shrinks := by
  intro s a rest h
  rw [read_bareValue] at h
  split at h
  · cases h
  · cases h
    exact bareBody_suffix s

theorem shrinks_operand : operand.Shrinks :=
  .bind (.orElse shrinks_quotedString shrinks_bareValue) fun _ => .pure _

/-! ## Comparisons -/

theorem skipSpace_token (c : Comparison) (s : List Char) :
    Text.skipSpace (' ' :: (c.token.toList ++ s)) = c.token.toList ++ s := by
  rcases c with ⟨r, n, k⟩ | o
  · cases r <;> cases n <;> cases k <;> rfl
  · cases o <;> rfl

theorem skipSpace_value (v : Value) (s : List Char) :
    Text.skipSpace (' ' :: (v.spelling ++ s)) = v.spelling ++ s := by
  have hstart : ∀ c ∈ (v.spelling ++ s).head?, Text.isSpace c = false := by
    by_cases hv : ∃ t, v = .text t
    · obtain ⟨t, rfl⟩ := hv
      rintro c ⟨⟩
      decide
    · have hbare := Value.isBare_plainText fun t ht => hv ⟨t, ht⟩
      intro c hc
      rw [Value.spelling_of_ne_text fun t ht => hv ⟨t, ht⟩] at hc
      exact isSpace_of_isBareChar (hbare.2 c (mem_of_mem_head? hbare.1 hc))
  rw [Text.skipSpace_blank, Text.skipSpace_of_head hstart]

/-- Of the spellings of a comparison all but one are its token. -/
theorem eq_token_of_ofToken? {op : String} {c : Comparison} (h : Comparison.ofToken? op = some c) :
    op = c.token ∨ op = "=" ∧ c = .equal := by
  have hall : ∀ t ∈ Comparison.spellings, t.1 = t.2.token ∨ t.1 = "=" ∧ t.2 = .equal := by decide
  obtain ⟨before, behind, hspellings, -⟩ := List.lookup_eq_some_iff.1 h
  exact hall (op, c) (hspellings ▸ List.mem_append_right before List.mem_cons_self)

theorem read_padded_comparisonOperator {op : String} {c : Comparison}
    (h : Comparison.ofToken? op = some c) (s : List Char) :
    (padded comparisonOperator).read (' ' :: (op.toList ++ ' ' :: s)) =
      some (c, Text.skipSpace (' ' :: s)) := by
  rcases eq_token_of_ofToken? h with rfl | ⟨rfl, rfl⟩
  · rw [read_padded, skipSpace_token, read_comparisonOperator, Option.map_some]
  · rfl

/-- A path, a spelling of an operator and an operand, with a space behind each of the first two. -/
theorem read_comparison_of_read {s t rest : List Char} {p : Path} {op : String} {c : Comparison}
    {a : Value} (hpath : path.read s = some (p, ' ' :: (op.toList ++ ' ' :: t)))
    (hop : Comparison.ofToken? op = some c)
    (hoperand : operand.read (Text.skipSpace (' ' :: t)) = some (a, rest)) :
    comparison.read s = some (.leaf ⟨p, .comparison c, some a⟩, rest) := by
  rw [comparison, read_bind, hpath, Option.bind_some, read_bind, read_optional, read_bind,
    read_padded_comparisonOperator hop, Option.bind_some, read_bind, hoperand]
  rfl

theorem read_comparison_value {p : Path} (hp : p.HasFieldNames) (c : Comparison) (v : Value)
    {rest : List Char} (stop : EndsValue rest) :
    comparison.read
        (p.spelling ++ ' ' :: (c.token.toList ++ ' ' :: (v.spelling ++ rest))) =
      some (.leaf ⟨p, .comparison c, some (.text (String.ofList v.plainText))⟩, rest) := by
  refine read_comparison_of_read (read_path hp (endsPath_space _)) (Comparison.ofToken?_token c) ?_
  rw [skipSpace_value, read_operand v stop]

/-- A path alone asks for a value, when no operator follows. -/
theorem read_comparison_present {p : Path} (hp : p.HasFieldNames) {rest : List Char}
    (stop : EndsPath rest)
    (mark : ∀ c ∈ (Text.skipSpace rest).head?, c = '&' ∨ c = '|' ∨ c = ')') :
    comparison.read (p.spelling ++ rest) = some (.leaf (.present p), rest) := by
  rw [comparison, read_bind, read_path hp stop, Option.bind_some, read_bind, read_optional,
    read_bind, read_padded, read_comparisonOperator_eq_none mark]
  rfl

theorem shrinks_comparison : comparison.Shrinks :=
  .bind shrinks_path fun _ =>
    .bind (.optional (.bind (.padded shrinks_comparisonOperator) fun _ =>
      .bind shrinks_operand fun _ => .pure _)) fun _ => .pure _

end Grammar

end EventQuery
