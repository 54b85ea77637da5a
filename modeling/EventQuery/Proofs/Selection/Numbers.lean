import EventQuery.Proofs.Grammar.Numbers

/-!
# Numbers in the text of a selection

The text of a selection that was parsed is read back with its numbers exactly if no floating-point
number in it is a whole number. Any other is written without a point, and nothing that is read in
its place is a floating-point number again.
-/

namespace EventQuery.Selection

/-- The floating-point numbers among the constants of the expression have a fraction. -/
def Expr.HasFractions (e : Expr) : Prop :=
  ∀ place x, e.constantAt? place = some (.float x) → x.hasFraction = true

theorem parse_text_of_isReread {s : Selection} (h : s.IsFormed Value.IsReread) :
    parse s.text = .ok s := by
  have hconstants : ∀ v : Value, v.IsReread → ∀ rest, Grammar.EndsExpression rest →
      Grammar.expression.read (v.spelling ++ rest) = some (.constant v, rest) := by
    intro v hv rest stop
    cases v with
    | bool b => exact hv.elim
    | text t => exact Grammar.read_expression_constant (v := .text t) trivial stop
    | int n => exact Grammar.read_expression_constant (v := .int n) trivial stop
    | float x => exact Grammar.read_expression_of_hasFraction hv stop
  rw [parse, text, String.toList_ofList]
  exact Grammar.Matcher.parse_eq_ok_iff.2 (Grammar.read_selection_of_constants hconstants h)

theorem isReread_of_hasFractions {s : Selection} (h : s.IsFormed Value.IsLiteral)
    (hasFractions : s.expr.HasFractions) : s.IsFormed Value.IsReread := by
  refine ⟨h.expr.of_constantAt? fun place v hv hat => ?_, h.extract, h.commands⟩
  cases v with
  | bool b => exact hv
  | text t => trivial
  | int n => trivial
  | float x => exact hasFractions place x hat

/-- What is read to the end of the text keeps the numbers. -/
theorem keeps_of_parse_text {s t : Selection} (h : s.IsFormed Value.IsLiteral)
    (hparse : parse s.text = .ok t) : s.expr.Keeps t.expr := by
  rw [parse, text, String.toList_ofList, spelling_eq] at hparse
  obtain ⟨u, v, w, words?, hexpr, hextract, hcommands, -, hw⟩ :=
    Grammar.exists_of_read_selection (Grammar.Matcher.parse_eq_ok_iff.1 hparse)
  rcases (Grammar.rereads_of_isFormed h.expr).keeps _ (Grammar.endsExpression_suffix s) _ u hexpr
    with ⟨-, hkeeps⟩ | ⟨u, rfl⟩
  · exact hkeeps
  · -- nothing is read from the parenthesis on
    rw [Grammar.Matcher.read_optional_char_of_ne (by rintro c ⟨⟩; decide)] at hextract
    obtain ⟨-, rfl⟩ := Prod.mk.inj (Option.some.inj hextract)
    rw [Grammar.Matcher.read_optional_char_of_ne (by rintro c ⟨⟩; decide)] at hcommands
    obtain ⟨-, rfl⟩ := Prod.mk.inj (Option.some.inj hcommands)
    cases hw

/-- The numbers in the text of a selection that was parsed are found again in their places exactly
if those with a point are no whole numbers. Then the selection itself is read, and else a number
with a point is read as no such number, if the text is read at all. -/
theorem parse_text_keeps_numbers_iff {text : String} {s : Selection} (h : parse text = .ok s) :
    ((∃ t, parse s.text = .ok t ∧ ∀ place v, v.IsNumber → s.expr.constantAt? place = some v →
        t.expr.constantAt? place = some v) ↔ s.expr.HasFractions) ∧
      (s.expr.HasFractions → parse s.text = .ok s) ∧
      ∀ t, parse s.text = .ok t → s.expr.Keeps t.expr := by
  have hformed : s.IsFormed Value.IsLiteral :=
    Grammar.yields_selection _ s _ (Grammar.Matcher.parse_eq_ok_iff.1 h)
  have hself : s.expr.HasFractions → parse s.text = .ok s :=
    fun hasFractions => parse_text_of_isReread (isReread_of_hasFractions hformed hasFractions)
  refine ⟨⟨?_, fun hasFractions => ⟨s, hself hasFractions, fun _ _ _ hat => hat⟩⟩, hself,
    fun t ht => keeps_of_parse_text hformed ht⟩
  rintro ⟨t, ht, hnumbers⟩ place x hat
  have hkept := keeps_of_parse_text hformed ht place (.float x) hat
  rw [hnumbers place (.float x) trivial hat, Value.IsKeptAs] at hkept
  by_contra hx
  rw [if_neg hx] at hkept
  exact hkept x rfl

/-- Of two numbers in a call the whole one is read back as an integer. -/
theorem parse_text_keeps_numbers_iff_call :
    ∃ s t, parse "f(g(2.0), -1.5)" = .ok s ∧ s.text = "f(g(2), -1.5)" ∧ parse s.text = .ok t ∧
      s.expr.constantAt? [0, 0] = some (.float (.ofNat 2)) ∧
      t.expr.constantAt? [0, 0] = some (.int 2) ∧
      t.expr.constantAt? [1] = some (.float (.ofDecimal true ⟨15, -1⟩)) ∧
      s.expr.Keeps t.expr ∧ ¬s.expr.HasFractions := by
  have hs : (parse "f(g(2.0), -1.5)").toOption.any (fun s => s.text = "f(g(2), -1.5)" ∧
      s.expr.constantAt? [0, 0] = some (.float (.ofNat 2))) = true := by decide +kernel
  have ht : (parse "f(g(2), -1.5)").toOption.any (fun t =>
      t.expr.constantAt? [0, 0] = some (.int 2) ∧
        t.expr.constantAt? [1] = some (.float (.ofDecimal true ⟨15, -1⟩))) = true := by
    decide +kernel
  obtain ⟨s, hs, hfacts⟩ := exists_ok_of_any hs
  obtain ⟨htext, hwhole⟩ := of_decide_eq_true hfacts
  obtain ⟨t, ht, hfacts⟩ := exists_ok_of_any ht
  obtain ⟨hinteger, hfraction⟩ := of_decide_eq_true hfacts
  rw [← htext] at ht
  obtain ⟨-, -, hkeeps⟩ := parse_text_keeps_numbers_iff hs
  refine ⟨s, t, hs, htext, ht, hwhole, hinteger, hfraction, hkeeps t ht, fun hasFractions => ?_⟩
  exact absurd (hasFractions [0, 0] _ hwhole) (by decide +kernel)

end EventQuery.Selection
