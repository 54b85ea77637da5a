import EventQuery.Proofs.Criterion.Parsing
import EventQuery.Proofs.Grammar.ViableCriteria

/-!
# Where syntax errors point

The furthest failure of a text lies behind a beginning of it that every choice made so far left
open. That beginning can be completed to a text that is parsed, so an error never points behind a
place where the text had gone wrong already.
-/

namespace EventQuery

/-- The place of an error is that of its failure. -/
theorem SyntaxError.ofFailure_append (x : List Char) (f : Grammar.Failure) :
    (ofFailure (x ++ f.rest) f).position = (String.ofList x).utf8ByteSize ∧
      (ofFailure (x ++ f.rest) f).snippet = String.ofList (f.rest.take snippetLength) := by
  have hbefore : (x ++ f.rest).take ((x ++ f.rest).length - f.rest.length) = x := by
    rw [List.length_append, Nat.add_sub_cancel]
    exact List.take_left
  refine ⟨?_, rfl⟩
  show (String.ofList ((x ++ f.rest).take _)).utf8ByteSize = _
  rw [hbefore]

namespace Criterion

open Grammar Grammar.Matcher

theorem parse_eq_error_iff {text : String} {e : SyntaxError} :
    Criterion.parse text = .error e ↔
      Text.isBlank text = false ∧ criteria.parse text.toList = .error e := by
  cases blank : Text.isBlank text with
  | true => simp [parse_of_isBlank blank]
  | false =>
      rw [Criterion.parse, blank, if_neg Bool.false_ne_true]
      cases criteria.parse text.toList <;> simp [Except.map]

/-- A text that is refused is cut in two by the position of the error, a number of bytes that ends a
character. The snippet shows the beginning of the second part, and some text completes the first
part to one that is parsed. -/
theorem parse_error_viable {text : String} {e : SyntaxError}
    (h : Criterion.parse text = .error e) :
    e.position ≤ text.utf8ByteSize ∧ (⟨e.position⟩ : String.Pos.Raw).IsValid text ∧
      ∃ before after : String, text = before ++ after ∧ e.position = before.utf8ByteSize ∧
        e.snippet = String.ofList (after.toList.take 24) ∧
        ∃ (continuation : String) (a : Criterion),
          Criterion.parse (before ++ continuation) = .ok a := by
  obtain ⟨f, x, w, a, rfl, htext, hwhole⟩ :=
    exists_completion_of_parse_eq_error (viable_criteria _) (parse_eq_error_iff.1 h).2
  rw [htext]
  obtain ⟨hposition, hsnippet⟩ := SyntaxError.ofFailure_append x f
  have hcut : text = String.ofList x ++ String.ofList f.rest := by
    rw [← String.toList_inj, htext]
    simp
  have hsize : (String.ofList x).utf8ByteSize ≤ text.utf8ByteSize := by
    rw [hcut, String.utf8ByteSize_append]
    exact Nat.le_add_right _ _
  refine ⟨hposition ▸ hsize, ?_, String.ofList x, String.ofList f.rest, hcut, hposition, ?_,
    String.ofList w, ?_⟩
  · rw [hposition]
    exact String.Pos.Raw.isValid_iff_exists_append.2
      ⟨String.ofList x, String.ofList f.rest, hcut, rfl⟩
  · rw [hsnippet, String.toList_ofList]
    rfl
  · cases hresult : Criterion.parse (String.ofList x ++ String.ofList w) with
    | ok b => exact ⟨b, rfl⟩
    | error e =>
        have herror := (parse_eq_error_iff.1 hresult).2
        rw [String.toList_append, String.toList_ofList, String.toList_ofList, hwhole] at herror
        cases herror

/-- A number that is too large is refused where it starts, not behind its digits. The text before it
has 20 characters, one of them of two bytes. -/
theorem parse_error_viable_overflow :
    Criterion.parse "name == \"é\" && tags(99999999999999999999).x == a && b" =
        .error ⟨.unexpected, 21, 22, some '9', "99999999999999999999).x "⟩ ∧
      ∃ before after : String,
        "name == \"é\" && tags(99999999999999999999).x == a && b" = before ++ after ∧
        21 = before.utf8ByteSize ∧
        "99999999999999999999).x " = String.ofList (after.toList.take 24) ∧
        ∃ (continuation : String) (a : Criterion),
          Criterion.parse (before ++ continuation) = .ok a := by
  have heval : (match Criterion.parse "name == \"é\" && tags(99999999999999999999).x == a && b" with
      | .error e => decide (e = ⟨.unexpected, 21, 22, some '9', "99999999999999999999).x "⟩)
      | .ok _ => false) = true := by
    decide +kernel
  have herror : Criterion.parse "name == \"é\" && tags(99999999999999999999).x == a && b" =
      .error ⟨.unexpected, 21, 22, some '9', "99999999999999999999).x "⟩ := by
    cases hparse : Criterion.parse "name == \"é\" && tags(99999999999999999999).x == a && b" with
    | ok a =>
        rw [hparse] at heval
        cases heval
    | error e =>
        rw [hparse] at heval
        rw [of_decide_eq_true heval]
  exact ⟨herror, (parse_error_viable herror).2.2⟩

end Criterion

end EventQuery
