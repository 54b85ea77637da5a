import EventQuery.Proofs.Grammar.Selection

/-!
# Selections are read back from their text

Unlike a criterion a selection is read back as it is: constants keep their kind, and the nesting of
calls is written out. Only floating-point numbers and truth values are left out, and the names must
be such that they can be read. Whatever is read has such names.
-/

namespace EventQuery.Selection

/-- The written form is read back as the selection it is of, if that is formed of names that can be
read and of constants that are texts or integers. What is read is so formed, apart from constants
that are floating-point numbers. -/
theorem parse_text_and_isFormed_of_parse :
    (∀ s : Selection, s.IsFormed Value.IsExact → Selection.parse s.text = .ok s) ∧
      ∀ (text : String) (s : Selection), Selection.parse text = .ok s →
        s.IsFormed Value.IsLiteral := by
  constructor
  · intro s h
    rw [Selection.parse, text, String.toList_ofList]
    exact Grammar.Matcher.parse_eq_ok_iff.2 (Grammar.read_selection h)
  · intro text s h
    exact Grammar.yields_selection _ s _ (Grammar.Matcher.parse_eq_ok_iff.1 h)

/-- Calls in calls, one without arguments, an indexed path and constants of both kinds. -/
theorem parse_text_and_isFormed_of_parse_nested :
    let s : Selection :=
      { expr := .call "avg" [.path ⟨[⟨"source", some (.position (-1))⟩, .plain "node"], by simp⟩,
          .call "coalesce" [.constant (.text "a\"(0)"), .constant (.int (-3))], .call "now" []]
        extract := some "year"
        commands := ["group_by", "sort"] }
    s.text = "avg(source(-1).node, coalesce(\"a\\\"(0)\", -3), now()):year/group_by,sort" ∧
      Selection.parse s.text = .ok s ∧ s.IsFormed Value.IsLiteral := by
  intro s
  have hpath : (Expr.path ⟨[⟨"source", some (.position (-1))⟩, .plain "node"], by simp⟩).IsFormed
      Value.IsExact := .path _ (by decide) (by intro x hx; cases hx)
  have hcoalesce : (Expr.call "coalesce"
      [.constant (.text "a\"(0)"), .constant (.int (-3))]).IsFormed Value.IsExact :=
    .call _ _ (by decide) (List.forall_mem_cons.2 ⟨.constant _ trivial,
      List.forall_mem_singleton.2 (.constant _ trivial)⟩)
  have hnow : (Expr.call "now" []).IsFormed Value.IsExact := .call _ _ (by decide) nofun
  have hs : s.IsFormed Value.IsExact := by
    refine ⟨.call _ _ (by decide) ?_, by decide, by decide⟩
    exact List.forall_mem_cons.2 ⟨hpath, List.forall_mem_cons.2
      ⟨hcoalesce, List.forall_mem_singleton.2 hnow⟩⟩
  have hparse := parse_text_and_isFormed_of_parse.1 s hs
  exact ⟨by decide, hparse, parse_text_and_isFormed_of_parse.2 _ s hparse⟩

end EventQuery.Selection
