import EventQuery.Proofs.Criterion.Composition
import EventQuery.Proofs.Grammar.Selection

/-!
# Paths as criteria and as selections

A path is also a criterion, the test for its presence, and it is also a selection. Its text is read
as the same path by all three grammars, except that one segment with an index is a call for the
grammar of selections. That grammar skips white space where the one of paths does not, and else
reads as a path what the grammar of paths reads.
-/

namespace EventQuery

namespace Grammar

open Matcher

theorem exists_head_of_read_path {s : List Char} {q : Path × List Char}
    (h : path.read s = some q) : ∃ c ∈ s.head?, c.isAlpha = true := by
  obtain ⟨x, xs, t, hfirst, -, -⟩ := read_path_eq_some_iff.1 h
  obtain ⟨name, i?, u, hname, -, -⟩ := read_bind_bind_pure_eq_some_iff.1 hfirst
  exact exists_head_of_read_fieldName hname

/-- A path that ends the text is the test for its presence. -/
theorem read_comparison_of_read_path {s : List Char} {p : Path}
    (h : path.read s = some (p, [])) : comparison.read s = some (.leaf (.present p), []) := by
  have nooperator : (padded comparisonOperator).read [] = none := by
    rw [read_padded, Text.skipSpace_nil, read_comparisonOperator_eq_none (fun c hc => by cases hc),
      Option.map_none]
  rw [comparison, read_bind, h, Option.bind_some, read_bind, read_optional, read_bind, nooperator]
  rfl

theorem exists_head_of_read_comparison {s : List Char} {q : Criterion × List Char}
    (h : comparison.read s = some q) : ∃ c ∈ s.head?, c.isAlpha = true := by
  rw [comparison, read_bind] at h
  obtain ⟨r, hpath, -⟩ := Option.bind_eq_some_iff.1 h
  exact exists_head_of_read_path hpath

/-- A comparison that ends the text is all of it. -/
theorem read_disjunction_of_read_comparison {s : List Char} {a : Criterion}
    (h : comparison.read s = some (a, [])) : disjunction.read s = some (a, []) := by
  have hletter := Text.forall_head_of_exists (exists_head_of_read_comparison h)
  apply read_disjunction_single
  rw [read_negation_comparison disjunction hletter, h]
  rfl

theorem read_disjunction_of_read_path {s : List Char} {p : Path}
    (h : path.read s = some (p, [])) : disjunction.read s = some (.leaf (.present p), []) :=
  read_disjunction_of_read_comparison (read_comparison_of_read_path h)

/-- A selection that ends with its expression is only that. -/
theorem read_selection_of_read_expression {s : List Char} {e : Selection.Expr}
    (h : expression.read s = some (e, [])) : selection.read s = some (⟨e, none, []⟩, []) := by
  rw [selection, read_padded, read_bind, read_expression_skipSpace, h]
  rfl

theorem skipSpace_of_read_expression {s rest : List Char} {e : Selection.Expr}
    (h : expression.read s = some (e, rest)) : Text.skipSpace rest = rest := by
  rw [read_expression_eq rfl] at h
  obtain ⟨q, -, heq⟩ := Option.map_eq_some_iff.1 h
  obtain ⟨-, rfl⟩ := Prod.mk.inj heq
  exact Text.skipSpace_skipSpace q.2

theorem ne_nil_of_read_commands {s rest : List Char} {ws : List String}
    (h : (optional (do let _ ← char '/'; separated fieldName (padded (char ',')))).read s =
      some (some ws, rest)) : ws ≠ [] := by
  obtain ⟨t, -, h⟩ := read_char_bind_eq_some_iff.1 (read_optional_eq_some_some_iff.1 h)
  rw [read_separated_eq] at h
  obtain ⟨p, -, h⟩ := Option.bind_eq_some_iff.1 h
  obtain ⟨q, -, h⟩ := Option.map_eq_some_iff.1 h
  cases h
  exact List.cons_ne_nil _ _

/-- Nothing stands behind the expression of a selection that is only that. -/
theorem read_expression_of_read_selection {s : List Char} {e : Selection.Expr}
    (h : selection.read s = some (⟨e, none, []⟩, [])) : expression.read s = some (e, []) := by
  obtain ⟨t, u, v, words?, hexpr, hextract, hcommands, hnil, hv⟩ := exists_of_read_selection h
  obtain ⟨-, rfl⟩ := read_optional_eq_some_none_iff.1 hextract
  have hnone : words? = none := by
    cases words? with
    | none => rfl
    | some words =>
        obtain rfl : words = [] := hnil
        exact absurd rfl (ne_nil_of_read_commands hcommands)
  subst hnone
  obtain ⟨-, rfl⟩ := read_optional_eq_some_none_iff.1 hcommands
  rw [hexpr, ← hv, skipSpace_of_read_expression hexpr]

/-- A selection that is a path is a chain. -/
theorem read_chain_of_read_expression {s : List Char} {p : Path}
    (unspaced : Unspaced s) (h : expression.read s = some (.path p, [])) :
    ∃ t, (chain expression).read s = some (.path p, t) ∧ Text.skipSpace t = [] := by
  rw [read_expression_eq unspaced.skipSpace_eq] at h
  obtain ⟨⟨e, t⟩, hread, heq⟩ := Option.map_eq_some_iff.1 h
  obtain ⟨rfl, ht⟩ := Prod.mk.inj heq
  rw [Option.or_eq_some_iff, Option.or_eq_some_iff] at hread
  rcases hread with hread | ⟨-, hread | ⟨-, hread⟩⟩
  · obtain ⟨q, -, heq⟩ := Option.map_eq_some_iff.1 hread
    cases heq
  · obtain ⟨q, -, heq⟩ := Option.map_eq_some_iff.1 hread
    cases heq
  · exact ⟨t, hread, ht⟩

end Grammar

/-- A text that is a path is read as the test for its presence and, unless it is one segment with
an index, as the selection of the path alone. A text without white space that is read as such a
selection is the path. -/
theorem Path.parse_agrees (text : String) :
    (∀ p, Path.parse text = .ok p →
      Criterion.parse text = .ok (.leaf (.present p)) ∧
        (p.HasNoLoneIndex → Selection.parse text = .ok ⟨.path p, none, []⟩)) ∧
      ∀ p, Grammar.Unspaced text.toList → Selection.parse text = .ok ⟨.path p, none, []⟩ →
        Path.parse text = .ok p := by
  constructor
  · intro p h
    have hread := Path.parse_eq_ok_iff.1 h
    constructor
    · obtain ⟨c, hc, halpha⟩ := Grammar.exists_head_of_read_path hread
      exact Criterion.parse_of_read_disjunction ⟨c, hc, Text.isSpace_of_isAlpha halpha⟩
        (Grammar.read_disjunction_of_read_path hread)
    · intro lone
      have hchain := Grammar.read_chain_of_read_path Grammar.expression hread nofun lone
      exact Grammar.Matcher.parse_eq_ok_iff.2 (Grammar.read_selection_of_read_expression
        (Grammar.read_expression_of_read_chain hchain))
  · intro p unspaced h
    have hexpr := Grammar.read_expression_of_read_selection (Grammar.Matcher.parse_eq_ok_iff.1 h)
    obtain ⟨t, hchain, ht⟩ := Grammar.read_chain_of_read_expression unspaced hexpr
    have hread := Grammar.read_path_of_read_chain unspaced hchain
    have hrest : t = [] := by
      rw [← ht, (unspaced.of_suffix (Grammar.shrinks_path _ p t hread)).skipSpace_eq]
    rw [Path.parse_eq_ok_iff, hread, hrest]

/-- An indexed path of two segments, which the grammar of selections reads back as a path. -/
theorem Path.parse_agrees_indexed :
    let p : Path := ⟨[⟨"source", some (.position (-1))⟩, .plain "node"], by simp⟩
    Criterion.parse "source(-1).node" = .ok (.leaf (.present p)) ∧
      Selection.parse "source(-1).node" = .ok ⟨.path p, none, []⟩ ∧
      Path.parse "source(-1).node" = .ok p := by
  intro p
  have htext : p.text = "source(-1).node" := by decide
  have hpath : Path.parse "source(-1).node" = .ok p := htext ▸ Path.parse_text (by decide)
  have hagrees := Path.parse_agrees "source(-1).node"
  obtain ⟨hcriterion, hselection⟩ := hagrees.1 p hpath
  have hs := hselection (by intro x hx; cases hx)
  have hunspaced : Grammar.Unspaced "source(-1).node".toList := by
    have hall : "source(-1).node".toList.all (fun c => !Text.isSpace c) = true := by decide
    intro c hc
    simpa using List.all_eq_true.1 hall c hc
  exact ⟨hcriterion, hs, hagrees.2 p hunspaced hs⟩

end EventQuery
