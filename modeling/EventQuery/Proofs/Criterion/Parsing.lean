import EventQuery.Proofs.Criterion.NormalForm
import EventQuery.Proofs.Errors
import EventQuery.Proofs.Grammar.Criteria

/-!
# What criteria are parsed to

Text that is not blank is parsed to the normal form of what the grammar reads. A property of
criteria that comparisons have, and that combination and negation keep, holds of all that is read.

Only blank text is read as a criterion without leaves: every construct of the grammar contains a
comparison, and combination, negation and flattening keep it.
-/

namespace EventQuery

namespace Grammar

open Matcher

/-- A property of all criteria that the grammar can put together. -/
structure Kept (P : Criterion → Prop) : Prop where
  comparison : comparison.Yields P
  combine : ∀ c {a b}, P a → P b → P (Criterion.combine c a b)
  negate : ∀ {a}, P a → P a.negate

namespace Kept

variable {P : Criterion → Prop}

theorem foldl_combine (h : Kept P) (c : Connective) {a : Criterion} {as : List Criterion}
    (ha : P a) (has : ∀ b ∈ as, P b) : P (as.foldl (Criterion.combine c) a) := by
  induction as generalizing a with
  | nil => exact ha
  | cons b as ih =>
      exact ih (h.combine c ha (has b List.mem_cons_self))
        fun d hd => has d (List.mem_cons_of_mem b hd)

theorem joined (h : Kept P) (c : Connective) {m : Matcher Criterion} (hm : m.Yields P) :
    (joined c m).Yields P :=
  .bind hm fun _ hfirst => .bind (.many (.bind_all fun _ => hm)) fun _ hmore =>
    .pure (h.foldl_combine c hfirst hmore)

theorem negation (h : Kept P) {inner : Matcher Criterion} (hinner : inner.Yields P) :
    (negation inner).Yields P := by
  have hgroup : (group inner).Yields P :=
    .bind_all fun _ => .bind hinner fun _ ha => .bind_all fun _ => .pure ha
  refine .bind_all fun bangs => .bind (.padded (.orElse hgroup h.comparison)) fun a ha => .pure ?_
  split
  · exact h.negate ha
  · exact ha

theorem criteria (h : Kept P) : criteria.Yields P :=
  .padded (.recursive fun _ hk => h.joined .or (h.joined .and (h.negation hk)))

end Kept

/-- The criterion contains a comparison. -/
def HasLeaf (a : Criterion) : Prop := a.leaves ≠ []

theorem kept_hasLeaf : Kept HasLeaf where
  comparison := by
    refine .bind_all fun p => .bind_all fun test => .pure ?_
    cases test with
    | none => exact List.cons_ne_nil _ _
    | some t => exact List.cons_ne_nil _ _
  combine c a b ha _ := by
    rw [HasLeaf, Criterion.leaves_combine]
    exact List.append_ne_nil_of_left_ne_nil ha _
  negate ha := by
    rw [HasLeaf, Criterion.leaves_negate]
    exact mt List.map_eq_nil_iff.1 ha

end Grammar

namespace Criterion

theorem parse_of_isBlank {text : String} (blank : Text.isBlank text = true) :
    Criterion.parse text = .ok empty := if_pos blank

theorem parse_eq_ok_iff {text : String} (blank : Text.isBlank text = false) {a : Criterion} :
    Criterion.parse text = .ok a ↔
      ∃ b, Grammar.criteria.read text.toList = some (b, []) ∧ b.flatten = a := by
  rw [Criterion.parse, blank, if_neg Bool.false_ne_true, map_eq_ok_iff]
  exact exists_congr fun b => and_congr_left fun _ => Grammar.Matcher.parse_eq_ok_iff

/-- What the grammar reads from a text that begins with no white space is parsed from it. -/
theorem parse_of_read_disjunction {text : String} {a : Criterion}
    (start : ∃ c ∈ text.toList.head?, Text.isSpace c = false)
    (h : Grammar.disjunction.read text.toList = some (a, [])) :
    Criterion.parse text = .ok a.flatten := by
  obtain ⟨c, hc, hspace⟩ := start
  cases htext : text.toList with
  | nil =>
      rw [htext] at hc
      cases hc
  | cons d s =>
      rw [htext] at hc
      cases hc
      have blank : Text.isBlank text = false := by
        rw [Text.isBlank, htext, List.all_cons, hspace, Bool.false_and]
      refine (parse_eq_ok_iff blank).2 ⟨a, ?_, rfl⟩
      rw [Grammar.criteria, Grammar.Matcher.read_padded, htext,
        Text.skipSpace_cons_self hspace, ← htext, h]
      rfl

/-- Only blank text is no condition. -/
theorem leaves_eq_nil_iff_of_parse_ok {text : String} {a : Criterion}
    (h : Criterion.parse text = .ok a) : a.leaves = [] ↔ Text.isBlank text = true := by
  cases blank : Text.isBlank text with
  | true =>
      rw [parse_of_isBlank blank] at h
      cases h
      exact iff_of_true rfl rfl
  | false =>
      obtain ⟨b, hread, rfl⟩ := (parse_eq_ok_iff blank).1 h
      rw [leaves_flatten]
      exact iff_of_false (Grammar.kept_hasLeaf.criteria _ b _ hread) Bool.false_ne_true

end Criterion

end EventQuery
