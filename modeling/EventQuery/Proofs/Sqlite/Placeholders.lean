import EventQuery.Proofs.Backend.Lowering
import EventQuery.Proofs.Sqlite.Condition
import Mathlib.Data.List.Forall2

/-!
# Placeholders and their parameters

The SQL for a criterion is that of its leaves in their order, with text around and between them that
has no placeholders, and its parameters are theirs in the same order. A leaf has a placeholder for
its operand and none without one. So the placeholders of the whole are as many as the parameters,
and each stands in the SQL of the leaf that binds its parameter.
-/

namespace EventQuery

/-- An element of two lists in a row is an element of the second or of the first. -/
theorem append_eq_append_cons_iff {α : Type} {xs ys before after : List α} {c : α} :
    xs ++ ys = before ++ c :: after ↔
      (∃ front, before = xs ++ front ∧ ys = front ++ c :: after) ∨
        ∃ back, xs = before ++ c :: back ∧ after = back ++ ys := by
  rw [List.append_eq_append_iff]
  constructor
  · rintro (⟨front, rfl, rfl⟩ | ⟨back, rfl, hback⟩)
    · exact Or.inl ⟨front, rfl, rfl⟩
    · rcases List.append_eq_cons_iff.1 hback.symm with ⟨rfl, rfl⟩ | ⟨back, rfl, rfl⟩
      · exact Or.inl ⟨[], by simp, rfl⟩
      · exact Or.inr ⟨back, rfl, rfl⟩
  · rintro (⟨front, rfl, rfl⟩ | ⟨back, rfl, rfl⟩)
    · exact Or.inl ⟨front, rfl, rfl⟩
    · exact Or.inr ⟨c :: back, rfl, rfl⟩

namespace Sqlite

/-- The text is the SQL of the conditions in their order, with text that has no placeholders before,
between and after them. -/
inductive Assembled : List SqlCondition → List Char → Prop
  | text {t : List Char} (plain : '?' ∉ t) : Assembled [] t
  | condition {t : List Char} {q : SqlCondition} {qs : List SqlCondition} {rest : List Char}
      (plain : '?' ∉ t) (more : Assembled qs rest) : Assembled (q :: qs) (t ++ (q.sql ++ rest))

namespace Assembled

variable {qs rs : List SqlCondition} {q : SqlCondition} {a b t : List Char}

theorem prepend (plain : '?' ∉ t) (h : Assembled qs a) : Assembled qs (t ++ a) := by
  cases h with
  | text plain' => exact .text (by simp [plain, plain'])
  | condition plain' more =>
      rw [← List.append_assoc]
      exact .condition (by simp [plain, plain']) more

theorem append (h : Assembled qs a) (h' : Assembled rs b) : Assembled (qs ++ rs) (a ++ b) := by
  induction h with
  | text plain => exact h'.prepend plain
  | condition plain more ih =>
      rw [List.append_assoc, List.append_assoc]
      exact .condition plain ih

theorem single (q : SqlCondition) : Assembled [q] q.sql := by
  have h : Assembled [q] ([] ++ (q.sql ++ [])) := .condition (by simp) (.text (by simp))
  rwa [List.nil_append, List.append_nil] at h

/-- The placeholders are those of the conditions. -/
theorem count_eq (h : Assembled qs a) (each : ∀ q ∈ qs, q.sql.count '?' = q.params.length) :
    a.count '?' = (qs.flatMap (·.params)).length := by
  induction h with
  | text plain => exact List.count_eq_zero.2 plain
  | condition plain more ih =>
      rw [List.count_append, List.count_append, List.count_eq_zero.2 plain,
        each _ List.mem_cons_self, ih fun q hq => each q (List.mem_cons_of_mem _ hq),
        List.flatMap_cons, List.length_append, Nat.zero_add]

/-- A placeholder stands in one of the conditions, with the conditions before it on its left and
those after it on its right. -/
theorem exists_of_eq_append (h : Assembled qs a) {before after : List Char}
    (hplace : a = before ++ '?' :: after) :
    ∃ n, ∃ hn : n < qs.length, ∃ left front back right,
      before = left ++ front ∧ qs[n].sql = front ++ '?' :: back ∧ after = back ++ right ∧
        Assembled (qs.take n) left ∧ Assembled (qs.drop (n + 1)) right := by
  induction h generalizing before with
  | text plain =>
      rw [hplace] at plain
      simp at plain
  | @condition t q qs rest plain more ih =>
      rcases append_eq_append_cons_iff.1 hplace with ⟨inner, rfl, hinner⟩ | ⟨_, rfl, -⟩
      · rcases append_eq_append_cons_iff.1 hinner with ⟨inner, rfl, hrest⟩ | ⟨back, hq, rfl⟩
        · -- it stands behind the first condition
          obtain ⟨n, hn, left, front, back, right, rfl, hsql, rfl, hleft, hright⟩ := ih hrest
          refine ⟨n + 1, by simpa using hn, t ++ (q.sql ++ left), front, back, right, by simp, hsql,
            rfl, ?_, hright⟩
          exact .condition plain hleft
        · exact ⟨0, by simp, t, inner, back, rest, rfl, hq, rfl, .text plain, more⟩
      · simp at plain

end Assembled

/-- The condition consists of these, with their parameters. -/
structure MadeOf (q : SqlCondition) (qs : List SqlCondition) : Prop where
  sql : Assembled qs q.sql
  params : q.params = qs.flatMap (·.params)

theorem madeOf_single (q : SqlCondition) : MadeOf q [q] := ⟨.single q, by simp⟩

theorem assembled_intercalate {separator : List Char} (plain : '?' ∉ separator)
    {es : List SqlCondition} {groups : List (List SqlCondition)}
    (h : List.Forall₂ MadeOf es groups) :
    Assembled groups.flatten (separator.intercalate (es.map (·.sql))) := by
  induction h with
  | nil => exact .text (by simp)
  | cons he hes ih =>
      cases hes with
      | nil => simpa using he.sql
      | cons he' hes =>
          rw [List.map_cons, List.map_cons, List.intercalate_cons_cons, List.flatten_cons,
            List.append_assoc]
          exact he.sql.append (ih.prepend plain)

theorem flatMap_params_of_madeOf {es : List SqlCondition} {groups : List (List SqlCondition)}
    (h : List.Forall₂ MadeOf es groups) :
    es.flatMap (·.params) = groups.flatten.flatMap (·.params) := by
  induction h with
  | nil => rfl
  | cons he hes ih =>
      rw [List.flatMap_cons, List.flatten_cons, List.flatMap_append, he.params, ih]

/-- Joined conditions are made of what the operands are made of. -/
theorem madeOf_joinConditions (c : Connective) {es : List SqlCondition}
    {groups : List (List SqlCondition)} (h : List.Forall₂ MadeOf es groups) :
    MadeOf (joinConditions c es) groups.flatten where
  sql := by
    have hseparator : '?' ∉ (connectiveText c).toList := by cases c <;> decide
    have hopen : '?' ∉ ['('] := by decide
    have hclose : Assembled [] [')'] := .text (by decide)
    have hjoined := ((assembled_intercalate hseparator h).append hclose).prepend hopen
    rwa [List.append_nil] at hjoined
  params := flatMap_params_of_madeOf h

/-- Where each condition has a placeholder for its parameter or neither, a placeholder of the whole
stands in the condition whose parameter is bound to it. -/
theorem MadeOf.exists_param {q : SqlCondition} {qs : List SqlCondition} (h : MadeOf q qs)
    (each : ∀ q ∈ qs, q.params.length ≤ 1 ∧ q.sql.count '?' = q.params.length)
    {before after : List Char} (hplace : q.sql = before ++ '?' :: after) :
    ∃ n, ∃ hn : n < qs.length, ∃ left front back right param,
      before = left ++ front ∧ after = back ++ right ∧ qs[n] = ⟨front ++ '?' :: back, [param]⟩ ∧
      Assembled (qs.take n) left ∧ Assembled (qs.drop (n + 1)) right ∧
      before.count '?' = ((qs.take n).flatMap (·.params)).length ∧
      q.params[before.count '?']? = some param := by
  obtain ⟨n, hn, left, front, back, right, rfl, hsql, rfl, hleft, hright⟩ :=
    h.sql.exists_of_eq_append hplace
  obtain ⟨hle, hcount⟩ := each qs[n] (List.getElem_mem hn)
  rw [hsql, List.count_append, List.count_cons_self] at hcount
  have hfront : front.count '?' = 0 := by omega
  have hone : qs[n].params.length = 1 := by omega
  obtain ⟨param, hparam⟩ := List.length_eq_one_iff.1 hone
  have hnumber : (left ++ front).count '?' = ((qs.take n).flatMap (·.params)).length := by
    rw [List.count_append, hfront, Nat.add_zero]
    exact hleft.count_eq fun q hq => (each q (List.mem_of_mem_take hq)).2
  refine ⟨n, hn, left, front, back, right, param, rfl, rfl, ?_, hleft, hright, hnumber, ?_⟩
  · rw [← hsql, ← hparam]
  · rw [hnumber, h.params]
    conv_lhs => rw [← List.take_append_drop n qs]
    rw [List.flatMap_append, List.drop_eq_getElem_cons hn, List.flatMap_cons, hparam]
    simp

end Sqlite

namespace EntitySchema

open Sqlite

variable {s : EntitySchema} {document : String}

/-- The conditions are those for the leaves, one for each. -/
def LowersTo (s : EntitySchema) (document : String) (ls : List Leaf) (qs : List SqlCondition) :
    Prop :=
  List.Forall₂ (fun l q => s.lowerLeaf (Backend.sqlite document) l = .ok q) ls qs

/-- The condition for a criterion, if there is one, is made of those for its leaves. -/
theorem exists_madeOf_of_lower_ok {r : Criterion} {e? : Option SqlCondition}
    (h : s.lower (Backend.sqlite document) r = .ok e?) :
    ∃ groups, List.Forall₂ MadeOf e?.toList groups ∧
      s.LowersTo document r.leaves groups.flatten := by
  refine s.lower_induct ⟨[], .nil, .nil⟩
    (fun l e he => ⟨[[e]], .cons (madeOf_single e) .nil, .cons he .nil⟩)
    (fun c cs es? e? hes hjoin => ?_) h
  have hoperands : ∃ groups, List.Forall₂ MadeOf (es?.flatMap Option.toList) groups ∧
      s.LowersTo document (cs.flatMap Criterion.leaves) groups.flatten := by
    clear hjoin
    induction hes with
    | nil => exact ⟨[], .nil, .nil⟩
    | cons he hes ih =>
        obtain ⟨first, hfirst, hleaves⟩ := he
        obtain ⟨more, hmore, hleaves'⟩ := ih
        refine ⟨first ++ more, List.rel_append hfirst hmore, ?_⟩
        rw [List.flatMap_cons, List.flatten_append]
        exact List.rel_append hleaves hleaves'
  obtain ⟨groups, hgroups, hleaves⟩ := hoperands
  rw [Criterion.leaves_join]
  rw [lowerJoin_sqlite] at hjoin
  cases hjoin
  match es?.flatMap Option.toList, hgroups with
  | [], hgroups => exact ⟨groups, hgroups, hleaves⟩
  | [e], hgroups => exact ⟨groups, hgroups, hleaves⟩
  | x :: y :: zs, hgroups =>
      refine ⟨[groups.flatten], .cons (madeOf_joinConditions c hgroups) .nil, ?_⟩
      rwa [List.flatten_singleton]

/-- The SQL of a compiled criterion has as many placeholders as parameters, which are those of its
prepared leaves from left to right: one for a leaf with an operand, none for a leaf without. Each
placeholder stands in the SQL of the leaf whose parameter is bound to it, with the SQL of the leaves
before on its left and of those after on its right. -/
theorem placeholders_of_compile_ok (hdocument : '?' ∉ document.toList) {c : Criterion}
    (parsed : ∀ l ∈ c.leaves, ∃ text, Path.parse text = .ok l.path) {q : SqlCondition}
    (h : s.compile (Backend.sqlite document) c = .ok (some q)) :
    ∃ r qs, s.prepare c = .ok r ∧
      List.Forall₂ (fun l q => s.lowerLeaf (Backend.sqlite document) l = .ok q ∧
        q.params.length = l.operand.toList.length) r.leaves qs ∧
      q.params = qs.flatMap (·.params) ∧ q.sql.count '?' = q.params.length ∧
      ∀ before after, q.sql = before ++ '?' :: after →
        ∃ n, ∃ hn : n < qs.length, ∃ left front back right param,
          before = left ++ front ∧ after = back ++ right ∧
          qs[n] = ⟨front ++ '?' :: back, [param]⟩ ∧
          Assembled (qs.take n) left ∧ Assembled (qs.drop (n + 1)) right ∧
          before.count '?' = ((qs.take n).flatMap (·.params)).length ∧
          q.params[before.count '?']? = some param := by
  obtain ⟨r, hr, hlower⟩ := bind_eq_ok_iff.1 h
  have named := s.hasFieldNames_of_prepare_ok hr parsed
  obtain ⟨groups, hgroups, hleaves⟩ := exists_madeOf_of_lower_ok hlower
  cases hgroups with
  | @cons _ qs _ _ hmade hnone =>
      cases hnone
      rw [List.flatten_singleton] at hleaves
      have hfacts : List.Forall₂ (fun l q => (s.lowerLeaf (Backend.sqlite document) l = .ok q ∧
          q.params.length = l.operand.toList.length) ∧ q.sql.count '?' = q.params.length)
          r.leaves qs := by
        refine ((List.forall₂_and_left _ _).2 ⟨named, hleaves⟩).imp ?_
        rintro l q ⟨hl, hlower⟩
        obtain ⟨f, -, hcompile⟩ := compileLeaf_ok_of_lowerLeaf_sqlite hlower
        obtain ⟨hlength, hcount⟩ := count_of_compileLeaf_ok hdocument hl hcompile
        exact ⟨⟨hlower, hlength⟩, hcount⟩
      have each : ∀ q ∈ qs, q.params.length ≤ 1 ∧ q.sql.count '?' = q.params.length := by
        refine ((List.forall₂_and_left (R := fun _ _ => True) qs r.leaves).1 ?_).1
        refine hfacts.flip.imp ?_
        rintro q l ⟨⟨-, hlength⟩, hcount⟩
        refine ⟨⟨?_, hcount⟩, trivial⟩
        rw [hlength]
        cases l.operand <;> simp
      refine ⟨r, qs, hr, hfacts.imp fun _ _ h => h.1, hmade.params, ?_, ?_⟩
      · rw [hmade.params]
        exact hmade.sql.count_eq fun q hq => (each q hq).2
      · intro before after hplace
        exact hmade.exists_param each hplace

/-- An absence test and a list: three leaves with two operands. -/
theorem placeholders_of_compile_ok_absence :
    let s := ((empty "event").declareField (.single "name") (.ofType .text)).declareList
      (.single "tags") .first
    let c : Criterion := .join .and [.leaf (.absent (.single "name")),
      .leaf ⟨.single "tags", .equal, some (.text "x")⟩]
    '?' ∉ "document".toList ∧ (∀ l ∈ c.leaves, ∃ text, Path.parse text = .ok l.path) ∧
      ∃ q, s.compile (Backend.sqlite "document") c = .ok (some q) ∧
        q.text = "((json_extract(document, '$.name') IS NULL OR " ++
          "json_extract(document, '$.name') = ?) AND " ++
          "EXISTS (SELECT 1 FROM json_each(document, '$.tags') AS each0 WHERE each0.value = ?))" ∧
        q.params = [.text "", .text "x"] ∧ q.sql.count '?' = 2 := by
  intro s c
  have hdocument : '?' ∉ "document".toList := by decide
  have parsed : ∀ l ∈ c.leaves, ∃ text, Path.parse text = .ok l.path := by
    have named : ∀ l ∈ c.leaves, l.path.HasFieldNames := by decide
    exact fun l hl => ⟨_, Path.parse_text (named l hl)⟩
  have hfacts : (s.compile (Backend.sqlite "document") c).toOption.any (fun q? => q?.any fun q =>
      decide (q.text = "((json_extract(document, '$.name') IS NULL OR " ++
          "json_extract(document, '$.name') = ?) AND " ++
          "EXISTS (SELECT 1 FROM json_each(document, '$.tags') AS each0 WHERE each0.value = ?))" ∧
        q.params = [.text "", .text "x"])) = true := by
    decide +kernel
  obtain ⟨q?, hcompile, hfacts⟩ := exists_ok_of_any hfacts
  cases q? with
  | none => cases hfacts
  | some q =>
      obtain ⟨htext, hparams⟩ := of_decide_eq_true hfacts
      obtain ⟨-, -, -, -, -, hcount, -⟩ := placeholders_of_compile_ok hdocument parsed hcompile
      rw [hparams] at hcount
      exact ⟨hdocument, parsed, q, hcompile, htext, hparams, hcount⟩

end EntitySchema

end EventQuery
