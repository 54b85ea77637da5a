import EventQuery.Request
import EventQuery.Proofs.Errors

/-!
# What requests remember

A request remembers only answers that its registry would give again: this holds of a new request,
and every question keeps it. An answer is therefore the one the registry gives, whether it comes
from memory or not, whatever was asked before.
-/

namespace EventQuery.Request

/-- The requests that questions lead to from a new one. -/
inductive Reachable (r : Registry) (options : CompileOptions) : Request → Prop
  | start : Reachable r options (.start r options)
  | resolve {q : Request} (h : Reachable r options q) (text : String) :
      Reachable r options (q.resolve text).2
  | readCriterion {q : Request} (h : Reachable r options q) (entity text : String) :
      Reachable r options (q.readCriterion entity text).2

/-- The request belongs to the registry and remembers nothing but answers of it. -/
structure Remembers (q : Request) (r : Registry) (options : CompileOptions) : Prop where
  registry_eq : q.registry = r
  options_eq : q.options = options
  selections : ∀ text s, q.selections.get? text = some s → r.readSelection text = .ok s
  criteria : ∀ entity text c, q.criteria.get? (entity, text) = some c →
    r.readCriterion options entity text = .ok c

variable {q : Request} {r : Registry} {options : CompileOptions}

theorem remembers_start (r : Registry) (options : CompileOptions) :
    (start r options).Remembers r options :=
  ⟨rfl, rfl, nofun, nofun⟩

/-! ## Selections -/

theorem Remembers.resolve (h : q.Remembers r options) (text : String) :
    (q.resolve text).1 = r.readSelection text ∧ (q.resolve text).2.Remembers r options := by
  obtain ⟨rfl, rfl, hselections, hcriteria⟩ := h
  unfold Request.resolve
  cases hget : q.selections.get? text with
  | some found => exact ⟨(hselections text found hget).symm, rfl, rfl, hselections, hcriteria⟩
  | none =>
      cases hread : q.registry.readSelection text with
      | error e => exact ⟨rfl, rfl, rfl, hselections, hcriteria⟩
      | ok s =>
          refine ⟨rfl, rfl, rfl, fun text' s' hget' => ?_, hcriteria⟩
          rw [Table.get?_insert] at hget'
          split at hget'
          · rename_i heq
            cases hget'
            exact heq ▸ hread
          · exact hselections text' s' hget'

/-! ## Criteria -/

theorem Remembers.readCriterion (h : q.Remembers r options) (entity text : String) :
    (q.readCriterion entity text).1 = r.readCriterion options entity text ∧
      (q.readCriterion entity text).2.Remembers r options := by
  obtain ⟨rfl, rfl, hselections, hcriteria⟩ := h
  unfold Request.readCriterion
  cases hget : q.criteria.get? (entity, text) with
  | some found =>
      exact ⟨(hcriteria entity text found hget).symm, rfl, rfl, hselections, hcriteria⟩
  | none =>
      cases hread : q.registry.readCriterion q.options entity text with
      | error e => exact ⟨rfl, rfl, rfl, hselections, hcriteria⟩
      | ok c =>
          refine ⟨rfl, rfl, rfl, hselections, fun entity' text' c' hget' => ?_⟩
          rw [Table.get?_insert] at hget'
          split at hget'
          · rename_i heq
            cases hget'
            cases heq
            exact hread
          · exact hcriteria entity' text' c' hget'

/-! ## Runs of questions -/

theorem Reachable.remembers (h : Reachable r options q) : q.Remembers r options := by
  induction h with
  | start => exact remembers_start r options
  | resolve _ text ih => exact (ih.resolve text).2
  | readCriterion _ entity text ih => exact (ih.readCriterion entity text).2

theorem Reachable.resolveAll (h : Reachable r options q) (texts : List String) :
    Reachable r options (q.resolveAll texts).2 := by
  induction texts generalizing q with
  | nil => exact h
  | cons text texts ih =>
      have hnext := h.resolve text
      rw [Request.resolveAll]
      cases hanswer : q.resolve text with
      | mk answer q' =>
          rw [hanswer] at hnext
          cases answer with
          | error e => exact hnext
          | ok s => exact ih hnext

theorem Reachable.compileText (h : Reachable r options q) (b : Backend ε) (entity text : String) :
    Reachable r options (q.compileText b entity text).2 :=
  h.readCriterion entity text

/-- Compiled text is what the registry makes of it, whatever the request remembers. -/
theorem Remembers.compileText_fst (h : q.Remembers r options) (b : Backend ε)
    (entity text : String) :
    (q.compileText b entity text).1 =
      (r.readCriterion options entity text).bind fun c =>
        (r.schema entity).bind fun s => s.compile b c := by
  obtain ⟨hanswer, hnext⟩ := h.readCriterion entity text
  show (q.readCriterion entity text).1.bind
    (fun c => (q.readCriterion entity text).2.compile b entity c) = _
  rw [hanswer]
  unfold Request.compile
  rw [hnext.registry_eq]
  rfl

end EventQuery.Request
