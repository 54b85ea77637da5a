import EventQuery.Proofs.Criterion.Parsing
import EventQuery.Proofs.Pipeline.Restriction
import EventQuery.Proofs.Request.Memory
import EventQuery.Proofs.Schema.Targets

/-!
# When a filter is no restriction

A filter that compiles to no restriction lets every event through, so it should be blank. It is,
unless the filter only asks for logical fields that were left without targets: nothing refuses a
definition with such a field, and a comparison with it disappears. Where every logical field has a
target, text that is not blank always restricts, and so does every criterion with a leaf.
-/

namespace EventQuery

namespace Registry

/-- Read text is a pipeline away from parsed text. -/
theorem readCriterion_eq_ok_iff {r : Registry} {options : CompileOptions} {entity text : String}
    {c : Criterion} :
    r.readCriterion options entity text = .ok c ↔
      ∃ s a, r.schema entity = .ok s ∧ Criterion.parse text = .ok a ∧
        Pipeline.run (Pipeline.standard options) s a = .ok c := by
  constructor
  · intro h
    obtain ⟨s, hs, h⟩ := bind_eq_ok_iff.1 h
    obtain ⟨a, ha, h⟩ := bind_eq_ok_iff.1 h
    refine ⟨s, a, hs, ?_, h⟩
    cases hparse : Criterion.parse text with
    | error e =>
        rw [hparse] at ha
        cases ha
    | ok b =>
        rw [hparse] at ha
        cases ha
        rfl
  · rintro ⟨s, a, hs, ha, h⟩
    refine bind_eq_ok_iff.2 ⟨s, hs, bind_eq_ok_iff.2 ⟨a, ?_, h⟩⟩
    rw [ha]
    rfl

theorem IsTargeted.not_standsForNothing {r : Registry} (h : r.IsTargeted) {entity : String}
    {s : EntitySchema} (hs : r.schema entity = .ok s) (l : Leaf) : ¬ s.StandsForNothing l := by
  rintro ⟨e, he, hnil⟩
  cases hget : r.entities.get? entity with
  | none =>
      rw [Registry.schema, hget] at hs
      cases hs
  | some s' =>
      rw [Registry.schema, hget] at hs
      cases hs
      exact h entity s hget _ e he hnil

end Registry

namespace Request

variable {r : Registry} {options : CompileOptions} {q : Request}

/-- Text compiles to no restriction when it is blank, or when all its comparisons are with logical
fields without targets. -/
theorem Reachable.compileText_eq_none_iff (h : Reachable r options q) (b : Backend ε)
    (entity text : String) :
    (q.compileText b entity text).1 = .ok none ↔
      ∃ s, r.schema entity = .ok s ∧ (Text.isBlank text = true ∨
        ∃ a, Criterion.parse text = .ok a ∧ a.leaves ≠ [] ∧
          ∀ l ∈ a.leaves, s.StandsForNothing l) := by
  rw [h.remembers.compileText_fst]
  constructor
  · intro hnone
    obtain ⟨c, hc, hcompile⟩ := bind_eq_ok_iff.1 hnone
    obtain ⟨s, a, hs, ha, hrun⟩ := Registry.readCriterion_eq_ok_iff.1 hc
    rw [hs] at hcompile
    have hleaves := (Pipeline.run_compile_eq_none_iff options s b a).1
      (bind_eq_ok_iff.2 ⟨c, hrun, hcompile⟩)
    refine ⟨s, hs, ?_⟩
    by_cases hblank : Text.isBlank text = true
    · exact Or.inl hblank
    · exact Or.inr ⟨a, ha, mt (Criterion.leaves_eq_nil_iff_of_parse_ok ha).1 hblank, hleaves⟩
  · rintro ⟨s, hs, hcases⟩
    obtain ⟨a, ha, hleaves⟩ : ∃ a, Criterion.parse text = .ok a ∧
        ∀ l ∈ a.leaves, s.StandsForNothing l := by
      rcases hcases with hblank | ⟨a, ha, -, hleaves⟩
      · refine ⟨.empty, ?_, fun _ hl => absurd hl List.not_mem_nil⟩
        rw [Criterion.parse, if_pos hblank]
      · exact ⟨a, ha, hleaves⟩
    obtain ⟨c, hrun, hcompile⟩ :=
      bind_eq_ok_iff.1 ((Pipeline.run_compile_eq_none_iff options s b a).2 hleaves)
    refine bind_eq_ok_iff.2 ⟨c, Registry.readCriterion_eq_ok_iff.2 ⟨s, a, hs, ha, hrun⟩, ?_⟩
    rw [hs]
    exact hcompile

/-- In every request against a registry built from a definition, text compiles to no restriction
exactly when it is blank or asks for logical fields without targets only, and so does a criterion
when it has no leaf or only such. When every logical field is given a target, only blank text and
criteria without leaves are no restriction. -/
theorem unrestricted_iff {c : SchemaConfig} (built : c.build = .ok r) (options : CompileOptions)
    (entity : String) (b : Backend ε) :
    (∀ q, Reachable r options q → ∀ text, (q.compileText b entity text).1 = .ok none ↔
      ∃ s, r.schema entity = .ok s ∧ (Text.isBlank text = true ∨
        ∃ a, Criterion.parse text = .ok a ∧ a.leaves ≠ [] ∧
          ∀ l ∈ a.leaves, s.StandsForNothing l)) ∧
    (∀ s, r.schema entity = .ok s → ∀ a,
      (Pipeline.run (Pipeline.standard options) s a >>= s.compile b) = .ok none ↔
        ∀ l ∈ a.leaves, s.StandsForNothing l) ∧
    (c.HasTargets →
      (∀ q, Reachable r options q → ∀ text,
        (q.compileText b entity text).1 = .ok none → Text.isBlank text = true) ∧
      ∀ s, r.schema entity = .ok s → ∀ a,
        (Pipeline.run (Pipeline.standard options) s a >>= s.compile b) = .ok none →
          a.leaves = []) := by
  refine ⟨fun q hq text => hq.compileText_eq_none_iff b entity text,
    fun s _ a => Pipeline.run_compile_eq_none_iff options s b a, fun targets => ?_⟩
  have hvoid : ∀ s, r.schema entity = .ok s → ∀ a : Criterion,
      (∀ l ∈ a.leaves, s.StandsForNothing l) → a.leaves = [] := by
    intro s hs a hleaves
    refine List.eq_nil_iff_forall_not_mem.2 fun l hl => ?_
    exact (SchemaConfig.isTargeted_of_build targets built).not_standsForNothing hs l (hleaves l hl)
  constructor
  · intro q hq text hnone
    obtain ⟨s, hs, hblank | ⟨a, -, hne, hleaves⟩⟩ :=
      (hq.compileText_eq_none_iff b entity text).1 hnone
    · exact hblank
    · exact absurd (hvoid s hs a hleaves) hne
  · intro s hs a hnone
    exact hvoid s hs a ((Pipeline.run_compile_eq_none_iff options s b a).1 hnone)

/-- An event type with a name, and with a title that stands for the given fields. -/
def titled (targets : List String) : SchemaConfig where
  entities := [{
    name := "event"
    timeField := none
    fields := [⟨"name", .text, true, false, none, none⟩]
    lists := []
    expansions := [⟨"title", targets⟩] }]

/-- A filter on the title is lost where the title stands for nothing, and only there. -/
theorem unrestricted_iff_titled :
    (∃ r, (titled []).build = .ok r ∧
      ((start r ⟨false⟩).compileText .polarity "event" "title == x").1 = .ok none) ∧
    ∃ r, (titled ["name"]).build = .ok r ∧
      ((start r ⟨false⟩).compileText .polarity "event" "title == x").1 ≠ .ok none := by
  constructor
  · have hfacts : (titled []).build.toOption.any (fun r => (r.schema "event").toOption.any fun s =>
        (Criterion.parse "title == x").toOption.any fun a =>
          decide (a.leaves ≠ [] ∧ ∀ l ∈ a.leaves, s.StandsForNothing l)) = true := by
      decide +kernel
    obtain ⟨r, built, hfacts⟩ := exists_ok_of_any hfacts
    obtain ⟨s, hs, hfacts⟩ := exists_ok_of_any hfacts
    obtain ⟨a, ha, hfacts⟩ := exists_ok_of_any hfacts
    obtain ⟨hne, hleaves⟩ := of_decide_eq_true hfacts
    refine ⟨r, built, ((unrestricted_iff built ⟨false⟩ "event" .polarity).1 _ .start _).2 ?_⟩
    exact ⟨s, hs, Or.inr ⟨a, ha, hne, hleaves⟩⟩
  · have hfacts : (titled ["name"]).build.toOption.any (fun _ => true) = true := by
      decide +kernel
    obtain ⟨r, built, -⟩ := exists_ok_of_any hfacts
    have targets : (titled ["name"]).HasTargets := by
      simp [SchemaConfig.HasTargets, ExpansionConfig.HasTargets, titled]
    refine ⟨r, built, fun hnone => ?_⟩
    have hblank := ((unrestricted_iff built ⟨false⟩ "event" .polarity).2.2 targets).1
      _ .start _ hnone
    exact absurd hblank (by decide)

end Request

end EventQuery
