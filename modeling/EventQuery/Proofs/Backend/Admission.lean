import EventQuery.Proofs.Backend.Calls
import EventQuery.Proofs.Schema.Operators

/-!
# The leaves that reach a backend

The leaves of a criterion are checked before they are prepared, and a backend sees them afterwards.
Preparation changes paths and operands but neither the field of a leaf nor its operator, so what was
checked still holds of what a backend is given. The one leaf that preparation adds, the comparison
with the empty text beside an absence test, is not checked: a field of text may be so compared
whatever operators it accepts.
-/

namespace EventQuery

/-- Whether the call compiles a leaf that has the property. -/
def Call.compiles (p : Leaf → LeafContext → Bool) : Call ε → Bool
  | .leaf l x _ => p l x
  | .join .. => false

theorem exists_leaf_of_any_compiles {p : Leaf → LeafContext → Bool} {calls : List (Call ε)}
    (h : calls.any (Call.compiles p) = true) :
    ∃ l x answer, .leaf l x answer ∈ calls ∧ p l x = true := by
  obtain ⟨k, hk, hp⟩ := List.any_eq_true.1 h
  cases k with
  | leaf l x answer => exact ⟨l, x, answer, hk, hp⟩
  | join => cases hp

namespace Registry

/-- Against a registry built from a definition, a backend is only asked to compile leaves of
declared fields. Each tests whether there is a value, or compares it by an operator that the field
accepts, one of the comparisons where the definition lists no connective, or else it is the
comparison with the empty text that goes with an absence test on a field of text. -/
theorem compiles_accepted_leaves {c : SchemaConfig} {r : Registry} (built : c.build = .ok r)
    {entity : String} {s : EntitySchema} (hs : r.schema entity = .ok s) (b : Backend ε)
    (a : Criterion) (l : Leaf) (x : LeafContext) (answer : Except QueryError ε)
    (called : .leaf l x answer ∈ (s.recordedCompile b a).2) :
    s.fields.get? l.path.canonical = some x.field ∧
      (l.operand = none ∧ (l.operator = .equal ∨ l.operator = .notEqual) ∨
        l.operand.isSome = true ∧ x.field.allows l.operator = true ∧
          ((∀ j, ¬ c.Lists entity l.path.canonical (.connective j)) →
            ∃ k ∈ Comparison.all, l.operator = .comparison k) ∨
        x.field.type = .text ∧ ∃ m ∈ a.leaves, m.operand = none ∧ m.operator = .equal ∧
          l = ⟨(s.pinLeaf m).path, .equal, some (.text "")⟩) := by
  have accounts := SchemaConfig.AccountsFor.of_build built hs
  obtain ⟨-, hrefused, hcalls⟩ := s.recordedCompile_spec b a
  obtain ⟨p, hp⟩ : ∃ p, s.prepare a = .ok p := by
    cases hp : s.prepare a with
    | error e =>
        rw [hrefused e hp] at called
        cases called
    | ok p => exact ⟨p, rfl⟩
  obtain ⟨f, hf, hcases⟩ := s.accepts_of_prepare_ok hp ((hcalls p hp).mem_of_leaf called)
  obtain ⟨hresolve, -, -, -⟩ := (hcalls p hp).genuine _ called
  cases (s.resolve_ok_iff.1 hresolve).symm.trans hf
  have hget := accounts.get?_of_field? hf
  refine ⟨hget, ?_⟩
  rcases hcases with haccepts | ⟨htype, m, hm, habsence, hl⟩
  · unfold Field.accepts at haccepts
    cases hoperand : l.operand with
    | none =>
        rw [hoperand] at haccepts
        exact Or.inl ⟨rfl, by simpa using haccepts⟩
    | some v =>
        rw [hoperand] at haccepts
        refine Or.inr (Or.inl ⟨rfl, haccepts, fun hlists => ?_⟩)
        cases hoperator : l.operator with
        | comparison k => exact ⟨k, k.mem_all, rfl⟩
        | connective j =>
            rw [hoperator] at haccepts
            exact absurd (accounts.lists_of_allows hget haccepts) (hlists j)
  · obtain ⟨hoperand, hoperator, -⟩ := s.isTextAbsence_iff.1 habsence
    exact Or.inr (Or.inr ⟨htype, m, hm, hoperand, hoperator, hl⟩)

/-- An event type with a name that may only be searched in and a tag that no comparison is for. -/
def restricted : SchemaConfig where
  entities := [{
    name := "event"
    timeField := none
    fields := [⟨"name", .text, true, false, some [.comparison (.relation .contains false false)],
        none⟩,
      ⟨"tag", .text, true, false, some [.connective .and], none⟩]
    lists := []
    expansions := [] }]

/-- The name is missing or empty, and the tag bears a connective. -/
def untagged : Criterion :=
  .join .and [.leaf (.absent (.single "name")),
    .leaf ⟨.single "tag", .connective .and, some (.text "x")⟩]

/-- A comparison that its field does not accept reaches the backend, and so does a connective. -/
theorem compiles_unlisted_comparison :
    ∃ r s, restricted.build = .ok r ∧ r.schema "event" = .ok s ∧
      (∃ l x answer, .leaf l x answer ∈ (s.recordedCompile .polarity untagged).2 ∧
        l.operand.isSome = true ∧ x.field.allows l.operator = false) ∧
      ∃ l x answer, .leaf l x answer ∈ (s.recordedCompile .polarity untagged).2 ∧
        l.operand.isSome = true ∧ l.operator.isConnective = true := by
  have hfacts : restricted.build.toOption.any (fun r => (r.schema "event").toOption.any fun s =>
      (s.recordedCompile .polarity untagged).2.any (Call.compiles fun l x =>
        l.operand.isSome && !x.field.allows l.operator) &&
      (s.recordedCompile .polarity untagged).2.any (Call.compiles fun l _ =>
        l.operand.isSome && l.operator.isConnective)) = true := by
    decide +kernel
  obtain ⟨r, built, hfacts⟩ := exists_ok_of_any hfacts
  obtain ⟨s, hs, hfacts⟩ := exists_ok_of_any hfacts
  obtain ⟨hunlisted, hconnective⟩ := Bool.and_eq_true_iff.1 hfacts
  obtain ⟨l, x, answer, hl, hunlisted⟩ := exists_leaf_of_any_compiles hunlisted
  obtain ⟨m, y, reply, hm, hconnective⟩ := exists_leaf_of_any_compiles hconnective
  exact ⟨r, s, built, hs, ⟨l, x, answer, hl, by simpa using hunlisted⟩,
    ⟨m, y, reply, hm, by simpa using hconnective⟩⟩

/-- The comparison with the empty text is compiled for the field of the absence test. -/
theorem compiles_accepted_leaves_untagged :
    ∃ r s, restricted.build = .ok r ∧ r.schema "event" = .ok s ∧ ∃ x answer,
      .leaf ⟨.single "name", .equal, some (.text "")⟩ x answer ∈
        (s.recordedCompile .polarity untagged).2 ∧
      s.fields.get? (.single "name") = some x.field ∧ x.field.allows .equal = false ∧
      x.field.type = .text := by
  have hfacts : restricted.build.toOption.any (fun r => (r.schema "event").toOption.any fun s =>
      (s.recordedCompile .polarity untagged).2.any (Call.compiles fun l x =>
        decide (l = ⟨.single "name", .equal, some (.text "")⟩) &&
          !x.field.allows .equal)) = true := by
    decide +kernel
  obtain ⟨r, built, hfacts⟩ := exists_ok_of_any hfacts
  obtain ⟨s, hs, hfacts⟩ := exists_ok_of_any hfacts
  obtain ⟨l, x, answer, hl, hfact⟩ := exists_leaf_of_any_compiles hfacts
  obtain ⟨rfl, hallows⟩ : l = ⟨.single "name", .equal, some (.text "")⟩ ∧
      x.field.allows .equal = false := by simpa using hfact
  obtain ⟨hget, hcases⟩ := compiles_accepted_leaves built hs .polarity untagged _ x answer hl
  refine ⟨r, s, built, hs, x, answer, hl, hget, hallows, ?_⟩
  rcases hcases with ⟨hoperand, -⟩ | ⟨-, haccepted, -⟩ | ⟨htype, -⟩
  · cases hoperand
  · rw [hallows] at haccepted
    cases haccepted
  · exact htype

end Registry

end EventQuery
