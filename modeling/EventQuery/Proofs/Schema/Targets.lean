import EventQuery.Proofs.Schema.Building

/-!
# Logical fields and their targets

A logical field of a definition may be given no targets at all, and `build` accepts that. Where no
logical field of a definition is left without targets, none is in the registry built from it: no
declaration but that of a logical field changes what the logical fields stand for.
-/

namespace EventQuery

namespace EntitySchema

variable {s s' : EntitySchema}

/-- Every logical field stands for at least one field. -/
def IsTargeted (s : EntitySchema) : Prop :=
  ∀ field e, s.expansions.get? field = some e → e.targets ≠ []

theorem isTargeted_empty (name : String) : (EntitySchema.empty name).IsTargeted := nofun

theorem IsTargeted.of_expansions_eq (h : s.IsTargeted) (heq : s'.expansions = s.expansions) :
    s'.IsTargeted := by
  unfold IsTargeted
  rw [heq]
  exact h

theorem IsTargeted.of_modifyField? {p : Path} {f : Field → Field} (h : s.IsTargeted)
    (hs' : s.modifyField? p f = some s') : s'.IsTargeted := by
  obtain ⟨g, -, rfl⟩ := eq_of_modifyField? hs'
  exact h

theorem IsTargeted.declareExpansion (h : s.IsTargeted) (field : String) {e : Expansion}
    (he : e.targets ≠ []) :
    IsTargeted { s with expansions := s.expansions.insert field e } := by
  intro field' e' hget
  rw [show EntitySchema.expansions { s with expansions := s.expansions.insert field e } =
    s.expansions.insert field e from rfl, Table.get?_insert] at hget
  split at hget
  · cases hget
    exact he
  · exact h field' e' hget

end EntitySchema

/-- Every logical field of every entity type stands for at least one field. -/
def Registry.IsTargeted (r : Registry) : Prop :=
  ∀ entity s, r.entities.get? entity = some s → s.IsTargeted

/-- The logical field is given a target. -/
def ExpansionConfig.HasTargets (x : ExpansionConfig) : Prop := x.paths ≠ []

theorem ExpansionConfig.HasTargets.ne_nil {x : ExpansionConfig} (h : x.HasTargets)
    {targets : List Path} (htargets : x.paths.mapM Path.parse = .ok targets) : targets ≠ [] := by
  rintro rfl
  cases hpaths : x.paths with
  | nil => exact h hpaths
  | cons path paths =>
      rw [hpaths, List.mapM_cons] at htargets
      obtain ⟨p, -, htargets⟩ := bind_eq_ok_iff.1 htargets
      obtain ⟨ps, -, htargets⟩ := bind_eq_ok_iff.1 htargets
      cases htargets

namespace SchemaConfig

variable {c : SchemaConfig}

/-- Every logical field is given a target. -/
def HasTargets (c : SchemaConfig) : Prop :=
  ∀ e ∈ c.entities, ∀ x ∈ e.expansions, x.HasTargets

theorem HasTargets.keeps (h : c.HasTargets) : c.Keeps fun _ s => s.IsTargeted where
  empty := EntitySchema.isTargeted_empty
  field _ _ _ _ _ p _ s hs := hs.of_expansions_eq (congrArg (·.expansions) (s.declareField_eq p _))
  operators _ _ _ _ _ _ _ _ _ _ _ hs hs' := hs.of_modifyField? hs'
  suggestions _ _ _ _ _ _ _ _ _ _ _ hs hs' := hs.of_modifyField? hs'
  list _ _ _ _ _ p _ s hs := hs.of_expansions_eq (congrArg (·.expansions) (s.declareList_eq p _))
  key _ _ _ _ _ _ _ _ _ _ hs := hs
  expansion e he x hx _ htargets _ hs := hs.declareExpansion x.field ((h e he x hx).ne_nil htargets)
  timeField _ _ _ _ _ _ _ _ hs := hs

/-- A definition that gives every logical field a target builds a registry that does so too. -/
theorem isTargeted_of_build (h : c.HasTargets) {r : Registry} (hr : c.build = .ok r) :
    r.IsTargeted := h.keeps.of_build hr

end SchemaConfig

end EventQuery
