import EventQuery.Proofs.Schema.Entries
import EventQuery.Proofs.Schema.PublicPaths

/-!
# Schemas that answer alike

Two schemas are alike if they differ in nothing but the order in which their fields and lists came
in. No question tells alike schemas apart, and every entry of a definition leaves alike schemas
alike.
-/

namespace EventQuery

namespace EntitySchema

/-- The schemas differ in nothing but the order of their fields and lists. -/
structure Alike (s t : EntitySchema) : Prop where
  name : s.name = t.name
  fields : ∀ p, s.fields.get? p = t.fields.get? p
  lists : ∀ p, s.lists.get? p = t.lists.get? p
  expansions : s.expansions = t.expansions
  timeField : s.timeField = t.timeField
  dynamicType : s.dynamicType = t.dynamicType

namespace Alike

variable {s t u : EntitySchema} {p : Path}

theorem refl (s : EntitySchema) : s.Alike s := ⟨rfl, fun _ => rfl, fun _ => rfl, rfl, rfl, rfl⟩

theorem trans (h : s.Alike t) (h' : t.Alike u) : s.Alike u where
  name := h.name.trans h'.name
  fields p := (h.fields p).trans (h'.fields p)
  lists p := (h.lists p).trans (h'.lists p)
  expansions := h.expansions.trans h'.expansions
  timeField := h.timeField.trans h'.timeField
  dynamicType := h.dynamicType.trans h'.dynamicType

/-! ## Declarations -/

theorem contains (h : s.Alike t) (p : Path) : s.fields.contains p = t.fields.contains p :=
  congrArg Option.isSome (h.fields p)

theorem declareField (h : s.Alike t) (p : Path) (f : Field) :
    (s.declareField p f).Alike (t.declareField p f) where
  name := by simp [h.name]
  fields q := by rw [fields_declareField, fields_declareField, h.fields]
  lists q := by rw [lists_declareField, lists_declareField, h.lists]
  expansions := by simp [h.expansions]
  timeField := by simp [h.timeField]
  dynamicType := by simp [h.dynamicType]

theorem alterList (h : s.Alike t) (p : Path) (f : Option ListSpec → ListSpec) :
    Alike { s with lists := s.lists.alter p f } { t with lists := t.lists.alter p f } where
  name := h.name
  fields := h.fields
  lists q := by
    simp only [Table.get?_alter, h.lists]
  expansions := h.expansions
  timeField := h.timeField
  dynamicType := h.dynamicType

theorem declareList (h : s.Alike t) (p : Path) (default : ListEnd) :
    (s.declareList p default).Alike (t.declareList p default) := by
  unfold EntitySchema.declareList
  rw [h.contains]
  split
  · exact h.alterList p _
  · exact (h.declareField p .container).alterList p _

theorem setListKey (h : s.Alike t) (p : Path) (key : String) :
    (s.setListKey p key).Alike (t.setListKey p key) := h.alterList p _

theorem declareExpansion (h : s.Alike t) (field : String) (e : Expansion) :
    Alike { s with expansions := s.expansions.insert field e }
      { t with expansions := t.expansions.insert field e } :=
  ⟨h.name, h.fields, h.lists, congrArg (·.insert field e) h.expansions, h.timeField, h.dynamicType⟩

theorem setTimeField (h : s.Alike t) (p : Path) :
    Alike { s with timeField := some p } { t with timeField := some p } :=
  ⟨h.name, h.fields, h.lists, h.expansions, rfl, h.dynamicType⟩

/-! ## Questions -/

theorem field?_eq (h : s.Alike t) : s.field? = t.field? := by
  funext p
  rw [EntitySchema.field?, EntitySchema.field?, h.fields, h.dynamicType]

theorem resolve_eq (h : s.Alike t) : s.resolve = t.resolve := by
  funext p
  rw [EntitySchema.resolve, EntitySchema.resolve, h.field?_eq]

theorem check_eq_ok_iff (h : s.Alike t) : s.check = .ok () ↔ t.check = .ok () := by
  rw [EntitySchema.check_eq_ok_iff, EntitySchema.check_eq_ok_iff]
  simp only [KeysDeclared, h.contains, h.lists, h.expansions, h.timeField, h.resolve_eq]

end Alike

end EntitySchema

/-- The entries of a definition leave alike schemas alike. -/
theorem EntityConfig.alike_run {e : EntityConfig} {x : Entry} {y : Change}
    (hy : e.change x = .ok y) {s t : EntitySchema} (h : s.Alike t) : (y.run s).Alike (y.run t) := by
  cases x with
  | field f =>
      rw [change, changeAt_eq_ok_iff] at hy
      obtain ⟨p, -, hrun⟩ := hy
      rw [hrun]
      exact h.declareField p f.toField
  | list l =>
      rw [change, changeAt_eq_ok_iff] at hy
      obtain ⟨p, -, hrun⟩ := hy
      rw [hrun]
      cases l.key with
      | none => exact h.declareList p l.default
      | some key => exact (h.declareList p l.default).setListKey p key
  | expansion x =>
      obtain ⟨targets, -, hy⟩ := bind_eq_ok_iff.1 hy
      cases hy
      exact h.declareExpansion x.field (.ofTargets targets)
  | timeField path =>
      rw [change, changeAt_eq_ok_iff] at hy
      obtain ⟨p, -, hrun⟩ := hy
      rw [hrun]
      exact h.setTimeField p

/-! ## Registries -/

namespace Registry

/-- The registries have the same entity types, with alike schemas. -/
def Alike (r t : Registry) : Prop :=
  ∀ entity, Option.Rel EntitySchema.Alike (r.entities.get? entity) (t.entities.get? entity)

namespace Alike

variable {r t u : Registry} {entity : String}

theorem refl (r : Registry) : r.Alike r := by
  intro entity
  cases r.entities.get? entity with
  | none => exact .none
  | some s => exact .some (.refl s)

theorem trans (h : r.Alike t) (h' : t.Alike u) : r.Alike u := by
  intro entity
  have hrt := h entity
  have htu := h' entity
  generalize r.entities.get? entity = x at hrt ⊢
  generalize t.entities.get? entity = y at hrt htu
  generalize u.entities.get? entity = z at htu ⊢
  cases hrt with
  | none => exact htu
  | some hst =>
      cases htu with
      | some htu => exact .some (hst.trans htu)

theorem schemaOf (h : r.Alike t) (entity : String) :
    (r.schemaOf entity).Alike (t.schemaOf entity) := by
  have hentity := h entity
  unfold Registry.schemaOf
  generalize r.entities.get? entity = x at hentity ⊢
  generalize t.entities.get? entity = y at hentity ⊢
  cases hentity with
  | none => exact .refl _
  | some hst => exact hst

theorem modifyEntity (h : r.Alike t) (x : String) {f : EntitySchema → EntitySchema}
    (hf : ∀ s t, s.Alike t → (f s).Alike (f t)) :
    (r.modifyEntity x f).Alike (t.modifyEntity x f) := by
  intro entity
  rw [get?_modifyEntity, get?_modifyEntity]
  split
  · exact .some (hf _ _ (h.schemaOf x))
  · exact h entity

/-- An entry that can be made of a registry can be made of an alike one. -/
theorem change? (h : r.Alike t) {e : EntityConfig} {x : EntityConfig.Entry}
    (hr : r.change? (e.change x) = .ok u) : ∃ u', t.change? (e.change x) = .ok u' ∧ u.Alike u' := by
  obtain ⟨y, hy, rfl⟩ := change?_eq_ok_iff.1 hr
  exact ⟨_, change?_eq_ok_iff.2 ⟨y, hy, rfl⟩,
    h.modifyEntity y.entity fun _ _ hst => EntityConfig.alike_run hy hst⟩

end Alike

end Registry

end EventQuery
