import EventQuery.Proofs.Schema.Building
import EventQuery.Proofs.Schema.Coherence
import EventQuery.Proofs.Schema.Effects

/-!
# Definitions entry by entry

A definition is a sequence of entries, and each entry changes the schema of one entity type,
whatever the registry is. So only the paths of a definition decide whether it can be built, apart
from the check at the end, and what is built is found by running the changes one after another.
-/

namespace EventQuery

/-- A change of the schema of an entity type. -/
structure Change where
  entity : String
  run : EntitySchema → EntitySchema

/-- The field that an entry describes. -/
def FieldConfig.toField (f : FieldConfig) : Field where
  type := f.type
  operators := f.operators.getD f.type.defaultOperators
  isPublic := f.isPublic
  isKey := f.isKey
  suggestions := f.suggestions

namespace EntityConfig

inductive Entry where
  | field (f : FieldConfig)
  | list (l : ListConfig)
  | expansion (x : ExpansionConfig)
  | timeField (path : String)

/-- The field that is declared. -/
def Entry.field? : Entry → Option FieldConfig
  | field f => some f
  | _ => none

/-- The entries of a block in the order in which they are declared. -/
def entries (e : EntityConfig) : List Entry :=
  e.fields.map .field ++ e.lists.map .list ++ e.expansions.map .expansion ++
    e.timeField.toList.map .timeField

/-- A change of the schema that a path of the block leads to. -/
def changeAt (e : EntityConfig) (path : String) (f : EntitySchema → Path → EntitySchema) :
    Except QueryError Change := do
  let (entity, p) ← Registry.splitPath (e.qualify path)
  return ⟨entity, (f · p)⟩

/-- What an entry of the block changes. -/
def change (e : EntityConfig) : Entry → Except QueryError Change
  | .field f => e.changeAt f.path fun s p => s.declareField p f.toField
  | .list l => e.changeAt l.path fun s p =>
      l.key.elim (s.declareList p l.default) fun key => (s.declareList p l.default).setListKey p key
  | .expansion x => do
      let targets ← x.paths.mapM Path.parse
      return ⟨e.name, fun s => { s with
        expansions := s.expansions.insert x.field (.ofTargets targets) }⟩
  | .timeField path => e.changeAt path fun s p => { s with timeField := some p }

end EntityConfig

namespace SchemaConfig

/-- All entries, each with its block. -/
def entries (c : SchemaConfig) : List (EntityConfig × EntityConfig.Entry) :=
  c.entities.flatMap fun e => e.entries.map (e, ·)

/-- All fields, each with its block. -/
def fieldEntries (c : SchemaConfig) : List (EntityConfig × FieldConfig) :=
  c.entities.flatMap fun e => e.fields.map (e, ·)

theorem filterMap_entries (c : SchemaConfig) :
    c.entries.filterMap (fun x => x.2.field?.map (x.1, ·)) = c.fieldEntries := by
  unfold entries fieldEntries
  rw [List.filterMap_flatMap]
  refine congrArg (List.flatMap · c.entities) (funext fun e => ?_)
  have hfields : e.entries.filterMap EntityConfig.Entry.field? = e.fields := by
    simp [EntityConfig.entries, List.filterMap_map, Function.comp_def, EntityConfig.Entry.field?]
  rw [List.filterMap_map, ← hfields, List.map_filterMap]
  rfl

end SchemaConfig

/-! ## Changes -/

namespace EntitySchema

variable {s : EntitySchema} {p : Path} {f : Field}

/-- To change a field that has just been declared is to declare it otherwise. -/
theorem modifyField?_declareField {g : Field → Field} (same : (g f).isKey = f.isKey) :
    (s.declareField p f).modifyField? p g = some (s.declareField p (g f)) := by
  have hget : (s.declareField p f).fields.get? p = some f := by
    rw [fields_declareField, if_pos rfl]
  rw [modifyField?, hget, Option.map_some]
  unfold declareField
  rw [same, Table.insert_insert]

end EntitySchema

namespace Registry

variable {r r' : Registry} {x entity text : String} {p : Path}

/-- Makes a change, if there is one to make. -/
def change? (r : Registry) (y : Except QueryError Change) : Except QueryError Registry :=
  y.map fun y => r.modifyEntity y.entity y.run

theorem change?_eq_ok_iff {x : Except QueryError Change} :
    r.change? x = .ok r' ↔ ∃ y, x = .ok y ∧ r.modifyEntity y.entity y.run = r' := map_eq_ok_iff

theorem modifyEntity_modifyEntity (r : Registry) (x : String) (f g : EntitySchema → EntitySchema) :
    (r.modifyEntity x f).modifyEntity x g = r.modifyEntity x fun s => g (f s) := by
  have hget : (r.modifyEntity x f).schemaOf x = f (r.schemaOf x) := by
    rw [schemaOf_modifyEntity, if_pos rfl]
  exact congrArg Registry.mk ((congrArg _ (congrArg g hget)).trans (Table.insert_insert ..))

/-- To change a field that has just been declared is to declare it otherwise. -/
theorem modifyFieldAt_modifyEntity {f : Field} {g : Field → Field}
    (hp : splitPath text = .ok (x, p)) (same : (g f).isKey = f.isKey) :
    (r.modifyEntity x (·.declareField p f)).modifyFieldAt text g =
      .ok (r.modifyEntity x (·.declareField p (g f))) := by
  refine modifyFieldAt_eq_ok_iff.2 ⟨x, p, (r.schemaOf x).declareField p f, _, hp, ?_,
    EntitySchema.modifyField?_declareField same, ?_⟩
  · rw [get?_modifyEntity, if_pos rfl]
  · exact congrArg Registry.mk (Table.insert_insert ..).symm

end Registry

namespace EntityConfig

variable {e : EntityConfig} {path : String} {r : Registry}

theorem changeAt_eq_ok_iff {f : EntitySchema → Path → EntitySchema} {y : Change} :
    e.changeAt path f = .ok y ↔ ∃ p, e.LeadsTo path y.entity p ∧ y.run = (f · p) := by
  rw [changeAt, bind_eq_ok_iff]
  constructor
  · rintro ⟨⟨entity, p⟩, hp, h⟩
    cases h
    exact ⟨p, hp, rfl⟩
  · obtain ⟨entity, run⟩ := y
    rintro ⟨p, hp, rfl⟩
    exact ⟨(entity, p), hp, rfl⟩

theorem change?_changeAt (f : EntitySchema → Path → EntitySchema) :
    r.change? (e.changeAt path f) = r.declareAt (e.qualify path) f := by
  unfold changeAt Registry.declareAt
  cases Registry.splitPath (e.qualify path) <;> rfl

theorem declareField_eq (f : FieldConfig) :
    e.declareField r f = r.change? (e.change (.field f)) := by
  obtain ⟨path, type, isPublic, isKey, operators, suggestions⟩ := f
  rw [change, change?_changeAt]
  unfold declareField Registry.declareField Registry.setOperators Registry.setSuggestions
  cases hp : Registry.splitPath (e.qualify path) with
  | error err =>
      simp only [Registry.declareAt_of_error hp]
      rfl
  | ok found =>
      obtain ⟨x, p⟩ := found
      simp only [Registry.declareAt_of_splitPath hp, bind, Except.bind, pure, Except.pure]
      -- what is set behind the declaration changes the field that was declared
      cases operators with
      | none =>
          cases suggestions with
          | none => rfl
          | some ss => exact Registry.modifyFieldAt_modifyEntity hp (by rfl)
      | some os =>
          simp only [Registry.modifyFieldAt_modifyEntity hp]
          cases suggestions <;> rfl

theorem declareList_eq (l : ListConfig) : e.declareList r l = r.change? (e.change (.list l)) := by
  obtain ⟨path, default, key⟩ := l
  rw [change, change?_changeAt]
  unfold declareList Registry.declareList Registry.setListKey
  cases hp : Registry.splitPath (e.qualify path) with
  | error err =>
      simp only [Registry.declareAt_of_error hp]
      rfl
  | ok found =>
      obtain ⟨x, p⟩ := found
      simp only [Registry.declareAt_of_splitPath hp, bind, Except.bind]
      cases key with
      | none => rfl
      | some key => exact congrArg Except.ok (r.modifyEntity_modifyEntity x _ _)

theorem declareExpansion_eq (x : ExpansionConfig) :
    e.declareExpansion r x = r.change? (e.change (.expansion x)) := by
  rw [declareExpansion, change]
  cases x.paths.mapM Path.parse <;> rfl

theorem setTimeField_eq (path : String) :
    r.setTimeField (e.qualify path) = r.change? (e.change (.timeField path)) := by
  rw [change, change?_changeAt, Registry.setTimeField]

/-- A block is added entry by entry. -/
theorem apply_eq : apply r e = (e.entries.map e.change).foldlM Registry.change? r := by
  simp only [entries, List.map_append, List.map_map, List.foldlM_append, List.foldlM_map,
    Function.comp_apply, ← declareField_eq, ← declareList_eq, ← declareExpansion_eq,
    ← setTimeField_eq, apply, bind_assoc]
  refine bind_congr fun r => bind_congr fun r => bind_congr fun r => ?_
  cases e.timeField with
  | none => rfl
  | some path => simp

end EntityConfig

namespace SchemaConfig

variable {c : SchemaConfig} {r : Registry}

/-- What the entries of a definition change. -/
def changes (c : SchemaConfig) : List (Except QueryError Change) :=
  c.entries.map fun x => x.1.change x.2

/-- A registry is built entry by entry. -/
theorem foldlM_apply_eq (c : SchemaConfig) (r : Registry) :
    c.entities.foldlM EntityConfig.apply r = c.changes.foldlM Registry.change? r := by
  unfold changes entries
  induction c.entities generalizing r with
  | nil => rfl
  | cons e es ih =>
      rw [List.foldlM_cons, EntityConfig.apply_eq, List.flatMap_cons, List.map_append,
        List.foldlM_append, List.map_map]
      exact bind_congr fun r => ih r

theorem build_eq_ok_iff :
    c.build = .ok r ↔ c.changes.foldlM Registry.change? ∅ = .ok r ∧ r.check = .ok () := by
  rw [build, foldlM_apply_eq, bind_eq_ok_iff]
  constructor
  · rintro ⟨r', hr', h⟩
    obtain ⟨hcheck, h⟩ := bind_unit_eq_ok_iff.1 h
    cases h
    exact ⟨hr', hcheck⟩
  · rintro ⟨hr, hcheck⟩
    exact ⟨r, hr, bind_unit_eq_ok_iff.2 ⟨hcheck, rfl⟩⟩

end SchemaConfig

end EventQuery
