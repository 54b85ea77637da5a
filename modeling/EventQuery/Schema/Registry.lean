import EventQuery.Grammar.Path
import EventQuery.Schema.Entity

/-!
# Registries

The schemas of all entity types. Declarations name full paths, whose first segment is the entity
type; the first declaration for a type adds its schema. Their indices do not matter.

A registry need not be consistent while it grows. `Registry.check` says whether it is, and only a
checked registry is ever shared.
-/

namespace EventQuery

structure Registry where
  entities : Table String EntitySchema

namespace Registry

def empty : Registry := ⟨∅⟩

instance : EmptyCollection Registry := ⟨empty⟩

/-! ## Declarations -/

/-- The entity type and the canonical path below it that a full path names. -/
def splitPath (text : String) : Except QueryError (String × Path) := do
  let full ← Path.parse text
  match full.splitEntity? with
  | some (entity, p) => return (entity, p.canonical)
  | none => throw (.malformedPath text "expected <entity>.<field>")

/-- Changes the schema of an entity type, starting from an empty one. -/
def modifyEntity (r : Registry) (entity : String) (f : EntitySchema → EntitySchema) : Registry :=
  ⟨r.entities.alter entity fun s => f (s.getD (.empty entity))⟩

/-- Changes the schema that a full path belongs to, given the path below the entity type. -/
def declareAt (r : Registry) (text : String) (f : EntitySchema → Path → EntitySchema) :
    Except QueryError Registry := do
  let (entity, p) ← splitPath text
  return r.modifyEntity entity (f · p)

/-- Changes the declared field at a full path. -/
def modifyFieldAt (r : Registry) (text : String) (f : Field → Field) :
    Except QueryError Registry := do
  let (entity, p) ← splitPath text
  match (r.entities.get? entity).bind (·.modifyField? p f) with
  | some s => return ⟨r.entities.insert entity s⟩
  | none => throw (.unknownPath text)

/-- Declares a field of a type, and its ancestors as containers. -/
def declareField (r : Registry) (path : String) (type : ValueType) (isPublic isKey : Bool) :
    Except QueryError Registry :=
  r.declareAt path fun s p => s.declareField p { Field.ofType type with isPublic, isKey }

/-- Declares a list, as a container unless it is declared. -/
def declareList (r : Registry) (path : String) (default : ListEnd) : Except QueryError Registry :=
  r.declareAt path fun s p => s.declareList p default

/-- Keys the elements of a list by a child field, which may be declared later. -/
def setListKey (r : Registry) (path key : String) : Except QueryError Registry :=
  r.declareAt path fun s p => s.setListKey p key

/-- Replaces the operators that a declared field accepts. -/
def setOperators (r : Registry) (path : String) (operators : List Operator) :
    Except QueryError Registry :=
  r.modifyFieldAt path fun f => { f with operators }

/-- Offers values for a declared field. -/
def setSuggestions (r : Registry) (path : String) (suggestions : List Suggestion) :
    Except QueryError Registry :=
  r.modifyFieldAt path fun f => { f with suggestions := some suggestions }

/-- Makes a field of an entity type stand for others. -/
def declareExpansion (r : Registry) (entity field : String) (e : Expansion) : Registry :=
  r.modifyEntity entity fun s => { s with expansions := s.expansions.insert field e }

/-- Names the field that holds an entity's time. -/
def setTimeField (r : Registry) (path : String) : Except QueryError Registry :=
  r.declareAt path fun s p => { s with timeField := some p }

/-- Sets where the types of undeclared fields come from. -/
def setDynamicType (r : Registry) (entity : String) (dynamicType : Path → Option ValueType) :
    Registry :=
  r.modifyEntity entity fun s => { s with dynamicType }

/-! ## Questions -/

def schema (r : Registry) (entity : String) : Except QueryError EntitySchema :=
  match r.entities.get? entity with
  | some s => .ok s
  | none => .error (.unknownEntity entity)

/-- The field of an entity type at a path below it. -/
def resolve (r : Registry) (entity : String) (p : Path) : Except QueryError Field := do
  (← r.schema entity).resolve p

/-- The entity type, its schema and the path below it for a full path in a question. -/
def locate (r : Registry) (text : String) : Except QueryError (String × EntitySchema × Path) := do
  let full ← Path.parse text
  match full.splitEntity? with
  | some (entity, p) => return (entity, ← r.schema entity, p)
  | none => throw (.unknownPath text)

/-- The field at a full path. -/
def fieldAt (r : Registry) (text : String) : Except QueryError Field := do
  let (_, s, p) ← r.locate text
  match s.field? p with
  | some f => return f
  | none => throw (.unknownPath text)

/-- The type of the field at a full path. -/
def typeAt (r : Registry) (text : String) : Except QueryError ValueType := do
  return (← r.fieldAt text).type

def isAmbiguous (r : Registry) (entity : String) (p : Path) : Except QueryError Bool := do
  return (← r.schema entity).isAmbiguous p

/-- The full path of the field that keys the list at, or directly above, a full path. -/
def indexationKeyAt (r : Registry) (text : String) : Except QueryError Path := do
  let (entity, s, p) ← r.locate text
  match s.indexationKey p with
  | .ok key => return key.qualify entity
  | .error _ => throw (.unknownPath text)

/-- The full public paths of an entity type in the order of their texts. -/
def publicPaths (r : Registry) (entity : String) : Except QueryError (List Path) := do
  return (← r.schema entity).publicPaths.map (·.qualify entity)

/-- Every schema is consistent. -/
def check (r : Registry) : Except QueryError Unit :=
  r.entities.values.forM EntitySchema.check

end Registry

/-- The registry that requests see. It is replaced as a whole, and a request keeps the one it
started with. -/
structure SharedRegistry where
  current : Registry

namespace SharedRegistry

/-- Shares a consistent registry. -/
def share (r : Registry) : Except QueryError SharedRegistry := do
  r.check
  return ⟨r⟩

/-- Installs a consistent registry; an inconsistent one changes nothing. -/
def replace (s : SharedRegistry) (r : Registry) : SharedRegistry × Except QueryError Unit :=
  match r.check with
  | .ok () => (⟨r⟩, .ok ())
  | .error e => (s, .error e)

end SharedRegistry

end EventQuery
