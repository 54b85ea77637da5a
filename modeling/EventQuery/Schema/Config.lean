import EventQuery.Data.Basic
import EventQuery.Pipeline.Basic
import EventQuery.Schema.Registry

/-!
# Schema definitions

Registries as data: a list of entity types, each with its fields, lists, logical fields and time
field. Paths are relative to the entity type. `SchemaConfig.build` makes the declarations in this
order and checks the registry that results.

A name among the entity types may occur more than once, and then adds to the same schema.
-/

namespace EventQuery

structure FieldConfig where
  path : String
  type : ValueType
  isPublic : Bool
  isKey : Bool
  /-- Replaces the operators of the type. -/
  operators : Option (List Operator)
  suggestions : Option (List Suggestion)

structure ListConfig where
  path : String
  default : ListEnd
  key : Option String

structure ExpansionConfig where
  field : String
  paths : List String

structure EntityConfig where
  name : String
  timeField : Option String
  fields : List FieldConfig
  lists : List ListConfig
  expansions : List ExpansionConfig

structure SchemaConfig where
  entities : List EntityConfig

/-! ## Building -/

namespace EntityConfig

/-- The full path of a field. -/
def qualify (e : EntityConfig) (path : String) : String := e.name ++ "." ++ path

def declareField (e : EntityConfig) (r : Registry) (f : FieldConfig) :
    Except QueryError Registry := do
  let path := e.qualify f.path
  let r ← r.declareField path f.type f.isPublic f.isKey
  let r ← match f.operators with
    | some operators => r.setOperators path operators
    | none => pure r
  match f.suggestions with
  | some suggestions => r.setSuggestions path suggestions
  | none => return r

def declareList (e : EntityConfig) (r : Registry) (l : ListConfig) :
    Except QueryError Registry := do
  let path := e.qualify l.path
  let r ← r.declareList path l.default
  match l.key with
  | some key => r.setListKey path key
  | none => return r

def declareExpansion (e : EntityConfig) (r : Registry) (x : ExpansionConfig) :
    Except QueryError Registry := do
  let targets ← x.paths.mapM Path.parse
  return r.declareExpansion e.name x.field (.ofTargets targets)

/-- Adds an entity type to a registry. -/
def apply (r : Registry) (e : EntityConfig) : Except QueryError Registry := do
  let r ← e.fields.foldlM e.declareField r
  let r ← e.lists.foldlM e.declareList r
  let r ← e.expansions.foldlM e.declareExpansion r
  match e.timeField with
  | some path => r.setTimeField (e.qualify path)
  | none => return r

end EntityConfig

/-- The registry that a definition describes. -/
def SchemaConfig.build (c : SchemaConfig) : Except QueryError Registry := do
  let r ← c.entities.foldlM EntityConfig.apply ∅
  r.check
  return r

/-! ## Definitions as data

The first argument of each reader tells what the notation allows. -/

namespace ListEnd

def name : ListEnd → String
  | first => "first"
  | last => "last"

def ofData? (c : Data.Conventions) (d : Data) : Except DataError ListEnd := do
  let word ← d.word? c
  if word = "first" then return first
  else if word = "last" then return last
  else throw .mismatch

end ListEnd

def ValueType.ofData? (c : Data.Conventions) (d : Data) : Except DataError ValueType := do
  match ofName? (← d.word? c) with
  | some t => return t
  | none => throw .mismatch

def Suggestion.ofData? (c : Data.Conventions) (d : Data) : Except DataError Suggestion := do
  let members ← d.members? c ["value", "label", "color"]
  let value ← Data.required members "value" Data.text?
  let label ← Data.withDefault members "label" none (Data.nullable Data.text?)
  let color ← Data.withDefault members "color" none (Data.nullable Data.text?)
  return { value, label, color }

def FieldConfig.ofData? (c : Data.Conventions) (d : Data) : Except DataError FieldConfig := do
  let members ← d.members? c ["path", "type", "public", "index", "operators", "values"]
  let path ← Data.required members "path" Data.text?
  let type ← Data.required members "type" (ValueType.ofData? c)
  let isPublic ← Data.withDefault members "public" true Data.bool?
  let isKey ← Data.withDefault members "index" false Data.bool?
  let operators ← Data.withDefault members "operators" none
    (Data.nullable (Data.arrayOf Data.operator?))
  let suggestions ← Data.withDefault members "values" none
    (Data.nullable (Data.arrayOf (Suggestion.ofData? c)))
  return { path, type, isPublic, isKey, operators, suggestions }

def ListConfig.ofData? (c : Data.Conventions) (d : Data) : Except DataError ListConfig := do
  let members ← d.members? c ["path", "index", "key"]
  let path ← Data.required members "path" Data.text?
  let default ← Data.withDefault members "index" .first (ListEnd.ofData? c)
  let key ← Data.withDefault members "key" none (Data.nullable Data.text?)
  return { path, default, key }

def ExpansionConfig.ofData? (c : Data.Conventions) (d : Data) :
    Except DataError ExpansionConfig := do
  let members ← d.members? c ["field", "paths"]
  let field ← Data.required members "field" Data.text?
  let paths ← Data.required members "paths" (Data.arrayOf Data.text?)
  return { field, paths }

def EntityConfig.ofData? (c : Data.Conventions) (d : Data) : Except DataError EntityConfig := do
  let members ← d.members? c ["name", "time_field", "fields", "lists", "translations"]
  let name ← Data.required members "name" Data.text?
  let timeField ← Data.withDefault members "time_field" none (Data.nullable Data.text?)
  let fields ← Data.withDefault members "fields" [] (Data.arrayOf (FieldConfig.ofData? c))
  let lists ← Data.withDefault members "lists" [] (Data.arrayOf (ListConfig.ofData? c))
  let expansions ← Data.withDefault members "translations" []
    (Data.arrayOf (ExpansionConfig.ofData? c))
  return { name, timeField, fields, lists, expansions }

def SchemaConfig.ofData? (c : Data.Conventions) (d : Data) : Except DataError SchemaConfig := do
  let members ← d.members? c ["entities"]
  let entities ← Data.withDefault members "entities" [] (Data.arrayOf (EntityConfig.ofData? c))
  return { entities }

/-- Options by name; what is missing is off. -/
def CompileOptions.ofData? (c : Data.Conventions) (d : Data) : Except DataError CompileOptions := do
  let members ← d.members? c ["lenient"]
  let lenient ← Data.withDefault members "lenient" false Data.bool?
  return { lenient }

/-- A member that is left out when there is nothing to say. -/
def Data.optionalMember (name : String) (d : Option Data) : List (String × Data) :=
  (d.map (name, ·)).toList

def Suggestion.toData (s : Suggestion) : Data := .record <|
  ("value", .text s.value) :: (Data.optionalMember "label" (s.label.map .text) ++
    Data.optionalMember "color" (s.color.map .text))

def FieldConfig.toData (f : FieldConfig) : Data := .record <|
  [("path", .text f.path), ("type", .text f.type.name), ("public", .bool f.isPublic),
   ("index", .bool f.isKey)] ++
  Data.optionalMember "operators" (f.operators.map fun os => .array (os.map (.text ·.token))) ++
  Data.optionalMember "values" (f.suggestions.map fun ss => .array (ss.map Suggestion.toData))

def ListConfig.toData (l : ListConfig) : Data := .record <|
  [("path", .text l.path), ("index", .text l.default.name)] ++
  Data.optionalMember "key" (l.key.map .text)

def ExpansionConfig.toData (x : ExpansionConfig) : Data := .record
  [("field", .text x.field), ("paths", .array (x.paths.map .text))]

def EntityConfig.toData (e : EntityConfig) : Data := .record <|
  ("name", .text e.name) :: (Data.optionalMember "time_field" (e.timeField.map .text) ++
  [("fields", .array (e.fields.map FieldConfig.toData)),
   ("lists", .array (e.lists.map ListConfig.toData)),
   ("translations", .array (e.expansions.map ExpansionConfig.toData))])

def SchemaConfig.toData (c : SchemaConfig) : Data := .record
  [("entities", .array (c.entities.map EntityConfig.toData))]

end EventQuery
