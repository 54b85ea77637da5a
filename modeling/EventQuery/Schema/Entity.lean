import EventQuery.Criterion.Basic
import EventQuery.Error
import EventQuery.Schema.ValueType
import EventQuery.Table

/-!
# Entity schemas

What the schema of one entity type knows: its fields and their types, which of them are lists and
what picks a list element, which logical fields stand for others, and which field holds the time.

Paths are relative to the entity type. Everything is looked up by canonical path, so an index on a
path never changes what the schema says of it.
-/

namespace EventQuery

/-- A value that an input form may offer for a field. -/
structure Suggestion where
  value : String
  label : Option String
  color : Option String
  deriving DecidableEq, Repr

structure Field where
  type : ValueType
  operators : List Operator
  /-- Shown in the list of paths; other fields can be queried all the same. -/
  isPublic : Bool
  /-- The field keys the elements of the list it lies in. -/
  isKey : Bool
  suggestions : Option (List Suggestion)
  deriving DecidableEq

/-- The element of a list that stands for it when one is needed. -/
inductive ListEnd where
  | first
  | last
  deriving DecidableEq, Repr

structure ListSpec where
  default : ListEnd
  /-- The child field whose value keys the elements. -/
  key : Option String
  deriving DecidableEq

/-- What a logical field stands for. -/
structure Expansion where
  targets : List Path
  /-- Applied to an operand before it is compared with the targets. -/
  mapOperand : Value → Value

structure EntitySchema where
  name : String
  fields : Table Path Field
  lists : Table Path ListSpec
  /-- Logical fields by path text. -/
  expansions : Table String Expansion
  timeField : Option Path
  /-- The types of fields that are not declared but found in a payload of varying shape. -/
  dynamicType : Path → Option ValueType

namespace Field

/-- A public field with the operators of its type. -/
def ofType (type : ValueType) : Field := ⟨type, type.defaultOperators, true, false, none⟩

/-- The undeclared ancestor of a declared field. -/
def container : Field := { ofType .object with isPublic := false }

def allows (f : Field) (o : Operator) : Bool := f.operators.contains o

end Field

namespace ListEnd

/-- The position of the element, as in an index. -/
def position : ListEnd → Int64
  | first => 0
  | last => -1

end ListEnd

namespace ListSpec

/-- A list known only from the fields below it. -/
def unkeyed : ListSpec := ⟨.first, none⟩

end ListSpec

namespace Expansion

/-- An expansion that leaves operands as they are. -/
def ofTargets (targets : List Path) : Expansion := ⟨targets, id⟩

/-- How the leaves on the targets are joined: to exclude an event every target must exclude it, to
select one a single target is enough. -/
def connective (l : Leaf) : Connective := if l.isNegative then .and else .or

end Expansion

namespace EntitySchema

def empty (name : String) : EntitySchema := ⟨name, ∅, ∅, ∅, none, fun _ => none⟩

/-! ## Questions -/

/-- The field at a path. -/
def field? (s : EntitySchema) (p : Path) : Option Field :=
  match s.fields.get? p.canonical with
  | some f => some f
  | none => (s.dynamicType p.canonical).map Field.ofType

/-- The field at a path that must exist. -/
def resolve (s : EntitySchema) (p : Path) : Except QueryError Field :=
  match s.field? p with
  | some f => .ok f
  | none => .error (.unknownPath p.text)

def list? (s : EntitySchema) (p : Path) : Option ListSpec := s.lists.get? p.canonical

def isList (s : EntitySchema) (p : Path) : Bool := (s.list? p).isSome

/-- The positions in a path of lists of which it does not pick an element. -/
def openLists (s : EntitySchema) (p : Path) : List Nat :=
  p.segments.zipIdx.filterMap fun (segment, n) =>
    if !segment.isExplicit && s.isList (p.upTo n) then some n else none

/-- The path may designate several values. -/
def isAmbiguous (s : EntitySchema) (p : Path) : Bool := !(s.openLists p).isEmpty

/-- The path with the default element picked of every list where it picks none. -/
def pin (s : EntitySchema) (p : Path) : Path :=
  p.mapSegments fun n segment =>
    match s.list? (p.upTo n) with
    | some spec =>
      if segment.isExplicit then segment
      else { segment with index := some (.position spec.default.position) }
    | none => segment

/-- The field that keys the elements of the list at a canonical path. -/
def keyOf? (s : EntitySchema) (container : Path) : Option Path :=
  ((s.lists.get? container).bind (·.key)).map container.child

/-- The field that keys the list that a path is or lies directly in. -/
def indexationKey (s : EntitySchema) (p : Path) : Except QueryError Path :=
  match (s.keyOf? p.canonical).or (p.canonical.parent?.bind s.keyOf?) with
  | some key => .ok key
  | none => .error (.unknownPath p.text)

def expansion? (s : EntitySchema) (path : String) : Option Expansion := s.expansions.get? path

/-- The declared public paths in the order of their texts. -/
def publicPaths (s : EntitySchema) : List Path :=
  ((s.fields.entries.filter (·.2.isPublic)).map Prod.fst).mergeSort
    fun p q => !decide (q.text < p.text)

/-! ## Declarations -/

/-- Declares the ancestors of a path that are not declared yet. -/
def declareAncestors (s : EntitySchema) (p : Path) : EntitySchema :=
  match p.parent? with
  | none => s
  | some parent =>
    { s with fields := parent.leadingParts.foldl (·.insertIfNew · Field.container) s.fields }

/-- Makes a field the key of the list it lies in, or ends its being so. -/
def setKeyRole (s : EntitySchema) (p : Path) (isKey : Bool) : EntitySchema :=
  match p.parent? with
  | none => s
  | some parent =>
    if isKey then
      { s with lists := s.lists.alter parent fun spec =>
          { spec.getD .unkeyed with key := some p.name } }
    else
      match s.lists.get? parent with
      | some spec =>
        if spec.key = some p.name then
          { s with lists := s.lists.insert parent { spec with key := none } }
        else s
      | none => s

/-- Declares a field at a canonical path. -/
def declareField (s : EntitySchema) (p : Path) (f : Field) : EntitySchema :=
  let s := (s.declareAncestors p).setKeyRole p f.isKey
  { s with fields := s.fields.insert p f }

/-- Declares a list at a canonical path. -/
def declareList (s : EntitySchema) (p : Path) (default : ListEnd) : EntitySchema :=
  let s := if s.fields.contains p then s else s.declareField p .container
  { s with lists := s.lists.alter p fun spec => { spec.getD .unkeyed with default } }

/-- Keys the list at a canonical path. -/
def setListKey (s : EntitySchema) (p : Path) (key : String) : EntitySchema :=
  { s with lists := s.lists.alter p fun spec => { spec.getD .unkeyed with key := some key } }

/-- Changes a declared field. -/
def modifyField? (s : EntitySchema) (p : Path) (f : Field → Field) : Option EntitySchema :=
  (s.fields.get? p).map fun field => { s with fields := s.fields.insert p (f field) }

/-! ## Consistency -/

/-- Each list key is declared. -/
def checkKeys (s : EntitySchema) : Except QueryError Unit :=
  s.lists.entries.forM fun (container, spec) =>
    match spec.key with
    | some key =>
      if s.fields.contains (container.child key) then .ok ()
      else .error (.undeclaredKey (container.qualify s.name).text key)
    | none => .ok ()

/-- Every list key, every target of an expansion and the time field are known. -/
def check (s : EntitySchema) : Except QueryError Unit := do
  s.checkKeys
  s.expansions.values.forM fun e => e.targets.forM fun p => do let _ ← s.resolve p
  s.timeField.forM fun p => do let _ ← s.resolve p

end EntitySchema

end EventQuery
