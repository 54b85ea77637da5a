import EventQuery.Backend.Basic
import EventQuery.Grammar.Criteria
import EventQuery.Grammar.Selection
import EventQuery.Pipeline.Basic
import EventQuery.Schema.Registry

/-!
# Requests

A request reads selections and criteria against one registry, which it keeps from its start to its
end, and remembers the answers it found. Errors are not remembered. `hits` counts the answers that
came from memory.
-/

namespace EventQuery

/-- A selection whose paths all exist. -/
structure ResolvedSelection where
  selection : Selection
  /-- The type of the result, unless it is a function of constants whose type is not known. -/
  type : Option ValueType
  /-- The first path that is read, without indices. -/
  canonical : Option Path

structure Request where
  registry : Registry
  options : CompileOptions
  selections : Table String ResolvedSelection
  /-- Criteria by entity type and text. -/
  criteria : Table (String × String) Criterion
  hits : Nat

namespace Registry

/-- The type of the field at a full path of a selection. -/
def typeOf (r : Registry) (p : Path) : Except QueryError ValueType :=
  match p.splitEntity? with
  | none => .error (.unknownPath p.text)
  | some (entity, below) =>
    match r.resolve entity below with
    | .ok f => .ok f.type
    | .error _ => .error (.unknownPath p.text)

/-- Checks the paths of a selection. Its type is the one it fixes itself, or else that of its first
path. -/
def resolveSelection (r : Registry) (s : Selection) : Except QueryError ResolvedSelection := do
  let types ← s.paths.mapM r.typeOf
  return ⟨s, s.declaredType.or types.head?, s.paths.head?.map Path.canonical⟩

/-- Reads and checks a selection. -/
def readSelection (r : Registry) (text : String) : Except QueryError ResolvedSelection := do
  let s ← (Selection.parse text).mapError .malformedText
  r.resolveSelection s

/-- Reads a criterion for an entity type and passes it through the standard pipeline. -/
def readCriterion (r : Registry) (options : CompileOptions) (entity text : String) :
    Except QueryError Criterion := do
  let s ← r.schema entity
  let c ← (Criterion.parse text).mapError .malformedText
  Pipeline.run (Pipeline.standard options) s c

end Registry

namespace Request

/-- A request that remembers nothing yet. -/
def start (registry : Registry) (options : CompileOptions) : Request :=
  ⟨registry, options, ∅, ∅, 0⟩

/-- Reads and checks a selection. -/
def resolve (q : Request) (text : String) : Except QueryError ResolvedSelection × Request :=
  match q.selections.get? text with
  | some found => (.ok found, { q with hits := q.hits + 1 })
  | none =>
    match q.registry.readSelection text with
    | .ok s => (.ok s, { q with selections := q.selections.insert text s })
    | .error e => (.error e, q)

/-- Reads and checks selections, up to the first error. -/
def resolveAll (q : Request) : List String → Except QueryError (List ResolvedSelection) × Request
  | [] => (.ok [], q)
  | text :: texts =>
    match q.resolve text with
    | (.error e, q) => (.error e, q)
    | (.ok s, q) =>
      let (rest, q) := q.resolveAll texts
      (rest.map (s :: ·), q)

/-- Reads a criterion for an entity type, expands and validates it. -/
def readCriterion (q : Request) (entity text : String) : Except QueryError Criterion × Request :=
  match q.criteria.get? (entity, text) with
  | some found => (.ok found, { q with hits := q.hits + 1 })
  | none =>
    match q.registry.readCriterion q.options entity text with
    | .ok c => (.ok c, { q with criteria := q.criteria.insert (entity, text) c })
    | .error e => (.error e, q)

/-- Compiles a valid criterion for an entity type. -/
def compile (q : Request) (b : Backend ε) (entity : String) (c : Criterion) :
    Except QueryError (Option ε) := do
  (← q.registry.schema entity).compile b c

/-- Reads a criterion for an entity type and compiles it. -/
def compileText (q : Request) (b : Backend ε) (entity text : String) :
    Except QueryError (Option ε) × Request :=
  let (c, q) := q.readCriterion entity text
  (c.bind fun c => q.compile b entity c, q)

end Request

end EventQuery
