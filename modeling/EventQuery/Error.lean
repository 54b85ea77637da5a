import EventQuery.Schema.ValueType

/-!
# Errors

Why a query text, a schema or a criterion is refused. An error keeps what a caller needs to point at
the fault; `QueryError.message` words it.
-/

namespace EventQuery

/-- Why a text does not fit its grammar. -/
inductive SyntaxFault where
  /-- No character that may stand here, or a number out of range. -/
  | unexpected
  /-- A `*` that is not the index of a path segment. -/
  | misplacedStar
  /-- Arguments that are not a single index, on a segment of a longer path. -/
  | invalidIndex (name : String)
  deriving DecidableEq, Repr

/-- A text that does not fit its grammar, with the place where reading stopped. -/
structure SyntaxError where
  fault : SyntaxFault
  /-- Bytes of UTF-8 before the fault. -/
  position : Nat
  /-- Bytes of UTF-8 since the last line break, counted from one. -/
  column : Nat
  /-- The character that stopped the reader, if it did not reach the end. -/
  found : Option Char
  /-- The beginning of the text from the fault on. -/
  snippet : String
  deriving DecidableEq, Repr

inductive QueryError where
  | malformedText (e : SyntaxError)
  | malformedPath (path : String) (reason : String)
  /-- A path that the schema of its entity type does not declare. -/
  | unknownPath (path : String)
  | unknownEntity (entity : String)
  /-- An operator that the field at the path does not accept. -/
  | invalidOperator (path : String) (operator : Operator) (type : ValueType)
  /-- A valid criterion that a backend cannot express. -/
  | notCompilable (backend criterion reason : String)
  /-- A list whose key field is not declared. -/
  | undeclaredKey (container key : String)
  deriving DecidableEq, Repr

/-- The reason in words. What else could have stood in place of an unexpected character is left to
the placeholder `<expected>`. -/
def SyntaxFault.reason : SyntaxFault → String
  | unexpected => "<expected>"
  | misplacedStar => "'*' is only valid as a list index"
  | invalidIndex name => "invalid index for '" ++ name ++ "'"

/-- The place, the reason and the character found. -/
def SyntaxError.detail (e : SyntaxError) : String :=
  let found := match e.found with
    | none => "end of input"
    | some c => "'" ++ c.toString ++ "'"
  "column " ++ toString e.column ++ ": " ++ e.fault.reason ++ " (found " ++ found ++ ")"

def QueryError.message : QueryError → String
  | malformedText e => "syntax error at position " ++ toString e.position ++ ": " ++ e.detail
  | malformedPath path reason => "malformed path '" ++ path ++ "': " ++ reason
  | unknownPath path => "invalid field '" ++ path ++ "'"
  | unknownEntity entity => "unknown entity type '" ++ entity ++ "'"
  | invalidOperator path operator type =>
    "operator '" ++ operator.token ++ "' is not valid for " ++ type.name ++ " field '" ++
      path ++ "'"
  | notCompilable backend criterion reason =>
    backend ++ " backend cannot compile '" ++ criterion ++ "': " ++ reason
  | undeclaredKey container key =>
    "list '" ++ container ++ "' is indexed by undeclared field '" ++ key ++ "'"

end EventQuery
