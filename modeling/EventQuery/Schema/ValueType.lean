import EventQuery.Operator

/-!
# Value types

The types of stored fields, and the operators a field of a type accepts when the schema does not
say.
-/

namespace EventQuery

inductive ValueType where
  | text
  | bytes
  | integer
  | float
  | datetime
  | enum
  /-- A container of other fields. -/
  | object
  deriving DecidableEq, Repr

namespace ValueType

def name : ValueType → String
  | text => "text"
  | bytes => "bytes"
  | integer => "integer"
  | float => "float"
  | datetime => "datetime"
  | enum => "enum"
  | object => "object"

def all : List ValueType := [text, bytes, integer, float, datetime, enum, object]

def ofName? (name : String) : Option ValueType := all.find? (·.name == name)

/-- Text or one of a set of words. -/
def isTextual : ValueType → Bool
  | text | enum => true
  | _ => false

/-- Texts accept every comparison, ordered types the plain ones, containers only equality. -/
def defaultOperators : ValueType → List Operator
  | text | enum => Comparison.all.map .comparison
  | bytes | integer | float | datetime =>
    [.equal, .notEqual, .comparison (.order .less), .comparison (.order .lessOrEqual),
      .comparison (.order .greater), .comparison (.order .greaterOrEqual)]
  | object => [.equal, .notEqual]

@[simp] theorem ofName?_name (t : ValueType) : ofName? t.name = some t := by cases t <;> rfl

end ValueType

end EventQuery
