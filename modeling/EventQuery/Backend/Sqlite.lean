import EventQuery.Backend.Basic
import EventQuery.Backend.Sqlite.Column
import EventQuery.Criterion.Printer
import EventQuery.Decimal.Reader
import EventQuery.Text.Space

/-!
# SQLite

Criteria as a `WHERE` fragment over events that are stored as JSON documents, one in a row. A field
is read with `json_extract`. A path that crosses a list without picking an element holds when any
element does: each such list is a `json_each` source, which iterates within the element of the one
before, and the whole stands in an `EXISTS`.

Operands never enter the text. They are bound to the placeholders `?` in order of appearance.
-/

namespace EventQuery

/-- An SQL condition with the operands for its placeholders. -/
structure SqlCondition where
  sql : List Char
  params : List Value
  deriving DecidableEq

def SqlCondition.text (q : SqlCondition) : String := String.ofList q.sql

namespace Sqlite

/-- Why a leaf cannot be expressed. -/
inductive Refusal where
  | keyIndex
  | nullTest
  | regex
  | notAComparison
  | notAnInteger
  | notANumber
  | notFinite
  deriving DecidableEq, Repr

def Refusal.reason : Refusal → String
  | keyIndex => "string-keyed list indices are not supported"
  | nullTest => "null tests only support == and !="
  | regex => "regular expressions are not available"
  | notAComparison => "not a comparison operator"
  | notAnInteger => "expected an integer"
  | notANumber => "expected a number"
  | notFinite => "non-finite number"

/-! ## Predicates -/

/-- A number that SQLite can be given. -/
def bindFloat (x : Binary64) : Except Refusal Value :=
  if x.isFinite then .ok (.float x) else .error .notFinite

/-- The parameter for an operand. Text is bound as a number where the field holds numbers, so that
it compares as one. -/
def bind (v : Value) (type : ValueType) : Except Refusal Value :=
  match v, type with
  | .text s, .integer =>
    match Digits.readInt64? (Text.trim s.toList) with
    | some n => .ok (.int n)
    | none => .error .notAnInteger
  | .text s, .float =>
    match Binary64.read? (Text.trim s.toList) with
    | some x => bindFloat x
    | none => .error .notANumber
  | .float x, _ => bindFloat x
  | v, _ => .ok v

/-- What stands after the column in a comparison, and the parameter it binds. -/
def comparison (c : Comparison) (v : Value) (type : ValueType) :
    Except Refusal (String × Value) :=
  let pattern (f : List Char → List Char) : Value := .text (String.ofList (f v.plainText))
  match c with
  | .relation .regex _ _ => .error .regex
  | .relation .contains false false => .ok (" GLOB ?", pattern Wildcard.toGlob)
  | .relation .contains true false => .ok (" NOT GLOB ?", pattern Wildcard.toGlob)
  | .relation .contains false true => .ok (" LIKE ? ESCAPE '\\'", pattern Wildcard.toLike)
  | .relation .contains true true => .ok (" NOT LIKE ? ESCAPE '\\'", pattern Wildcard.toLike)
  | .relation .equal false false => return (" = ?", ← bind v type)
  | .relation .equal true false => return (" != ?", ← bind v type)
  | .relation .equal false true => return (" = ? COLLATE NOCASE", ← bind v type)
  | .relation .equal true true => return (" != ? COLLATE NOCASE", ← bind v type)
  | .order .less => return (" < ?", ← bind v type)
  | .order .lessOrEqual => return (" <= ?", ← bind v type)
  | .order .greater => return (" > ?", ← bind v type)
  | .order .greaterOrEqual => return (" >= ?", ← bind v type)

/-- The condition of a leaf on the value of a column. -/
def predicate (l : Leaf) (type : ValueType) (column : List Char) : Except Refusal SqlCondition :=
  match l.operand with
  | none =>
    if l.operator = .equal then .ok ⟨column ++ " IS NULL".toList, []⟩
    else if l.operator = .notEqual then .ok ⟨column ++ " IS NOT NULL".toList, []⟩
    else .error .nullTest
  | some v =>
    match l.operator with
    | .connective _ => .error .notAComparison
    | .comparison c => do
      let (test, param) ← comparison c v type
      return ⟨column ++ test.toList, [param]⟩

/-- The condition for some element of the sources, or the condition itself without sources. -/
def overSources (sources : List (List Char)) (q : SqlCondition) : SqlCondition :=
  if sources = [] then q
  else
    { q with sql := "EXISTS (SELECT 1 FROM ".toList ++ ", ".toList.intercalate sources ++
        " WHERE ".toList ++ q.sql ++ [')'] }

def compileLeaf (document : List Char) (l : Leaf) (x : LeafContext) :
    Except Refusal SqlCondition :=
  match column? l.path x.openLists with
  | none => .error .keyIndex
  | some c => do
    let q ← predicate l x.field.type (spellValue document c.value)
    return overSources (spellSources document c) q

def connectiveText : Connective → String
  | .and => " AND "
  | .or => " OR "

/-- Conditions with the connective between them, in parentheses. -/
def joinConditions (c : Connective) (qs : List SqlCondition) : SqlCondition where
  sql := '(' :: ((connectiveText c).toList.intercalate (qs.map (·.sql)) ++ [')'])
  params := qs.flatMap (·.params)

/-- The column that holds the document unless another is named. -/
def defaultDocument : String := "document"

end Sqlite

/-- The backend for documents in the column `document`. -/
def Backend.sqlite (document : String) : Backend SqlCondition where
  name := "sqlite"
  compileLeaf l x :=
    (Sqlite.compileLeaf document.toList l x).mapError fun r =>
      .notCompilable "sqlite" l.text r.reason
  combine c qs := .ok (Sqlite.joinConditions c qs)

end EventQuery
