import EventQuery.Decimal.Binary64
import EventQuery.Operator

/-!
# Data

Trees of plain data, as the notations for saved queries and schema definitions write them. The
members of a record keep their order, and a name may occur among them more than once: what that
means is up to the reader of the record.

Records and words may be given in shorter or longer ways, and here the notations differ.
`Data.Conventions` says which of them a notation allows.
-/

namespace EventQuery

inductive Data where
  | null
  | bool (b : Bool)
  | int (n : Int)
  | float (x : Binary64)
  /-- A number too large for the notation. It is no fault where nothing reads it. -/
  | outOfRange
  | text (s : String)
  /-- A date or a time, which nothing here reads. -/
  | moment
  | array (items : List Data)
  | record (members : List (String × Data))

/-- Why data does not describe what it is read as. -/
inductive DataError where
  /-- The text is not in the notation. -/
  | malformed
  /-- The data has the wrong shape. -/
  | mismatch
  | unknownOperator (token : String)
  deriving DecidableEq, Repr

namespace DataError

/-- The error in words, where it has a text of its own. -/
def message? : DataError → Option String
  | unknownOperator token => some ("unknown operator '" ++ token ++ "'")
  | _ => none

end DataError

namespace Data

/-- What a notation allows beyond the plain forms of records and words. -/
structure Conventions where
  /-- An array that stands for a record may go on after the last member, with items that nothing
  reads. -/
  allowsSurplus : Bool
  /-- What may stand for no content after a word. -/
  isNoContent : Data → Bool

def isNull : Data → Bool
  | null => true
  | _ => false

def isEmptyArray : Data → Bool
  | array [] => true
  | _ => false

def isEmptyRecord : Data → Bool
  | record [] => true
  | _ => false

mutual

/-- All numbers are in range. -/
def isInRange : Data → Bool
  | outOfRange => false
  | array items => areInRange items
  | record members => membersAreInRange members
  | _ => true

def areInRange : List Data → Bool
  | [] => true
  | d :: ds => d.isInRange && areInRange ds

def membersAreInRange : List (String × Data) → Bool
  | [] => true
  | (_, d) :: members => d.isInRange && membersAreInRange members

end

def text? : Data → Except DataError String
  | text s => .ok s
  | _ => .error .mismatch

def bool? : Data → Except DataError Bool
  | bool b => .ok b
  | _ => .error .mismatch

def array? : Data → Except DataError (List Data)
  | array items => .ok items
  | _ => .error .mismatch

/-- A value that may be null. -/
def nullable (f : Data → Except DataError α) : Data → Except DataError (Option α)
  | null => .ok none
  | d => (f d).map some

/-- All items of an array. -/
def arrayOf (f : Data → Except DataError α) (d : Data) : Except DataError (List α) := do
  (← d.array?).mapM f

/-- A word from a fixed set. It may also be the only member of a record, with no content. -/
def word? (c : Conventions) : Data → Except DataError String
  | text s => .ok s
  | record [(s, d)] => if c.isNoContent d then .ok s else .error .mismatch
  | _ => .error .mismatch

/-- An operator by any of its spellings. -/
def operator? (d : Data) : Except DataError Operator := do
  let token ← d.text?
  match Operator.ofToken? token with
  | some o => return o
  | none => throw (.unknownOperator token)

/-- The members of a record with these member names. Members of other names mean nothing, but their
numbers must be in range. The record may also be given as an array of its leading members in this
order. -/
def members? (c : Conventions) (names : List String) :
    Data → Except DataError (List (String × Data))
  | record members =>
    if members.all fun (name, d) => names.contains name || d.isInRange then .ok members
    else .error .mismatch
  | array items =>
    if c.allowsSurplus || items.length ≤ names.length then .ok (names.zip items)
    else .error .mismatch
  | _ => .error .mismatch

/-- The only member of a name, if there is one. -/
def member? (members : List (String × Data)) (name : String) : Except DataError (Option Data) :=
  match members.filter (·.1 == name) with
  | [] => .ok none
  | [(_, d)] => .ok (some d)
  | _ => .error .mismatch

/-- A member that must be there. -/
def required (members : List (String × Data)) (name : String) (f : Data → Except DataError α) :
    Except DataError α := do
  match ← member? members name with
  | some d => f d
  | none => throw .mismatch

/-- A member with a default. -/
def withDefault (members : List (String × Data)) (name : String) (default : α)
    (f : Data → Except DataError α) : Except DataError α := do
  match ← member? members name with
  | some d => f d
  | none => return default

end Data

end EventQuery
