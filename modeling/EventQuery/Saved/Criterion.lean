import EventQuery.Criterion.Basic
import EventQuery.Data.Basic
import EventQuery.Grammar.Path
import EventQuery.Json.Reader
import EventQuery.Json.Writer

/-!
# Saved criteria

Criteria as JSON. Each criterion is a record that is told apart by its member `kind`; members of
other names are ignored, and a member that means something may occur only once.

A record may also be given as an array: the kind, then the other members in their order. Inside
another criterion the kind may be given by its number.
-/

namespace EventQuery

namespace Value

def toData : Value → Data
  | bool b => .bool b
  | int n => .int n.toInt
  | float x => .float x
  | text s => .text s

/-- A whole number is an integer if it fits 64 bits, else a floating-point number. -/
def ofData? : Data → Except DataError Value
  | .bool b => .ok (bool b)
  | .int n =>
    match Digits.int64? n with
    | some i => .ok (int i)
    | none => .ok (float (.ofRatio (n < 0) n.natAbs 1))
  | .float x => .ok (float x)
  | .text s => .ok (text s)
  | _ => .error .mismatch

end Value

namespace Path

def toData (p : Path) : Data := .text p.text

def ofData? (d : Data) : Except DataError Path := do
  match Path.parse (← d.text?) with
  | .ok p => return p
  | .error _ => throw .mismatch

end Path

namespace Connective

def name : Connective → String
  | and => "and"
  | or => "or"

/-- Inside a criterion a word may also be followed by an empty record. -/
def conventions : Data.Conventions where
  allowsSurplus := false
  isNoContent d := d.isNull || d.isEmptyRecord

def ofData? (d : Data) : Except DataError Connective := do
  let word ← d.word? conventions
  if word = "and" then return and
  else if word = "or" then return or
  else throw .mismatch

end Connective

/-- The kind of a record, by name or, where that is allowed, by number. -/
def Data.kind? (names : List String) (byNumber : Bool) : Data → Except DataError String
  | .text s => if names.contains s then .ok s else .error .mismatch
  | .int n =>
    match byNumber && decide (0 ≤ n), names[n.toNat]? with
    | true, some s => .ok s
    | _, _ => .error .mismatch
  | _ => .error .mismatch

namespace Saved

/-- The members of a leaf that have been read. -/
structure LeafParts where
  path : Option Path
  operator : Option Operator
  operand : Option (Option Value)

namespace LeafParts

/-- Reads one member. -/
def add (parts : LeafParts) : String × Data → Except DataError LeafParts
  | (name, d) =>
    if name = "left" then do
      if parts.path.isSome then throw .mismatch
      return { parts with path := some (← Path.ofData? d) }
    else if name = "operator" then do
      if parts.operator.isSome then throw .mismatch
      return { parts with operator := some (← d.operator?) }
    else if name = "right" then do
      if parts.operand.isSome then throw .mismatch
      return { parts with operand := some (← d.nullable Value.ofData?) }
    else return parts

end LeafParts

/-- A leaf by its members; only the operand may be missing. -/
def leafOfMembers (members : List (String × Data)) : Except DataError Leaf := do
  let parts ← members.foldlM LeafParts.add ⟨none, none, none⟩
  match parts.path, parts.operator with
  | some path, some operator => return ⟨path, operator, parts.operand.getD none⟩
  | _, _ => throw .mismatch

/-- A leaf by its path, operator and operand. -/
def leafOfItems : List Data → Except DataError Leaf
  | p :: o :: rest => do
    let path ← Path.ofData? p
    let operator ← o.operator?
    match rest with
    | [v] => return ⟨path, operator, ← v.nullable Value.ofData?⟩
    | _ => throw .mismatch
  | _ => .error .mismatch

def kinds : List String := ["empty", "leaf", "combinator"]

mutual

/-- The criterion that data describes. -/
def criterion? (byNumber : Bool) : Data → Except DataError Criterion
  | .record members => do
    let kind ← Data.required members "kind" (Data.kind? kinds byNumber)
    if kind = "empty" then return .empty
    else if kind = "leaf" then return .leaf (← leafOfMembers members)
    else joinOfMembers? none none members
  | .array (tag :: items) => do
    let kind ← tag.kind? kinds byNumber
    if kind = "empty" then
      if items.isEmpty then return .empty else throw .mismatch
    else if kind = "leaf" then return .leaf (← leafOfItems items)
    else
      match items with
      | connective :: .array operands :: rest => do
        let c ← Connective.ofData? connective
        let cs ← criteria? operands
        if rest.isEmpty then return .join c cs else throw .mismatch
      | _ => throw .mismatch
  | _ => .error .mismatch

/-- The members of a join, after those already read. -/
def joinOfMembers? (connective : Option Connective) (operands : Option (List Criterion)) :
    List (String × Data) → Except DataError Criterion
  | [] =>
    match connective, operands with
    | some c, some cs => .ok (.join c cs)
    | _, _ => .error .mismatch
  | (name, d) :: members =>
    if name = "operator" then do
      if connective.isSome then throw .mismatch
      let c ← Connective.ofData? d
      joinOfMembers? (some c) operands members
    else if name = "operands" then
      match d with
      | .array items => do
        if operands.isSome then throw .mismatch
        let cs ← criteria? items
        joinOfMembers? connective (some cs) members
      | _ => .error .mismatch
    else joinOfMembers? connective operands members

def criteria? : List Data → Except DataError (List Criterion)
  | [] => .ok []
  | d :: ds => do
    let a ← criterion? true d
    let as ← criteria? ds
    return a :: as

end

end Saved

namespace Leaf

def toData (l : Leaf) : Data := .record
  [("kind", .text "leaf"), ("left", l.path.toData), ("operator", .text l.operator.token),
   ("right", (l.operand.map Value.toData).getD .null)]

end Leaf

namespace Criterion

mutual

def toData : Criterion → Data
  | empty => .record [("kind", .text "empty")]
  | leaf l => l.toData
  | join c cs => .record
    [("kind", .text "combinator"), ("operator", .text c.name), ("operands", .array (allToData cs))]

def allToData : List Criterion → List Data
  | [] => []
  | a :: as => a.toData :: allToData as

end

/-- The JSON text of a criterion. -/
def toJson (a : Criterion) : String := String.ofList (Json.write a.toData)

/-- Reads a criterion from JSON text. -/
def ofJson (text : String) : Except DataError Criterion :=
  Json.decode text (·.toData? Json.maxDepth) (Saved.criterion? false)

end Criterion

end EventQuery
