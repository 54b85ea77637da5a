import EventQuery.Data.Basic
import EventQuery.Schema.Entity

/-!
# The values that a path designates

An event is a document, and a path is walked through it segment by segment: to the member that the
segment names and, if it picks a position, on to the item there. Where the segment is a list and
picks none, the walk goes on from every item. What is missing has no members and no items, but it is
still a value that a path can lead to.
-/

namespace EventQuery

namespace Data

/-- The member of this name. -/
def field? (name : String) : Data → Option Data
  | record members => members.lookup name
  | _ => none

/-- The item at a position, counted from the end when negative. -/
def item? (n : Int64) : Data → Option Data
  | array items =>
    if 0 ≤ n.toInt then items[n.toInt.toNat]? else items.reverse[n.toInt.natAbs - 1]?
  | _ => none

def items : Data → List Data
  | array items => items
  | _ => []

def isArray : Data → Bool
  | array _ => true
  | _ => false

theorem eq_array_items {d : Data} (h : d.isArray = true) : d = .array d.items := by
  cases d <;> first | rfl | cases h

end Data

/-- Where a segment leads from a value, if the value is there. -/
def Segment.valueIn (x : Segment) (v : Option Data) : Option Data :=
  match x.index with
  | some (.position n) => (v.bind (Data.field? x.name)).bind (Data.item? n)
  | _ => v.bind (Data.field? x.name)

/-- The items of the array that a segment leads to. -/
def Segment.itemsIn (x : Segment) (v : Option Data) : List Data := (x.valueIn v).elim [] Data.items

namespace EntitySchema

variable (s : EntitySchema) (p : Path)

/-- The segment at a position of the path is a list, and no element of it is picked. -/
def isOpenAt (x : Segment) (n : Nat) : Bool := !x.isExplicit && s.isList (p.upTo n)

/-- The values that the segments from position `n` on lead to. -/
def designatedFrom (n : Nat) : List Segment → Option Data → List (Option Data)
  | [], v => [v]
  | x :: xs, v =>
    if s.isOpenAt p x n then
      (x.itemsIn v).flatMap fun item => designatedFrom (n + 1) xs (some item)
    else designatedFrom (n + 1) xs (x.valueIn v)

/-- The values that the path leads to in a document. -/
def designated (document : Data) : List (Option Data) :=
  s.designatedFrom p 0 p.segments (some document)

/-- Whatever the segments from position `n` on find in the place of an open list is an array. -/
def listsHoldFrom (n : Nat) : List Segment → Option Data → Bool
  | [], _ => true
  | x :: xs, v =>
    if s.isOpenAt p x n then
      (x.valueIn v).all Data.isArray &&
        (x.itemsIn v).all fun item => listsHoldFrom (n + 1) xs (some item)
    else listsHoldFrom (n + 1) xs (x.valueIn v)

/-- The open lists on the path hold arrays in a document, or are missing. -/
def listsHold (document : Data) : Bool := s.listsHoldFrom p 0 p.segments (some document)

end EntitySchema

end EventQuery
