import EventQuery.Decimal.Digits
import EventQuery.Text.Quoted

/-!
# Field paths

A path such as `source(0).node.address` names a field: segments from the outside in, each with an
index when it picks elements of a list. A path always has a segment.

Without its indices a path is *canonical*; schemas look fields up by canonical paths.
-/

namespace EventQuery

/-- Which elements of a list a segment picks. -/
inductive Index where
  /-- The element at a position, counted from the end when negative. -/
  | position (n : Int64)
  /-- The element whose key field holds this text. -/
  | key (s : String)
  /-- Any element, as without an index. -/
  | any
  deriving DecidableEq

structure Segment where
  name : String
  index : Option Index
  deriving DecidableEq

structure Path where
  segments : List Segment
  segments_ne_nil : segments ≠ []
  deriving DecidableEq

namespace Index

/-- The index picks one element. -/
def isExplicit : Index → Bool
  | any => false
  | _ => true

/-- The text between the parentheses. -/
def spelling : Index → List Char
  | position n => Digits.ofInt n.toInt
  | key s => Text.quote '"' s.toList
  | any => ['*']

end Index

namespace Segment

/-- A segment without an index. -/
def plain (name : String) : Segment := ⟨name, none⟩

/-- The segment picks one list element. -/
def isExplicit (s : Segment) : Bool := s.index.any Index.isExplicit

def spelling (s : Segment) : List Char :=
  match s.index with
  | none => s.name.toList
  | some i => s.name.toList ++ '(' :: (i.spelling ++ [')'])

end Segment

namespace Path

@[ext] theorem ext {p q : Path} (h : p.segments = q.segments) : p = q := by
  cases p; cases q; simp_all

/-- The path with these segments, if there are any. -/
def ofList? (segments : List Segment) : Option Path :=
  if h : segments = [] then none else some ⟨segments, h⟩

/-- The path of one segment without an index. -/
def single (name : String) : Path := ⟨[.plain name], by simp⟩

/-- The name of the last segment. -/
def name (p : Path) : String := (p.segments.getLast p.segments_ne_nil).name

def length (p : Path) : Nat := p.segments.length

/-- The path without its indices. -/
def canonical (p : Path) : Path :=
  ⟨p.segments.map fun s => .plain s.name, by simpa using p.segments_ne_nil⟩

def isCanonical (p : Path) : Bool := p.segments.all (·.index.isNone)

def isIndexed (p : Path) : Bool := !p.isCanonical

/-- The path up to and including the segment at position `n`. -/
def upTo (p : Path) (n : Nat) : Path :=
  ⟨p.segments.take (n + 1), by simp [p.segments_ne_nil]⟩

/-- All leading parts of the path, shortest first, the path itself last. -/
def leadingParts (p : Path) : List Path := (List.range p.length).map p.upTo

/-- The path without its last segment. -/
def parent? (p : Path) : Option Path := ofList? p.segments.dropLast

/-- One path below another. -/
def append (p q : Path) : Path :=
  ⟨p.segments ++ q.segments, by simp [p.segments_ne_nil]⟩

instance : Append Path := ⟨append⟩

/-- The field `name` directly below a path. -/
def child (p : Path) (name : String) : Path := p ++ single name

/-- The first segment's name, which is the entity type of a full path, and the path below it. -/
def splitEntity? (p : Path) : Option (String × Path) :=
  match p.segments with
  | [] => none
  | s :: rest => (ofList? rest).map (s.name, ·)

/-- The full path of a field of an entity type. -/
def qualify (p : Path) (entity : String) : Path := single entity ++ p

/-- The path with each segment replaced, given its position. -/
def mapSegments (f : Nat → Segment → Segment) (p : Path) : Path :=
  ⟨p.segments.mapIdx f, by simpa using p.segments_ne_nil⟩

/-- Segments joined by points. -/
def spellSegments : List Segment → List Char
  | [] => []
  | [s] => s.spelling
  | s :: rest => s.spelling ++ '.' :: spellSegments rest

def spelling (p : Path) : List Char := spellSegments p.segments

/-- The written form. -/
def text (p : Path) : String := String.ofList p.spelling

instance : ToString Path := ⟨text⟩

@[simp] theorem segments_append (p q : Path) : (p ++ q).segments = p.segments ++ q.segments := rfl

@[simp] theorem segments_canonical (p : Path) :
    p.canonical.segments = p.segments.map fun s => .plain s.name := rfl

@[simp] theorem segments_child (p : Path) (name : String) :
    (p.child name).segments = p.segments ++ [.plain name] := rfl

@[simp] theorem segments_qualify (p : Path) (entity : String) :
    (p.qualify entity).segments = .plain entity :: p.segments := rfl

@[simp] theorem segments_upTo (p : Path) (n : Nat) :
    (p.upTo n).segments = p.segments.take (n + 1) := rfl

@[simp] theorem segments_mapSegments (f : Nat → Segment → Segment) (p : Path) :
    (p.mapSegments f).segments = p.segments.mapIdx f := rfl

theorem ofList?_segments (p : Path) : ofList? p.segments = some p := by
  simp [ofList?, p.segments_ne_nil]

@[simp] theorem canonical_canonical (p : Path) : p.canonical.canonical = p.canonical := by
  ext1
  simp [Segment.plain]

theorem isCanonical_canonical (p : Path) : p.canonical.isCanonical = true := by
  simp [isCanonical, Segment.plain]

theorem splitEntity?_qualify (p : Path) (entity : String) :
    (p.qualify entity).splitEntity? = some (entity, p) := by
  simp [splitEntity?, ofList?_segments, Segment.plain]

end Path

end EventQuery
