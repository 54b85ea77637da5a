import EventQuery.Path.Basic

/-!
# JSON paths

How SQLite addresses a value within a JSON document: a path goes from the document to a member of an
object or to an element of an array, step by step.
-/

namespace EventQuery.Sqlite

inductive Step where
  | member (name : String)
  /-- The element at a position, counted from the end when negative. -/
  | element (n : Int64)
  deriving DecidableEq

/-- A member name that a path may hold without quotation marks. -/
def isPlainName (name : List Char) : Bool :=
  match name with
  | [] => false
  | c :: cs => (c.isAlpha || c == '_') && cs.all fun d => d.isAlphanum || d == '_'

/-- A member after a point, an element in brackets. Positions from the end are marked with `#`. -/
def Step.spelling : Step → List Char
  | member name =>
    if isPlainName name.toList then '.' :: name.toList else '.' :: '"' :: (name.toList ++ ['"'])
  | element n =>
    if 0 ≤ n.toInt then '[' :: (Digits.ofInt n.toInt ++ [']'])
    else '[' :: '#' :: (Digits.ofInt n.toInt ++ [']'])

/-- The text of a path. -/
def spellPath (steps : List Step) : List Char := '$' :: steps.flatMap Step.spelling

/-- The steps of a path segment, unless it picks a list element by its key. -/
def stepsOf? (s : Segment) : Option (List Step) :=
  match s.index with
  | none | some .any => some [.member s.name]
  | some (.position n) => some [.member s.name, .element n]
  | some (.key _) => none

/-- The path that segments describe. -/
def jsonPath? (segments : List Segment) : Option (List Step) :=
  (segments.mapM stepsOf?).map List.flatten

end EventQuery.Sqlite
