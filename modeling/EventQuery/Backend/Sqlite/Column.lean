import EventQuery.Backend.Sqlite.JsonPath

/-!
# Columns

What an SQL condition reads for a field. The lists of which a path picks no element are iterated:
each is a *source*, whose elements are tried one after the other, and is found within the current
element of the source before it. The value is found within the current element of the last source,
or within the document if there are no sources.
-/

namespace EventQuery.Sqlite

/-- The value at a path within the current element of a source or, without one, within the
document. -/
structure Access where
  source : Option Nat
  path : List Step
  deriving DecidableEq

structure Column where
  /-- The lists that are iterated, numbered from zero. -/
  sources : List Access
  value : Access
  deriving DecidableEq

/-- The number of the source after the given one. -/
def nextSource : Option Nat → Nat
  | none => 0
  | some n => n + 1

/-- The column for the segments from position `start` on. Each open list is the end of a source. -/
def columnFrom (source : Option Nat) (start : Nat) (segments : List Segment) :
    List Nat → Option Column
  | [] => (jsonPath? segments).map fun path => ⟨[], ⟨source, path⟩⟩
  | stop :: openLists => do
    let path ← jsonPath? (segments.take (stop + 1 - start))
    let below ← columnFrom (some (nextSource source)) (stop + 1)
      (segments.drop (stop + 1 - start)) openLists
    return { below with sources := ⟨source, path⟩ :: below.sources }

/-- The column for a path with these open lists. A path with a key for an index has none. -/
def column? (p : Path) (openLists : List Nat) : Option Column :=
  columnFrom none 0 p.segments openLists

/-! ## Columns in SQL -/

/-- The name of the `n`-th source. -/
def sourceName (n : Nat) : List Char := "each".toList ++ Digits.ofNat n

/-- What a path starts from: the column with the document, or the current element of a source. -/
def spellStart (document : List Char) : Option Nat → List Char
  | none => document
  | some n => sourceName n ++ ".value".toList

/-- A call of a JSON function on what an access starts from and its path. -/
def spellCall (function : String) (document : List Char) (a : Access) : List Char :=
  function.toList ++
    '(' :: (spellStart document a.source ++ ", '".toList ++ spellPath a.path ++ "')".toList)

/-- The expression for a value. -/
def spellValue (document : List Char) (a : Access) : List Char :=
  if a.path = [] then spellStart document a.source else spellCall "json_extract" document a

/-- The `n`-th source of a query. -/
def spellSource (document : List Char) (a : Access) (n : Nat) : List Char :=
  spellCall "json_each" document a ++ " AS ".toList ++ sourceName n

/-- The sources of a query in their order. -/
def spellSources (document : List Char) (c : Column) : List (List Char) :=
  c.sources.zipIdx.map fun (a, n) => spellSource document a n

end EventQuery.Sqlite
