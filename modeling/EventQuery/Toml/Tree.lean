import EventQuery.Data.Basic

/-!
# TOML tables

A TOML document is a sequence of assignments to keys and of headers that open tables. This module
builds the tree they describe.

A table is defined once. It may come into being on the way to another one; then a header may still
define it. A table that dotted keys made can be extended by dotted keys of the same table, and by
headers below it, but has no header of its own. Values are closed: nothing is added to an array or a
table that was written as a value.
-/

namespace EventQuery.Toml

/-- How a table came into being. -/
inductive Origin where
  /-- On the way to a table below it. -/
  | passed
  /-- By its own header. -/
  | header
  /-- By a dotted key. -/
  | dotted
  deriving DecidableEq

inductive Node where
  | value (d : Data)
  | table (origin : Origin) (entries : List (String × Node))
  /-- The tables of an array of tables, the one that is open first. -/
  | tables (openTable : List (String × Node)) (earlier : List (List (String × Node)))

abbrev Entries := List (String × Node)

namespace Entries

/-- The entries with the node at a key replaced, or added at the end. -/
def set (key : String) (n : Node) : Entries → Entries
  | [] => [(key, n)]
  | (k, m) :: es => if k = key then (k, n) :: es else (k, m) :: set key n es

/-- Changes the table that a path of keys leads to, making the tables on the way. Dotted keys do not
lead through a table that has a header. -/
def descend (dotted : Bool) (f : Origin → Entries → Option Entries) :
    Origin → List String → Entries → Option Entries
  | origin, [], es => f origin es
  | _, key :: keys, es =>
    match es.lookup key with
    | none =>
      let origin := if dotted then .dotted else .passed
      (descend dotted f origin keys []).map fun inner => set key (.table origin inner) es
    | some (.table origin inner) =>
      if dotted ∧ origin = .header then none
      else (descend dotted f origin keys inner).map fun inner => set key (.table origin inner) es
    | some (.tables inner earlier) =>
      (descend dotted f .header keys inner).map fun inner => set key (.tables inner earlier) es
    | some (.value _) => none

/-- Gives a key its only value. -/
def addValue (key : String) (d : Data) (es : Entries) : Option Entries :=
  match es.lookup key with
  | none => some (set key (.value d) es)
  | some _ => none

/-- Assigns to a key, dotted or not, of the table at `path`. A dotted key ends in a table that
dotted keys made. -/
def assign (path : List String) (keys : List String) (key : String) (d : Data) (es : Entries) :
    Option Entries :=
  descend false (fun _ inner =>
    descend true (fun origin inner =>
      if keys ≠ [] ∧ origin ≠ .dotted then none else addValue key d inner) .header keys inner)
    .header path es

/-- Opens a table by its header. -/
def openTable (path : List String) (key : String) (es : Entries) : Option Entries :=
  descend false (fun _ inner =>
    match inner.lookup key with
    | none => some (set key (.table .header []) inner)
    | some (.table .passed below) => some (set key (.table .header below) inner)
    | some _ => none) .header path es

/-- Opens the next table of an array of tables. -/
def openItem (path : List String) (key : String) (es : Entries) : Option Entries :=
  descend false (fun _ inner =>
    match inner.lookup key with
    | none => some (set key (.tables [] []) inner)
    | some (.tables last earlier) => some (set key (.tables [] (last :: earlier)) inner)
    | some _ => none) .header path es

end Entries

mutual

/-- The data of a tree. -/
def Node.toData : Node → Data
  | .value d => d
  | .table _ es => .record (Entries.toMembers es)
  | .tables last earlier =>
    .array (Entries.toItems earlier [.record (Entries.toMembers last)])

def Entries.toMembers : List (String × Node) → List (String × Data)
  | [] => []
  | (key, n) :: es => (key, n.toData) :: Entries.toMembers es

/-- The tables in their order, before those given. -/
def Entries.toItems : List (List (String × Node)) → List Data → List Data
  | [], later => later
  | es :: earlier, later => Entries.toItems earlier (.record (Entries.toMembers es) :: later)

end

end EventQuery.Toml
