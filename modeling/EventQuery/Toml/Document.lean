import EventQuery.Toml.Scalar
import EventQuery.Toml.Tree

/-!
# TOML documents

Values, and the lines of a document: assignments, and headers that open the table to which the
assignments below them belong.
-/

namespace EventQuery.Toml

mutual

/-- A value. The first argument bounds how deep the readers call each other, the second how deep
arrays and tables are nested. -/
def value? : Nat → Nat → List Char → Option (Data × List Char)
  | 0, _, _ => none
  | n + 1, depth, s =>
    match s, depth with
    | '[' :: _, 0 => none
    | '\x7b' :: _, 0 => none
    | '[' :: s, depth + 1 => (items? n depth s).map fun (ds, rest) => (.array ds, rest)
    | '\x7b' :: s, depth + 1 =>
      (members? n depth [] s).map fun (es, rest) => (.record (Entries.toMembers es), rest)
    | '"' :: _, _ => (string? true s).map fun (body, rest) => (.text (String.ofList body), rest)
    | '\'' :: _, _ => (string? true s).map fun (body, rest) => (.text (String.ofList body), rest)
    | s, _ => scalar? s

/-- The items of an array up to its closing bracket. A comma may follow the last one. -/
def items? : Nat → Nat → List Char → Option (List Data × List Char)
  | 0, _, _ => none
  | n + 1, depth, s => do
    match ← skipLines? false s with
    | ']' :: rest => return ([], rest)
    | s =>
      let (d, s) ← value? n depth s
      match ← skipLines? false s with
      | ',' :: s =>
        let (ds, rest) ← items? n depth s
        return (d :: ds, rest)
      | ']' :: rest => return ([d], rest)
      | _ => none

/-- The entries of a table written as a value, after those given and up to its closing brace. Lines
may end around keys, values and signs, and a comma may follow the last entry. -/
def members? : Nat → Nat → Entries → List Char → Option (Entries × List Char)
  | 0, _, _, _ => none
  | n + 1, depth, es, s => do
    match ← skipLines? false s with
    | '\x7d' :: rest => return (es, rest)
    | s =>
      let ((keys, key), s) ← key? s
      let (d, s) ← value? n depth (← skipLines? false (← signAfterLines? '=' s))
      let es ← es.assign [] keys key d
      match ← skipLines? false s with
      | ',' :: s => members? n depth es s
      | '\x7d' :: rest => return (es, rest)
      | _ => none

end

/-- Keys up to the bracket that closes a header, and what follows it. -/
def header? (s : List Char) : Option ((List String × String) × List Char) := do
  let (keys, s) ← key? s
  return (keys, ← sign? ']' s)

/-- Reads a line that is not empty. The first part of the result is the table that the lines below
it belong to. -/
def line? (path : List String) (es : Entries) (s : List Char) :
    Option (List String × Entries × List Char) :=
  match s with
  | '[' :: '[' :: s => do
    let ((keys, key), s) ← header? s
    return (keys ++ [key], ← es.openItem keys key, ← lineEnd? (← sign? ']' s))
  | '[' :: s => do
    let ((keys, key), s) ← header? s
    return (keys ++ [key], ← es.openTable keys key, ← lineEnd? s)
  | s => do
    let ((keys, key), s) ← key? s
    let s := skipBlanks (← sign? '=' s)
    let (d, s) ← value? (2 * s.length + 2) maxDepth s
    return (path, ← es.assign path keys key d, ← lineEnd? s)

/-- Reads all lines. The first argument bounds their number. -/
def lines? : Nat → List String → Entries → List Char → Option Entries
  | 0, _, _, _ => none
  | n + 1, path, es, s => do
    match ← skipLines? false s with
    | [] => return es
    | s =>
      let (path, es, rest) ← line? path es s
      lines? n path es rest

/-- TOML has an array for a record also with items that the record has no members for, and an empty
array or table for no content. -/
def conventions : Data.Conventions where
  allowsSurplus := true
  isNoContent d := d.isEmptyArray || d.isEmptyRecord

/-- The data of a document. A byte order mark may stand at its beginning. -/
def read? (text : String) : Option Data :=
  let s := match text.toList with
    | '\uFEFF' :: s => s
    | s => s
  (lines? (s.length + 1) [] [] s).map fun es => .record (Entries.toMembers es)

end EventQuery.Toml
