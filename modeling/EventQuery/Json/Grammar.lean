/-!
# The grammar of JSON

Reads JSON text into its syntax: numbers and strings stay as they are written. What a number is
worth and which characters a string holds is decided later, and only where it matters.
-/

namespace EventQuery.Json

/-- A number as written. -/
structure Numeral where
  negative : Bool
  whole : List Char
  /-- The digits after the point, if there is one. -/
  fraction : Option (List Char)
  /-- The sign and digits of the exponent, if there is one. -/
  exponent : Option (Bool × List Char)
  deriving DecidableEq

/-- The syntax of a JSON value. -/
inductive Node where
  | null
  | bool (b : Bool)
  | number (n : Numeral)
  /-- A string by the characters between its quotation marks. -/
  | string (body : List Char)
  | array (items : List Node)
  | object (members : List (List Char × Node))

/-- The four characters of JSON white space. -/
def isSpace (c : Char) : Bool := c == ' ' || c == '\n' || c == '\t' || c == '\r'

def skipSpace (s : List Char) : List Char := s.dropWhile isSpace

/-- What follows a given text. -/
def word? (w s : List Char) : Option (List Char) :=
  match w, s with
  | [], s => some s
  | c :: w, d :: s => if c = d then word? w s else none
  | _ :: _, [] => none

/-- Digits and what follows them. -/
def digits (s : List Char) : List Char × List Char :=
  (s.takeWhile Char.isDigit, s.dropWhile Char.isDigit)

/-- The fraction of a number, if there is one. -/
def fraction? : List Char → Option (Option (List Char) × List Char)
  | '.' :: s =>
    match digits s with
    | ([], _) => none
    | (ds, rest) => some (some ds, rest)
  | s => some (none, s)

/-- The sign and the digits of an exponent. -/
def exponentBody? (s : List Char) : Option (Option (Bool × List Char) × List Char) :=
  let (negative, s) := match s with
    | '-' :: s => (true, s)
    | '+' :: s => (false, s)
    | s => (false, s)
  match digits s with
  | ([], _) => none
  | (ds, rest) => some (some (negative, ds), rest)

/-- The exponent of a number, if there is one. -/
def exponent? : List Char → Option (Option (Bool × List Char) × List Char)
  | 'e' :: s => exponentBody? s
  | 'E' :: s => exponentBody? s
  | s => some (none, s)

/-- The digits before the point: a single zero, or digits that start with another. -/
def whole? (s : List Char) : Option (List Char × List Char) :=
  match digits s with
  | ([], _) => none
  | ('0' :: _ :: _, _) => none
  | (ds, rest) => some (ds, rest)

/-- A number without its sign. -/
def numeral? (negative : Bool) (s : List Char) : Option (Node × List Char) := do
  let (whole, s) ← whole? s
  let (fraction, s) ← fraction? s
  let (exponent, s) ← exponent? s
  return (.number ⟨negative, whole, fraction, exponent⟩, s)

def isHexDigit (c : Char) : Bool :=
  c.isDigit || ('a' ≤ c && c ≤ 'f') || ('A' ≤ c && c ≤ 'F')

/-- A character that may follow a backslash by itself. -/
def isEscape (c : Char) : Bool := "\"\\/bfnrt".toList.contains c

/-- The characters up to the closing quotation mark, and what follows it. -/
def stringBody? : List Char → Option (List Char × List Char)
  | [] => none
  | c :: s =>
    if c = '"' then some ([], s)
    else if c = '\\' then
      match s with
      | 'u' :: a :: b :: c :: d :: s =>
        if [a, b, c, d].all isHexDigit then
          (stringBody? s).map fun (body, rest) => ('\\' :: 'u' :: a :: b :: c :: d :: body, rest)
        else none
      | c :: s =>
        if isEscape c then (stringBody? s).map fun (body, rest) => ('\\' :: c :: body, rest)
        else none
      | [] => none
    else if c.toNat < 0x20 then none
    else (stringBody? s).map fun (body, rest) => (c :: body, rest)

/-- What follows a character, with white space skipped before it. -/
def sign? (c : Char) (s : List Char) : Option (List Char) :=
  match skipSpace s with
  | [] => none
  | d :: rest => if d = c then some rest else none

mutual

/-- A value, with white space before it. The first argument bounds how deep the readers call each
other. -/
def value? : Nat → List Char → Option (Node × List Char)
  | 0, _ => none
  | n + 1, s =>
    match skipSpace s with
    | '{' :: s =>
      match sign? '}' s with
      | some rest => some (.object [], rest)
      | none => (members? n s).map fun (ms, rest) => (.object ms, rest)
    | '[' :: s =>
      match sign? ']' s with
      | some rest => some (.array [], rest)
      | none => (items? n s).map fun (vs, rest) => (.array vs, rest)
    | '"' :: s => (stringBody? s).map fun (body, rest) => (.string body, rest)
    | '-' :: s => numeral? true s
    | 'n' :: s => (word? "ull".toList s).map fun rest => (.null, rest)
    | 't' :: s => (word? "rue".toList s).map fun rest => (.bool true, rest)
    | 'f' :: s => (word? "alse".toList s).map fun rest => (.bool false, rest)
    | s => numeral? false s

/-- The items of an array up to its closing bracket. -/
def items? : Nat → List Char → Option (List Node × List Char)
  | 0, _ => none
  | n + 1, s => do
    let (v, s) ← value? n s
    match skipSpace s with
    | ',' :: s =>
      let (vs, rest) ← items? n s
      return (v :: vs, rest)
    | ']' :: rest => return ([v], rest)
    | _ => none

/-- The members of an object up to its closing brace. -/
def members? : Nat → List Char → Option (List (List Char × Node) × List Char)
  | 0, _ => none
  | n + 1, s => do
    let s ← sign? '"' s
    let (name, s) ← stringBody? s
    let s ← sign? ':' s
    let (v, s) ← value? n s
    match skipSpace s with
    | ',' :: s =>
      let (ms, rest) ← members? n s
      return ((name, v) :: ms, rest)
    | '}' :: rest => return ([(name, v)], rest)
    | _ => none

end

/-- Reads a value at the beginning of a text. The readers above call each other at most twice for
each character they take. -/
def read? (s : List Char) : Option (Node × List Char) := value? (2 * s.length + 2) s

end EventQuery.Json
