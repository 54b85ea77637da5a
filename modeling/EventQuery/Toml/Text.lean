/-!
# The text of TOML

Blanks, line ends, comments, strings and keys. Each reader takes its part from the front of a text
and leaves what follows it; one whose name ends in a question mark has no result when its part is
not there or is badly written.
-/

namespace EventQuery.Toml

/-- How deep arrays and tables may be nested in a value, and how many keys a dotted key may join. -/
def maxDepth : Nat := 80

/-! ## Between the words -/

def isBlank (c : Char) : Bool := c == ' ' || c == '\t'

def skipBlanks (s : List Char) : List Char := s.dropWhile isBlank

/-- A character that a comment or a string may hold as it is. -/
def isPrintable (c : Char) : Bool := c == '\t' || (0x20 ≤ c.toNat && c.toNat != 0x7F)

/-- What follows the end of a line. -/
def lineBreak? : List Char → Option (List Char)
  | '\n' :: s => some s
  | '\r' :: '\n' :: s => some s
  | _ => none

/-- What follows the end of a line, where only a comment may stand before it. -/
def lineEnd? (s : List Char) : Option (List Char) :=
  let s := match skipBlanks s with
    | '#' :: s => s.dropWhile isPrintable
    | s => s
  if s = [] then some [] else lineBreak? s

/-- What follows blanks, line ends and comments. The first argument tells whether the text begins
inside a comment. -/
def skipLines? : Bool → List Char → Option (List Char)
  | _, [] => some []
  | _, '\n' :: s => skipLines? false s
  | _, '\r' :: '\n' :: s => skipLines? false s
  | true, c :: s => if isPrintable c then skipLines? true s else none
  | false, c :: s =>
    if c = '#' then skipLines? true s
    else if isBlank c then skipLines? false s
    else some (c :: s)

/-- What follows a given character, which may stand after blanks, line ends and comments. -/
def signAfterLines? (c : Char) (s : List Char) : Option (List Char) := do
  match ← skipLines? false s with
  | [] => none
  | d :: rest => if d = c then some rest else none

/-! ## Strings -/

def hexDigit? (c : Char) : Option Nat :=
  if c.isDigit then some (c.toNat - '0'.toNat)
  else if 'a' ≤ c ∧ c ≤ 'f' then some (c.toNat - 'a'.toNat + 10)
  else if 'A' ≤ c ∧ c ≤ 'F' then some (c.toNat - 'A'.toNat + 10)
  else none

/-- The character with a hexadecimal number of so many digits. -/
def numberedChar? (count : Nat) (s : List Char) : Option (Char × List Char) := do
  let digits := s.take count
  if digits.length < count then none
  else
    let n ← digits.foldlM (fun n c => do return 16 * n + (← hexDigit? c)) 0
    if n.isValidChar then some (Char.ofNat n, s.drop count) else none

/-- The character that an escape stands for, after its backslash. -/
def escape? : List Char → Option (Char × List Char)
  | [] => none
  | c :: s =>
    if c = 'x' then numberedChar? 2 s
    else if c = 'u' then numberedChar? 4 s
    else if c = 'U' then numberedChar? 8 s
    else (letters.lookup c).map (·, s)
where
  letters : List (Char × Char) :=
    [('b', '\x08'), ('t', '\t'), ('n', '\n'), ('f', '\x0c'), ('r', '\r'), ('e', '\x1b'),
     ('"', '"'), ('\\', '\\')]

/-- The text after blanks and line ends. -/
def skipSpace : List Char → List Char
  | [] => []
  | '\n' :: s => skipSpace s
  | '\r' :: '\n' :: s => skipSpace s
  | c :: s => if isBlank c then skipSpace s else c :: s

/-- What follows a backslash at the end of a line: the text from the next character that is neither
blank nor a line end. -/
def continuation? (s : List Char) : Option (List Char) :=
  (lineBreak? (skipBlanks s)).map skipSpace

/-- The kinds of strings. -/
structure Quoting where
  mark : Char
  /-- The string is closed by three marks and may have line ends. -/
  isMultiline : Bool
  hasEscapes : Bool
  deriving DecidableEq

/-- The characters of a string, line ends as they are, and what follows its closing marks. Up to two
marks may stand immediately before three closing ones. The first argument bounds the steps. -/
def stringBody? (q : Quoting) : Nat → List Char → Option (List Char × List Char)
  | 0, _ => none
  | _, [] => none
  | n + 1, c :: s =>
    let put (d : Char) (rest : List Char) :=
      (stringBody? q n rest).map fun (body, rest) => (d :: body, rest)
    if c = q.mark then
      if !q.isMultiline then some ([], s)
      else
        match (c :: s).takeWhile (· == c) with
        | [_] | [_, _] => put c s
        | run =>
          let inner := min (run.length - 3) 2
          some (run.take inner, (c :: s).drop (inner + 3))
    else if c = '\\' ∧ q.hasEscapes then
      match escape? s with
      | some (d, rest) => put d rest
      | none => if q.isMultiline then (continuation? s).bind (stringBody? q n) else none
    else if isPrintable c then put c s
    else if q.isMultiline ∧ (lineBreak? (c :: s)).isSome then put c s
    else none

/-- A string from its first mark. A line end just after three marks is no part of the string. -/
def string? (mayBeMultiline : Bool) (s : List Char) : Option (List Char × List Char) := do
  let mark :: rest := s | none
  if mark ≠ '"' ∧ mark ≠ '\'' then none
  else
    let body ← match rest with
      | c :: d :: rest =>
        if c = mark ∧ d = mark then
          if mayBeMultiline then some (true, (lineBreak? rest).getD rest) else none
        else some (false, c :: d :: rest)
      | rest => some (false, rest)
    stringBody? ⟨mark, body.1, mark == '"'⟩ (body.2.length + 1) body.2

/-! ## Keys -/

def isBareKeyChar (c : Char) : Bool := c.isAlphanum || c == '_' || c == '-'

/-- A key without dots. -/
def simpleKey? (s : List Char) : Option (String × List Char) :=
  match s with
  | '"' :: _ | '\'' :: _ => (string? false s).map fun (body, rest) => (String.ofList body, rest)
  | _ =>
    match s.takeWhile isBareKeyChar with
    | [] => none
    | key => some (String.ofList key, s.dropWhile isBareKeyChar)

/-- The keys that a dotted key joins, at most as many as the first argument says. -/
def joinedKeys? : Nat → List Char → Option ((List String × String) × List Char)
  | 0, _ => none
  | n + 1, s => do
    let (first, s) ← simpleKey? (skipBlanks s)
    match skipBlanks s with
    | '.' :: s =>
      let ((path, last), rest) ← joinedKeys? n s
      return ((first :: path, last), rest)
    | rest => return (([], first), rest)

/-- A key, dotted or not: the keys of the tables it leads through, and the last one. Blanks may
stand around it and around each dot. -/
def key? (s : List Char) : Option ((List String × String) × List Char) := joinedKeys? maxDepth s

end EventQuery.Toml
