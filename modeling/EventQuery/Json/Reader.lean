import EventQuery.Data.Basic
import EventQuery.Decimal.Digits
import EventQuery.Json.Grammar

/-!
# The meaning of JSON

What the syntax of a JSON text stands for.

A whole number that fits 64 bits, with or without a sign, is an integer. Any other number is a
floating-point number, read in two roundings: the leading digits that fit 64 bits make a whole
number, which is then multiplied or divided by a power of ten. A number too large for the format has
no meaning, and neither has a string with half of a surrogate pair or data nested too deep.
-/

namespace EventQuery.Json

/-- JSON has an array for a record only where each item is a member, and `null` for no content. -/
def conventions : Data.Conventions where
  allowsSurplus := false
  isNoContent d := d.isNull

/-- Leading digits appended to `n` for as long as it fits 64 bits, and how many digits remain. -/
def gather (n : Nat) : List Char → Nat × Nat
  | [] => (n, 0)
  | c :: cs =>
    let n' := Digits.value [c] + 10 * n
    if n' < Nat.pow 2 64 then gather n' cs else (n, cs.length + 1)

/-- The greatest power of ten that a number is scaled by in one step. -/
def maxPower : Nat := 308

/-- The rounded power of ten. -/
def power (n : Nat) : Binary64 := .ofNat (Nat.pow 10 n)

/-- `n * 10 ^ exponent`, for `n` below `2 ^ 64`. Large negative exponents take two divisions, and
beyond those nothing is left of the number. -/
def scale? (n : Nat) (exponent : Int) : Option Binary64 :=
  let x := Binary64.ofNat n
  if n = 0 then some x
  else if (maxPower : Int) < exponent then none
  else if 0 ≤ exponent then
    let y := x.mul (power exponent.toNat)
    if y.isFinite then some y else none
  else
    let places := (-exponent).toNat
    if places ≤ maxPower then some (x.div (power places))
    else if places ≤ 2 * maxPower then
      some ((x.div (power maxPower)).div (power (places - maxPower)))
    else some (.zero false)

/-- The value of a number. -/
def Numeral.toData? (n : Numeral) : Option Data :=
  let (significand, dropped) := gather 0 n.whole
  match n.fraction, n.exponent with
  | none, none =>
    if dropped = 0 ∧ !n.negative then some (.int significand)
    else if dropped = 0 ∧ 0 < significand ∧ significand ≤ Nat.pow 2 63 then
      some (.int (-significand))
    else (scale? significand dropped).map (signed n.negative)
  | fraction, exponent =>
    let digits := fraction.getD []
    let (significand, unread) := gather significand digits
    let power := match exponent with
      | none => 0
      | some (negative, ds) => if negative then -(Digits.value ds : Int) else Digits.value ds
    (scale? significand (dropped - (digits.length - unread : Nat) + power)).map (signed n.negative)
where
  signed (negative : Bool) (x : Binary64) : Data := .float (if negative then x.neg else x)

/-- The value of hexadecimal digits. -/
def hexValue (s : List Char) : Nat :=
  s.foldl (fun n c =>
    16 * n + (if c.isDigit then c.toNat - '0'.toNat else c.toLower.toNat - 'a'.toNat + 10)) 0

/-- What a character stands for after a backslash. -/
def unescape (c : Char) : Char :=
  if c = 'b' then '\x08'
  else if c = 'f' then '\x0c'
  else if c = 'n' then '\n'
  else if c = 'r' then '\r'
  else if c = 't' then '\t'
  else c

def isHighSurrogate (n : Nat) : Bool := 0xD800 ≤ n && n < 0xDC00

def isLowSurrogate (n : Nat) : Bool := 0xDC00 ≤ n && n < 0xE000

/-- A part of a string: a character, or a 16-bit unit given by its number. -/
inductive Piece where
  | char (c : Char)
  | unit (n : Nat)
  deriving DecidableEq

/-- The parts of a string. -/
def pieces : List Char → List Piece
  | [] => []
  | '\\' :: s =>
    match s with
    | 'u' :: a :: b :: c :: d :: s => .unit (hexValue [a, b, c, d]) :: pieces s
    | c :: s => .char (unescape c) :: pieces s
    | [] => []
  | c :: s => .char c :: pieces s

/-- The characters of the parts. Two halves of a surrogate pair make one character. -/
def characters? : List Piece → Option (List Char)
  | [] => some []
  | .char c :: ps => (characters? ps).map (c :: ·)
  | .unit n :: ps =>
    if isHighSurrogate n then
      match ps with
      | .unit m :: ps =>
        if isLowSurrogate m then
          (characters? ps).map (Char.ofNat (0x10000 + 0x400 * (n - 0xD800) + (m - 0xDC00)) :: ·)
        else none
      | _ => none
    else if isLowSurrogate n then none
    else (characters? ps).map (Char.ofNat n :: ·)

def string? (body : List Char) : Option String := (characters? (pieces body)).map String.ofList

/-- How deep data may be nested. -/
def maxDepth : Nat := 127

mutual

/-- The data that a value stands for, where `depth` more arrays and objects may be nested. -/
def Node.toData? : Nat → Node → Option Data
  | _, .null => some .null
  | _, .bool b => some (.bool b)
  | _, .number n => n.toData?
  | _, .string body => (string? body).map .text
  | 0, .array _ => none
  | 0, .object _ => none
  | depth + 1, .array items => (itemsToData? depth items).map .array
  | depth + 1, .object members => (membersToData? depth members).map .record

def itemsToData? (depth : Nat) : List Node → Option (List Data)
  | [] => some []
  | v :: vs => do
    let d ← v.toData? depth
    let ds ← itemsToData? depth vs
    return d :: ds

def membersToData? (depth : Nat) : List (List Char × Node) → Option (List (String × Data))
  | [] => some []
  | (name, v) :: ms => do
    let name ← string? name
    let d ← v.toData? depth
    let ds ← membersToData? depth ms
    return (name, d) :: ds

end

/-- The data of an object without its members of other names, whose values need not stand for
anything. -/
def Node.restricted? (names : List String) : Node → Option Data
  | .object members => do
    let named ← members.mapM fun (name, v) => do return (← string? name, v)
    let kept ← (named.filter fun (name, _) => names.contains name).mapM fun (name, v) => do
      return (name, ← v.toData? (maxDepth - 1))
    return .record kept
  | v => v.toData? maxDepth

/-- Reads one value from a text and what it describes. Nothing but white space may follow the value,
but an error in the description comes first. -/
def decode (text : String) (toData? : Node → Option Data) (describe : Data → Except DataError α) :
    Except DataError α := do
  let some (node, rest) := read? text.toList | throw .malformed
  let some d := toData? node | throw .malformed
  let a ← describe d
  if skipSpace rest = [] then return a else throw .malformed

end EventQuery.Json
