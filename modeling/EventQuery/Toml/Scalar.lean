import EventQuery.Data.Basic
import EventQuery.Decimal.Reader
import EventQuery.Toml.Text

/-!
# Scalars of TOML

Truth values, numbers, dates and times. A scalar is a run of characters that no other part of the
notation uses, and is read as a whole.

Whole numbers are those of 128 bits, with or without a sign. A floating-point number may be infinite
only if it is written so. Any other number is well written, but out of range.
-/

namespace EventQuery.Toml

def isScalarChar (c : Char) : Bool := c.isAlphanum || "+-_.:".toList.contains c

/-- The digits of a run. An underscore may stand between two of them. -/
def digits? (isDigit : Char → Bool) : List Char → Option (List Char)
  | [] => none
  | [c] => if isDigit c then some [c] else none
  | c :: '_' :: s => if isDigit c then (digits? isDigit s).map (c :: ·) else none
  | c :: s => if isDigit c then (digits? isDigit s).map (c :: ·) else none

/-- The part before the first character of a kind, and what follows that character, if there is
one. -/
def splitAtFirst (p : Char → Bool) (s : List Char) : List Char × Option (List Char) :=
  match s.dropWhile (!p ·) with
  | [] => (s, none)
  | _ :: rest => (s.takeWhile (!p ·), some rest)

/-! ## Numbers -/

/-- The digits of a decimal number before its point: none of them leads as a zero. -/
def wholeDigits? (s : List Char) : Option (List Char) := do
  let digits ← digits? Char.isDigit s
  match digits with
  | '0' :: _ :: _ => none
  | _ => some digits

/-- A whole number, if it is in range. -/
def ofInt (n : Int) : Data :=
  if -(Nat.pow 2 127 : Int) ≤ n ∧ n < (Nat.pow 2 128 : Int) then .int n else .outOfRange

/-- The digits of a base, and the digit characters it has. -/
def radix? : Char → Option (Nat × (Char → Bool))
  | 'x' => some (16, fun c => (hexDigit? c).isSome)
  | 'o' => some (8, fun c => '0' ≤ c && c ≤ '7')
  | 'b' => some (2, fun c => c == '0' || c == '1')
  | _ => none

/-- The value of digits in a base. -/
def radixValue (base : Nat) (digits : List Char) : Nat :=
  digits.foldl (fun n c => base * n + (hexDigit? c).getD 0) 0

/-- A whole number. -/
def integer? (s : List Char) : Option Data :=
  match s with
  | '0' :: c :: rest => do
    let (base, isDigit) ← radix? c
    let digits ← digits? isDigit rest
    return ofInt (radixValue base digits)
  | _ => do
    let (negative, body) := Digits.splitSign s
    let digits ← wholeDigits? body
    return ofInt (if negative then -(Digits.value digits : Int) else Digits.value digits)

/-- A decimal number with a fraction, an exponent or both, without its sign and without its
underscores. -/
def plainDecimal? (s : List Char) : Option (List Char) := do
  let (mantissa, exponent) := splitAtFirst (fun c => c == 'e' || c == 'E') s
  let (whole, fraction) := splitAtFirst (· == '.') mantissa
  let whole ← wholeDigits? whole
  let fraction ← match fraction with
    | none => some []
    | some f => (digits? Char.isDigit f).map ('.' :: ·)
  let exponent ← match exponent with
    | none => some []
    | some e =>
      let (negative, e) := Digits.splitSign e
      (digits? Char.isDigit e).map fun e => 'e' :: (if negative then '-' :: e else e)
  if fraction = [] ∧ exponent = [] then none else some (whole ++ fraction ++ exponent)

/-- A floating-point number. -/
def float? (s : List Char) : Option Data :=
  let (negative, body) := Digits.splitSign s
  if body = "inf".toList then some (.float (.infinite negative))
  else if body = "nan".toList then some (.float .nan)
  else do
    let x ← Binary64.read? (← plainDecimal? body)
    return if x.isFinite then .float (if negative then x.neg else x) else .outOfRange

/-! ## Dates and times -/

/-- A number of exactly so many digits, and what follows it. -/
def fixedNumber? (count : Nat) (s : List Char) : Option (Nat × List Char) :=
  let digits := s.take count
  if digits.length = count ∧ digits.all Char.isDigit then some (Digits.value digits, s.drop count)
  else none

def isLeapYear (year : Nat) : Bool := year % 4 == 0 && (year % 100 != 0 || year % 400 == 0)

def daysInMonth (year month : Nat) : Nat :=
  if month = 2 then if isLeapYear year then 29 else 28
  else if [4, 6, 9, 11].contains month then 30
  else 31

/-- What follows a given character. -/
def sign? (c : Char) : List Char → Option (List Char)
  | [] => none
  | d :: s => if d = c then some s else none

/-- What follows a date of the calendar. -/
def date? (s : List Char) : Option (List Char) := do
  let (year, s) ← fixedNumber? 4 s
  let (month, s) ← fixedNumber? 2 (← sign? '-' s)
  let (day, s) ← fixedNumber? 2 (← sign? '-' s)
  if 1 ≤ month ∧ month ≤ 12 ∧ 1 ≤ day ∧ day ≤ daysInMonth year month then some s else none

/-- Two two-digit numbers with a colon between them, below their bounds. -/
def clock? (s : List Char) : Option (List Char) := do
  let (hour, s) ← fixedNumber? 2 s
  let (minute, s) ← fixedNumber? 2 (← sign? ':' s)
  if hour < 24 ∧ minute < 60 then some s else none

/-- What follows a time of day. The seconds may be left out; a leap second is one. -/
def time? (s : List Char) : Option (List Char) := do
  match ← clock? s with
  | ':' :: s =>
    let (second, s) ← fixedNumber? 2 s
    if 60 < second then none
    else
      match s with
      | '.' :: s =>
        if (s.takeWhile Char.isDigit).isEmpty then none else some (s.dropWhile Char.isDigit)
      | s => some s
  | s => some s

/-- The offset of a time from universal time. -/
def isOffset : List Char → Bool
  | [c] => c == 'Z' || c == 'z'
  | c :: s => (c == '+' || c == '-') && clock? s == some []
  | [] => true

/-- A date, a time of day, or both, and then perhaps an offset. -/
def isMoment (s : List Char) : Bool :=
  match date? s with
  | none => time? s == some []
  | some [] => true
  | some (c :: rest) =>
    ['T', 't', ' '].contains c && ((time? rest).map isOffset).getD false

/-! ## All scalars -/

/-- What a run of characters stands for. -/
def ofRun? (run : List Char) : Option Data :=
  if run = "true".toList then some (.bool true)
  else if run = "false".toList then some (.bool false)
  else if isMoment run then some .moment
  else (integer? run).or (float? run)

/-- A scalar and what follows it. A blank may part a date from a time. -/
def scalar? (s : List Char) : Option (Data × List Char) :=
  let run := s.takeWhile isScalarChar
  match date? run, s.dropWhile isScalarChar with
  | some [], ' ' :: c :: rest =>
    if c.isDigit then
      let time := (c :: rest).takeWhile isScalarChar
      (ofRun? (run ++ ' ' :: time)).map (·, (c :: rest).dropWhile isScalarChar)
    else (ofRun? run).map (·, ' ' :: c :: rest)
  | _, rest => (ofRun? run).map (·, rest)

end EventQuery.Toml
