import EventQuery.Decimal.Binary64
import EventQuery.Decimal.Digits

/-!
# Numbers read from text

The decimal notation of floating-point numbers: a sign, digits with at most one point among or
around them, and an exponent; also the words for NaN and infinity in any case. The number read is
the one nearest to the decimal written.
-/

namespace EventQuery.Binary64

/-- An exponent part `e±digits`, or none at all. -/
def readExponent? : List Char → Option Int
  | [] => some 0
  | c :: s =>
    let (negative, digits) := Digits.splitSign s
    if (c = 'e' ∨ c = 'E') ∧ digits ≠ [] ∧ digits.all Char.isDigit then
      some (if negative then -(Digits.value digits : Int) else Digits.value digits)
    else none

/-- A decimal without a sign. At least one digit stands before or after the point. -/
def readDecimal? (s : List Char) : Option Decimal :=
  let whole := s.takeWhile Char.isDigit
  let afterWhole := s.dropWhile Char.isDigit
  let (fraction, rest) := match afterWhole with
    | '.' :: t => (t.takeWhile Char.isDigit, t.dropWhile Char.isDigit)
    | t => ([], t)
  if whole = [] ∧ fraction = [] then none
  else (readExponent? rest).map fun e => ⟨Digits.value (whole ++ fraction), e - fraction.length⟩

/-- Reads a number. -/
def read? (s : List Char) : Option Binary64 :=
  let (negative, body) := Digits.splitSign s
  let word := String.ofList (body.map Char.toLower)
  if word = "nan" then some .nan
  else if word = "inf" ∨ word = "infinity" then some (.infinite negative)
  else (readDecimal? body).map (ofDecimal negative)

end EventQuery.Binary64
