import EventQuery.Decimal.Shortest

/-!
# Numbers written as text

A layout holds the decisions of one number format; `Layout.write` applies them to the shortest
decimal of a number.
-/

namespace EventQuery.Binary64

/-- The decisions of a number format. -/
structure Layout where
  /-- Which scientific exponents are written without an exponent part. -/
  positional : Int → Bool
  /-- What follows a whole number in positional notation. -/
  wholeSuffix : String
  /-- Least number of digits in an exponent part. -/
  exponentDigits : Nat
  /-- Where an exact tie between two shortest decimals goes. -/
  tie : Tie
  nan : String
  infinity : Bool → String

namespace Layout

/-- Digits `ds` whose last one stands in the decimal place `exponent`, without an exponent part. -/
def writePositional (l : Layout) (ds : List Char) (exponent : Int) : List Char :=
  let point := ds.length + exponent
  if 0 ≤ exponent then ds ++ List.replicate exponent.toNat '0' ++ l.wholeSuffix.toList
  else if 0 < point then ds.take point.toNat ++ '.' :: ds.drop point.toNat
  else '0' :: '.' :: (List.replicate (-point).toNat '0' ++ ds)

/-- Digits `ds` with the point after the first and the scientific exponent `order`. -/
def writeScientific (l : Layout) (ds : List Char) (order : Int) : List Char :=
  let power := Digits.ofNat order.natAbs
  let padded := List.replicate (l.exponentDigits - power.length) '0' ++ power
  let significand := match ds with
    | d :: e :: es => d :: '.' :: e :: es
    | ds => ds
  significand ++ 'e' :: (if order < 0 then '-' else '+') :: padded

/-- The text of a size. -/
def writeMagnitude (l : Layout) (m : Magnitude) : List Char :=
  if m.significand = 0 then '0' :: l.wholeSuffix.toList
  else
    let (ds, exponent) := (m.shortest l.tie).significant
    let order := exponent + ds.length - 1
    if l.positional order then l.writePositional ds exponent else l.writeScientific ds order

/-- The text of a number. -/
def write (l : Layout) : Binary64 → List Char
  | .nan => l.nan.toList
  | .infinite s => (l.infinity s).toList
  | .finite s m => if s then '-' :: l.writeMagnitude m else l.writeMagnitude m

end Layout

end EventQuery.Binary64
