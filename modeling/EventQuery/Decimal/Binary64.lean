/-!
# Binary64 numbers

Floating-point numbers kept as exact integers. Every finite number is a whole multiple of the least
positive one, the *unit* `2 ^ (-1074)`, so that a finite number is a significand, a place and a
sign, and no step of the arithmetic leaves the natural numbers.

All rounding goes through `ofRatio`: to the nearest number of the format, and to the even
significand when two are equally near.
-/

namespace EventQuery

namespace Binary64

/-- The pairs that stand for numbers of the format: at most 53 bits, all 53 in use unless the number
lies in the lowest place. Every magnitude has exactly one of them. -/
def Canonical (significand place : Nat) : Prop :=
  significand < Nat.pow 2 53 ∧ (place = 0 ∨ Nat.pow 2 52 ≤ significand) ∧ place ≤ 2045

instance (significand place : Nat) : Decidable (Canonical significand place) :=
  inferInstanceAs (Decidable (_ ∧ _ ∧ _))

/-- The size of a finite number: `significand * 2 ^ place` units. -/
structure Magnitude where
  significand : Nat
  place : Nat
  canonical : Canonical significand place
  deriving DecidableEq

/-- How many units make one. -/
def unitsPerOne : Nat := Nat.pow 2 1074

/-- The size as a count of units. -/
def Magnitude.units (m : Magnitude) : Nat := m.significand * Nat.pow 2 m.place

end Binary64

/-- A binary64 number. All NaNs are one. -/
inductive Binary64 where
  | nan
  | infinite (negative : Bool)
  | finite (negative : Bool) (magnitude : Binary64.Magnitude)
  deriving DecidableEq

/-- The number `digits * 10 ^ exponent`. -/
structure Decimal where
  digits : Nat
  exponent : Int
  deriving DecidableEq

namespace Binary64

/-- Zero, with either sign. -/
def zero (negative : Bool) : Binary64 := .finite negative ⟨0, 0, by decide⟩

/-- The quotient as a whole number, to the nearest, a tie to the even one. -/
def roundHalfEven (num den : Nat) : Nat :=
  let floor := num / den
  let twice := 2 * (num % den)
  if den < twice ∨ (twice = den ∧ floor % 2 = 1) then floor + 1 else floor

/-- `significand * 2 ^ place` units. What is too large for the format is infinite. -/
def ofUnits (negative : Bool) (significand place : Nat) : Binary64 :=
  if h : Canonical significand place then .finite negative ⟨significand, place, h⟩
  else .infinite negative

/-- The number nearest to `num / den`. The place is the one where the quotient keeps 53 bits; a
quotient that rounds up to 54 bits is a power of two in the next place. -/
def ofRatio (negative : Bool) (num den : Nat) : Binary64 :=
  let place := (num * unitsPerOne / den).log2 - 52
  let rounded := roundHalfEven (num * unitsPerOne) (den * Nat.pow 2 place)
  if rounded < Nat.pow 2 53 then ofUnits negative rounded place
  else ofUnits negative (Nat.pow 2 52) (place + 1)

/-- The number nearest to a whole number. -/
def ofNat (n : Nat) : Binary64 := ofRatio false n 1

/-- The number nearest to a decimal. The first two branches only save work: `2 ^ 1024` is beyond the
format and less than half a unit rounds to zero. -/
def ofDecimal (negative : Bool) (d : Decimal) : Binary64 :=
  if d.digits = 0 ∨ d.exponent + d.digits.log2 + 1 ≤ -1075 then zero negative
  else if 1024 ≤ d.exponent then .infinite negative
  else if 0 ≤ d.exponent then ofRatio negative (d.digits * Nat.pow 10 d.exponent.toNat) 1
  else ofRatio negative d.digits (Nat.pow 10 (-d.exponent).toNat)

/-- The opposite number. -/
def neg : Binary64 → Binary64
  | .nan => .nan
  | .infinite s => .infinite !s
  | .finite s m => .finite (!s) m

/-- The number is neither infinite nor NaN. -/
def isFinite : Binary64 → Bool
  | .finite _ _ => true
  | _ => false

/-- The number is a zero of either sign. -/
def isZero : Binary64 → Bool
  | .finite _ m => m.significand == 0
  | _ => false

/-- Rounded product. -/
def mul : Binary64 → Binary64 → Binary64
  | .finite s m, .finite t n => ofRatio (s != t) (m.units * n.units) (unitsPerOne * unitsPerOne)
  | .nan, _ | _, .nan => .nan
  | .infinite s, .infinite t => .infinite (s != t)
  | .infinite s, .finite t n => if n.significand = 0 then .nan else .infinite (s != t)
  | .finite s m, .infinite t => if m.significand = 0 then .nan else .infinite (s != t)

/-- Rounded quotient. -/
def div : Binary64 → Binary64 → Binary64
  | .finite s m, .finite t n =>
    if n.significand = 0 then
      if m.significand = 0 then .nan else .infinite (s != t)
    else ofRatio (s != t) m.units n.units
  | .nan, _ | _, .nan => .nan
  | .infinite _, .infinite _ => .nan
  | .infinite s, .finite t _ => .infinite (s != t)
  | .finite s _, .infinite t => zero (s != t)

/-- Equality of values: NaN differs from itself and the two zeros are equal. -/
def same (x y : Binary64) : Bool :=
  x != .nan && (x == y || (x.isZero && y.isZero))

@[simp] theorem same_nan (x : Binary64) : same .nan x = false := rfl

end Binary64

end EventQuery
