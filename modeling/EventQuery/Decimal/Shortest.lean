import EventQuery.Decimal.Binary64
import EventQuery.Decimal.Digits

/-!
# The shortest decimal of a number

Among the decimals that read back as a given number, the ones with the fewest digits, and of those
the nearest. For each count of digits only two decimals can qualify: the number cut off after that
many digits, and the next one up. A tie between the two goes as the caller says.
-/

namespace EventQuery.Binary64

/-- Where an exact tie between two decimals of equal length goes. -/
inductive Tie where
  | up
  | even
  deriving DecidableEq

/-- The decimal place in which `scaled` counts: small enough that seventeen digits of every
positive number lie above it. -/
def scale : Nat := 341

/-- The size of the number in places of `10 ^ (-scale)`, times `unitsPerOne`: a whole number. -/
def Magnitude.scaled (m : Magnitude) : Nat := m.units * Nat.pow 10 scale

/-- The decimal `n` in the place `exponent` reads back as the number. -/
def Magnitude.readsBack (m : Magnitude) (exponent : Int) (n : Nat) : Bool :=
  ofDecimal false ⟨n, exponent⟩ == .finite false m

/-- The number, cut off after its last `dropped` digits, lies nearer to the next decimal up. -/
def Magnitude.prefersUpper (m : Magnitude) (tie : Tie) (dropped : Nat) : Bool :=
  let lower := m.scaled / unitsPerOne / Nat.pow 10 dropped
  let halfPlace := Nat.pow 10 dropped * unitsPerOne
  let twiceRest := 2 * (m.scaled - lower * halfPlace)
  halfPlace < twiceRest || (halfPlace == twiceRest && (tie == .up || lower % 2 == 1))

/-- Of two neighbours in one place the one that reads back, and the preferred one if both do. -/
def neighbour? (readsBack : Nat → Bool) (prefersUpper : Bool) (lower : Nat) (exponent : Int) :
    Option Decimal :=
  match readsBack lower, readsBack (lower + 1) with
  | true, true => some ⟨if prefersUpper then lower + 1 else lower, exponent⟩
  | true, false => some ⟨lower, exponent⟩
  | false, true => some ⟨lower + 1, exponent⟩
  | false, false => none

/-- The best decimal of `count` digits, if one reads back. -/
def Magnitude.candidate? (m : Magnitude) (tie : Tie) (count : Nat) : Option Decimal :=
  let leading := m.scaled / unitsPerOne
  let dropped := (Digits.ofNat leading).length - count
  let exponent : Int := (dropped : Int) - scale
  neighbour? (m.readsBack exponent) (m.prefersUpper tie dropped) (leading / Nat.pow 10 dropped)
    exponent

/-- The number itself as a decimal: a unit is `5 ^ 1074` in the decimal place `-1074`. -/
def Magnitude.exact (m : Magnitude) : Decimal := ⟨m.units * Nat.pow 5 1074, -1074⟩

/-- The shortest decimal that reads back. Seventeen digits are always enough. -/
def Magnitude.shortest (m : Magnitude) (tie : Tie) : Decimal :=
  ((List.range 17).findSome? fun n => m.candidate? tie (n + 1)).getD m.exact

end EventQuery.Binary64

namespace EventQuery.Decimal

/-- The digits without trailing zeros and the exponent that goes with them. -/
def significant (d : Decimal) : List Char × Int :=
  let digits := Digits.ofNat d.digits
  let kept := (digits.reverse.dropWhile (· = '0')).reverse
  (kept, d.exponent + (digits.length - kept.length : Nat))

end EventQuery.Decimal
