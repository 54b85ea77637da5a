import EventQuery.Decimal.Layout
import EventQuery.Text.Quoted

/-!
# Operand values

What a field is compared with, and constants in selections.
-/

namespace EventQuery

inductive Value where
  | bool (b : Bool)
  | int (n : Int64)
  | float (x : Binary64)
  | text (s : String)
  deriving DecidableEq

namespace Value

/-- Floating-point operands are written without an exponent, whole ones without a point. An exact
tie between two shortest decimals goes up. -/
def floatLayout : Binary64.Layout where
  positional _ := true
  wholeSuffix := ""
  exponentDigits := 1
  tie := .up
  nan := "NaN"
  infinity negative := if negative then "-inf" else "inf"

/-- The value as bare text, without quotation marks. -/
def plainText : Value → List Char
  | bool b => (if b then "true" else "false").toList
  | int n => Digits.ofInt n.toInt
  | float x => floatLayout.write x
  | text s => s.toList

/-- The value as it is written in criteria: text in double quotation marks, all else bare. -/
def spelling : Value → List Char
  | text s => Text.quote '"' s.toList
  | v => v.plainText

/-- Equality of values of one kind. Floating-point numbers are compared as numbers. -/
def same : Value → Value → Bool
  | bool a, bool b => a == b
  | int m, int n => m == n
  | float x, float y => x.same y
  | text s, text t => s == t
  | _, _ => false

@[simp] theorem plainText_text (s : String) : (text s).plainText = s.toList := rfl

end Value

end EventQuery
