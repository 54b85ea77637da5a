import EventQuery.Data.Basic
import EventQuery.Decimal.Layout

/-!
# JSON text

Data written as JSON without white space, members in their order.
-/

namespace EventQuery.Json

/-- Numbers keep a point or an exponent, which tells them from integers: an exponent below `1e-5`
and from `1e16` on, with a sign and at least two digits. An exact tie between two shortest decimals
goes to the even digit. What is not finite is null. -/
def floatLayout : Binary64.Layout where
  positional order := -5 ≤ order && order ≤ 15
  wholeSuffix := ".0"
  exponentDigits := 2
  tie := .even
  nan := "null"
  infinity _ := "null"

/-- A character of a string: quotation marks, backslashes and control characters are escaped. -/
def escape (c : Char) : List Char :=
  if c = '"' then "\\\"".toList
  else if c = '\\' then "\\\\".toList
  else if c = '\x08' then "\\b".toList
  else if c = '\x0c' then "\\f".toList
  else if c = '\n' then "\\n".toList
  else if c = '\r' then "\\r".toList
  else if c = '\t' then "\\t".toList
  else if c.toNat < 0x20 then
    "\\u00".toList ++ [Nat.digitChar (c.toNat / 16), Nat.digitChar (c.toNat % 16)]
  else [c]

def writeString (s : String) : List Char := '"' :: (s.toList.flatMap escape ++ ['"'])

mutual

def write : Data → List Char
  | .null | .moment | .outOfRange => "null".toList
  | .bool b => (if b then "true" else "false").toList
  | .int n => Digits.ofInt n
  | .float x => floatLayout.write x
  | .text s => writeString s
  | .array items => '[' :: (writeItems items ++ [']'])
  | .record members => '\x7b' :: (writeMembers members ++ ['\x7d'])

/-- Items with commas between them. -/
def writeItems : List Data → List Char
  | [] => []
  | [d] => write d
  | d :: ds => write d ++ ',' :: writeItems ds

/-- Members with commas between them. -/
def writeMembers : List (String × Data) → List Char
  | [] => []
  | [(name, d)] => writeString name ++ ':' :: write d
  | (name, d) :: ms => writeString name ++ ':' :: (write d ++ ',' :: writeMembers ms)

end

end EventQuery.Json
