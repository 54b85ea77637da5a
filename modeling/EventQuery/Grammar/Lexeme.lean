import EventQuery.Grammar.Matcher
import EventQuery.Value

/-!
# Lexemes

Names, quoted strings and numbers, which the grammars of criteria, selections and paths share.
Letters and digits are those of ASCII.
-/

namespace EventQuery.Grammar

open Matcher

/-- A character of a field name after its first. -/
def isNameChar (c : Char) : Bool := c.isAlphanum || c == '-' || c == '_'

/-- A field name: a letter, then letters, digits, `-` and `_`. -/
def fieldName : Matcher String := do
  let c ← oneOf Char.isAlpha
  let cs ← run0 isNameChar
  return String.ofList (c :: cs)

/-- The texts that are field names. -/
def IsFieldName (s : String) : Prop :=
  match s.toList with
  | [] => False
  | c :: cs => c.isAlpha = true ∧ cs.all isNameChar = true

/-- The characters up to a closing quotation mark and what follows the mark. The mark and the
backslash lose a backslash in front of them; before any other character a backslash is kept. When
the text ends first there is no result, and the failure lies at the end. -/
def quotedBody (q : Char) : List Char → Outcome (List Char)
  | [] => ⟨none, some ⟨[], .unexpected⟩⟩
  | c :: s =>
    if c = q then ⟨some ([], s), some ⟨c :: s, .unexpected⟩⟩
    else if c = '\\' then
      match s with
      | [] => ⟨none, some ⟨[], .unexpected⟩⟩
      | d :: s =>
        let o := quotedBody q s
        let kept := if d = q ∨ d = '\\' then [d] else ['\\', d]
        { o with result := o.result.map fun (body, rest) => (kept ++ body, rest) }
    else
      let o := quotedBody q s
      { o with result := o.result.map fun (body, rest) => (c :: body, rest) }

/-- A string between two quotation marks `q`. -/
def quotedBy (q : Char) : Matcher String := do
  let _ ← char q
  let body ← (quotedBody q : Matcher (List Char))
  return String.ofList body

/-- A string in double or single quotation marks. -/
def quotedString : Matcher String := quotedBy '"' <|> quotedBy '\''

/-- The fault of a number that is out of range: it is refused like an unexpected character. -/
def inRange (x : Option α) : Except SyntaxFault α :=
  match x with
  | some a => .ok a
  | none => .error .unexpected

/-- A minus sign, if there is one, and digits. -/
def signedDigits : Matcher (Bool × List Char) := do
  let minus ← optional (char '-')
  let digits ← run1 Char.isDigit
  return (minus.isSome, digits)

/-- The 64-bit integer with a sign and digits. -/
def integerOf? (negative : Bool) (digits : List Char) : Option Int64 :=
  Digits.int64? (if negative then -(Digits.value digits : Int) else Digits.value digits)

/-- A 64-bit integer. -/
def integer : Matcher Int64 :=
  checked signedDigits fun (negative, digits) => inRange (integerOf? negative digits)

/-- A number: with a fraction a floating-point number, else an integer. -/
def number : Matcher Value :=
  checked
    (do
      let (negative, digits) ← signedDigits
      let fraction ← optional (do let _ ← char '.'; run1 Char.isDigit)
      return (negative, digits, fraction))
    fun (negative, digits, fraction) =>
      match fraction with
      | none => inRange ((integerOf? negative digits).map .int)
      | some f => .ok (.float (.ofDecimal negative ⟨Digits.value (digits ++ f), -f.length⟩))

end EventQuery.Grammar
