import EventQuery.Criterion.Basic
import EventQuery.Grammar.Path

/-!
# The grammar of criteria

    criteria    = disjunction
    disjunction = conjunction ( "||" conjunction )*
    conjunction = negation ( "&&" negation )*
    negation    = "!"* ( "(" disjunction ")" | comparison )
    comparison  = path ( operator value )?
    value       = string | ( "\" reserved | character )+

White space may stand around every sign, and a bare path asks for the presence of a value. A value
without quotation marks ends at white space or at one of the reserved characters `&|()`, which a
backslash makes ordinary.
-/

namespace EventQuery

namespace Grammar

open Matcher

/-- The characters that end a value without quotation marks. -/
def isReserved (c : Char) : Bool := c == '&' || c == '|' || c == '(' || c == ')'

/-- A comparison operator by any of its spellings. -/
def comparisonOperator : Matcher Comparison :=
  let spelled (t : String × Comparison) : Matcher Comparison := do
    word t.1.toList
    return t.2
  Comparison.spellings.foldr (fun t m => spelled t <|> m) (fun _ => ⟨none, none⟩)

/-- The characters of a value without quotation marks, and what follows it. A backslash is dropped
before a reserved character only. -/
def bareBody : List Char → List Char × List Char
  | [] => ([], [])
  | c :: s =>
    if isReserved c || Text.isSpace c then ([], c :: s)
    else
      match c, s with
      | '\\', d :: t =>
        if isReserved d then
          let (body, rest) := bareBody t
          (d :: body, rest)
        else
          let (body, rest) := bareBody (d :: t)
          ('\\' :: body, rest)
      | c, s =>
        let (body, rest) := bareBody s
        (c :: body, rest)

/-- A value without quotation marks. -/
def bareValue : Matcher String := fun s =>
  let (body, rest) := bareBody s
  ⟨if body = [] then none else some (String.ofList body, rest), some ⟨rest, .unexpected⟩⟩

def operand : Matcher Value := do
  let s ← quotedString <|> bareValue
  return .text s

def comparison : Matcher Criterion := do
  let p ← path
  let test ← optional (do
    let c ← padded comparisonOperator
    let v ← operand
    return (c, v))
  return match test with
    | some (c, v) => .leaf ⟨p, .comparison c, some v⟩
    | none => .leaf (.present p)

/-- A criterion in parentheses. -/
def group (inner : Matcher Criterion) : Matcher Criterion := do
  let _ ← padded (char '(')
  let a ← inner
  let _ ← padded (char ')')
  return a

def negation (inner : Matcher Criterion) : Matcher Criterion := do
  let bangs ← (many (padded (char '!')) : Matcher (List Char))
  let a ← padded (group inner <|> comparison)
  return if bangs.length % 2 = 1 then a.negate else a

/-- Criteria under one connective, combined from the left. -/
def joined (c : Connective) (m : Matcher Criterion) : Matcher Criterion := do
  let first ← m
  let more ← (many (do padded (word c.token.toList); m) : Matcher (List Criterion))
  return more.foldl (Criterion.combine c) first

def conjunction (inner : Matcher Criterion) : Matcher Criterion := joined .and (negation inner)

def disjunction : Matcher Criterion := recursive fun inner => joined .or (conjunction inner)

def criteria : Matcher Criterion := padded disjunction

end Grammar

/-- Reads a criterion into normal form. Blank text is no condition. -/
def Criterion.parse (text : String) : Except SyntaxError Criterion :=
  if Text.isBlank text then .ok .empty
  else (Grammar.criteria.parse text.toList).map Criterion.flatten

end EventQuery
