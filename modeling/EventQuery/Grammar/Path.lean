import EventQuery.Grammar.Lexeme
import EventQuery.Path.Basic

/-!
# The grammar of paths

    index   = "(" ( integer | string | "*" ) ")"
    segment = name index?
    path    = segment ( "." segment )*
-/

namespace EventQuery

namespace Grammar

open Matcher

/-- What stands between the parentheses of an index. -/
def indexBody : Matcher Index :=
  (do return .position (← integer)) <|> (do return .key (← quotedString)) <|>
    (do let _ ← char '*'; return .any)

def index : Matcher Index := do
  let _ ← char '('
  let i ← indexBody
  let _ ← char ')'
  return i

def segment : Matcher Segment := do
  let name ← fieldName
  let i ← optional index
  return ⟨name, i⟩

def path : Matcher Path := do
  let first ← segment
  let more ← (many (do let _ ← char '.'; segment) : Matcher (List Segment))
  return ⟨first :: more, by simp⟩

end Grammar

/-- Reads a path. -/
def Path.parse (text : String) : Except QueryError Path :=
  match Grammar.path.parse text.toList with
  | .ok p => .ok p
  | .error e => .error (.malformedPath text e.detail)

end EventQuery
