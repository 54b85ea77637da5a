import EventQuery.Error
import EventQuery.Text.Space

/-!
# Matchers

A matcher reads a beginning of a text. Choice is ordered, repetition takes all it can, and a choice
once made is not undone.

Besides its result a matcher reports the *furthest failure* it met: the place closest to the end of
the text where a character was refused, whether or not the text as a whole was then read another
way. A failure is placed by what remains of the text. Of two failures in one place a specific one
counts more than an unexpected character, and an earlier one more than a later one; `furthest` is
that choice, and reports are combined by it from left to right.
-/

namespace EventQuery.Grammar

structure Failure where
  /-- What remains of the text at the place of the failure. -/
  rest : List Char
  fault : SyntaxFault
  deriving DecidableEq

/-- Of two reports, the one closer to the end of the text. -/
def furthest : Option Failure → Option Failure → Option Failure
  | none, b => b
  | a, none => a
  | some a, some b =>
    if b.rest.length < a.rest.length then some b
    else if a.rest.length < b.rest.length then some a
    else if a.fault = .unexpected then some b
    else some a

structure Outcome (α : Type) where
  /-- The value read and what remains of the text. -/
  result : Option (α × List Char)
  failure : Option Failure

def Matcher (α : Type) := List Char → Outcome α

namespace Outcome

/-- Adds an earlier report to an outcome. -/
def after (earlier : Option Failure) (o : Outcome α) : Outcome α :=
  { o with failure := furthest earlier o.failure }

end Outcome

namespace Matcher

/-- The outcome of a matcher on a text. -/
def run (m : Matcher α) (s : List Char) : Outcome α := m s

/-- A match of nothing. -/
def pure (a : α) : Matcher α := fun s => ⟨some (a, s), none⟩

/-- One matcher and then another, which may depend on the first one's value. -/
def bind (m : Matcher α) (f : α → Matcher β) : Matcher β := fun s =>
  match m s with
  | ⟨some (a, rest), failure⟩ => (f a rest).after failure
  | ⟨none, failure⟩ => ⟨none, failure⟩

instance : Monad Matcher where
  pure := pure
  bind := bind

/-- The first matcher, or the second where the first fails. -/
def or (m n : Matcher α) : Matcher α := fun s =>
  match m s with
  | ⟨some r, failure⟩ => ⟨some r, failure⟩
  | ⟨none, failure⟩ => (n s).after failure

instance : OrElse (Matcher α) := ⟨fun m n => or m (n ())⟩

/-- A matcher that may fail. -/
def optional (m : Matcher α) : Matcher (Option α) := fun s =>
  match m s with
  | ⟨some (a, rest), failure⟩ => ⟨some (some a, rest), failure⟩
  | ⟨none, failure⟩ => ⟨some (none, s), failure⟩

/-- One character of a class. -/
def oneOf (accepts : Char → Bool) : Matcher Char
  | c :: s => if accepts c then ⟨some (c, s), none⟩ else ⟨none, some ⟨c :: s, .unexpected⟩⟩
  | [] => ⟨none, some ⟨[], .unexpected⟩⟩

/-- One given character. -/
def char (c : Char) : Matcher Char := oneOf (· == c)

/-- A given text. A mismatch is placed at its first differing character. -/
def word : List Char → Matcher Unit
  | [] => pure ()
  | c :: cs => bind (char c) fun _ => word cs

/-- All characters of a class from here on, possibly none. -/
def run0 (accepts : Char → Bool) : Matcher (List Char) := fun s =>
  let rest := s.dropWhile accepts
  ⟨some (s.takeWhile accepts, rest), some ⟨rest, .unexpected⟩⟩

/-- All characters of a class from here on, at least one. -/
def run1 (accepts : Char → Bool) : Matcher (List Char) := do
  let c ← oneOf accepts
  let cs ← run0 accepts
  return c :: cs

/-- White space, which is never reported. -/
def space : Matcher Unit := fun s => ⟨some ((), Text.skipSpace s), none⟩

/-- A matcher with white space around it. -/
def padded (m : Matcher α) : Matcher α := do
  space
  let a ← m
  space
  return a

/-- Repeats a matcher until it fails or makes no progress. -/
def many (m : Matcher α) (s : List Char) : Outcome (List α) :=
  match m s with
  | ⟨none, failure⟩ => ⟨some ([], s), failure⟩
  | ⟨some (a, rest), failure⟩ =>
    if rest.length < s.length then
      let o := many m rest
      ⟨o.result.map fun (as, rest') => (a :: as, rest'), furthest failure o.failure⟩
    else ⟨some ([a], rest), failure⟩
termination_by s.length

/-- One or more matches with a separator between them. -/
def separated (m : Matcher α) (separator : Matcher β) : Matcher (List α) := do
  let a ← m
  let as ← (many (do let _ ← separator; m) : Matcher (List α))
  return a :: as

/-- A value that must pass a check. When it does not, whatever was reported on the way to it is
dropped and the fault stands where the value begins. -/
def checked (m : Matcher α) (check : α → Except SyntaxFault β) : Matcher β := fun s =>
  match m s with
  | ⟨some (a, rest), failure⟩ =>
    match check a with
    | .ok b => ⟨some (b, rest), failure⟩
    | .error fault => ⟨none, some ⟨s, fault⟩⟩
  | ⟨none, failure⟩ => ⟨none, failure⟩

/-- A matcher that refers to itself. The reference fails on a text that is no shorter, so that the
recursion ends; grammars refer to themselves behind a character. -/
def recursive (m : Matcher α → Matcher α) (s : List Char) : Outcome α :=
  m (fun t => if t.length < s.length then recursive m t else ⟨none, none⟩) s
termination_by s.length

/-- The end of the text. -/
def finish : Matcher Unit := fun s =>
  if s = [] then ⟨some ((), s), none⟩ else ⟨none, some ⟨s, .unexpected⟩⟩

@[simp] theorem pure_apply (a : α) (s : List Char) : (pure a) s = ⟨some (a, s), none⟩ := rfl

theorem bind_apply (m : Matcher α) (f : α → Matcher β) (s : List Char) :
    (m >>= f) s = match m s with
      | ⟨some (a, rest), failure⟩ => (f a rest).after failure
      | ⟨none, failure⟩ => ⟨none, failure⟩ := rfl

end Matcher

@[simp] theorem furthest_none_left (b : Option Failure) : furthest none b = b := by
  cases b <;> rfl

@[simp] theorem furthest_none_right (a : Option Failure) : furthest a none = a := by
  cases a <;> rfl

end EventQuery.Grammar

namespace EventQuery

/-- Longest beginning of the remaining text that an error shows. -/
def SyntaxError.snippetLength : Nat := 24

/-- The error for a failure in a text. The character found is given for an unexpected one only. -/
def SyntaxError.ofFailure (text : List Char) (f : Grammar.Failure) : SyntaxError :=
  let before := text.take (text.length - f.rest.length)
  let line := (before.reverse.takeWhile (· ≠ '\n'))
  let bytes (s : List Char) : Nat := (String.ofList s).utf8ByteSize
  { fault := f.fault
    position := bytes before
    column := bytes line + 1
    found := if f.fault = .unexpected then f.rest.head? else none
    snippet := String.ofList (f.rest.take snippetLength) }

/-- Reads a whole text. -/
def Grammar.Matcher.parse (m : Grammar.Matcher α) (text : List Char) : Except SyntaxError α :=
  match (do let a ← m; finish; return a : Grammar.Matcher α).run text with
  | ⟨some (a, _), _⟩ => .ok a
  | ⟨none, failure⟩ => .error (.ofFailure text (failure.getD ⟨[], .unexpected⟩))

end EventQuery
