import EventQuery.Pipeline.Expansion
import EventQuery.Pipeline.Validation

/-!
# Pipelines

What happens to a criterion between its text and a backend: passes over the criterion, one after the
other, until one fails. The standard pipeline expands logical fields and then validates.
-/

namespace EventQuery

structure CompileOptions where
  /-- Operators that a field does not accept are replaced instead of refused. -/
  lenient : Bool
  deriving DecidableEq, Repr

structure Pass where
  name : String
  run : EntitySchema → Criterion → Except QueryError Criterion

namespace Pass

def expand (lenient : Bool) : Pass where
  name := "translate"
  run s c := .ok (s.expand lenient c)

def validate : Pass where
  name := "validate"
  run s c := do
    s.validate c
    return c

end Pass

namespace Pipeline

def standard (options : CompileOptions) : List Pass := [.expand options.lenient, .validate]

def run (passes : List Pass) (s : EntitySchema) (c : Criterion) : Except QueryError Criterion :=
  passes.foldlM (fun c pass => pass.run s c) c

end Pipeline

end EventQuery
