import EventQuery.Proofs.Schema.Building

/-!
# The operators that fields accept

In a registry built from a definition, a field accepts the operators of its type unless the
definition lists others for it. A list may name anything that has a token, the connectives too,
although no type comes with them: a field accepts a connective only where the definition says so.
-/

namespace EventQuery

/-- The definition lists the operator for the field at a canonical path. -/
def SchemaConfig.Lists (c : SchemaConfig) (entity : String) (p : Path) (o : Operator) : Prop :=
  ∃ e ∈ c.entities, ∃ f ∈ e.fields, ∃ operators, f.operators = some operators ∧ o ∈ operators ∧
    e.LeadsTo f.path entity p

theorem ValueType.exists_comparison_of_mem_defaultOperators {t : ValueType} {o : Operator}
    (h : o ∈ t.defaultOperators) : ∃ k, o = .comparison k := by
  cases o with
  | comparison k => exact ⟨k, rfl⟩
  | connective j =>
      exfalso
      cases t <;> simp [defaultOperators, Operator.equal, Operator.notEqual] at h

/-- The fields of a schema are those declared, and the definition accounts for their operators. -/
structure SchemaConfig.AccountsFor (c : SchemaConfig) (entity : String) (s : EntitySchema) :
    Prop where
  static : s.dynamicType = fun _ => none
  operators : ∀ p f, s.fields.get? p = some f →
    ∀ o ∈ f.operators, o ∈ f.type.defaultOperators ∨ c.Lists entity p o

namespace SchemaConfig.AccountsFor

variable {c : SchemaConfig} {entity : String} {s s' : EntitySchema}

/-- Only the fields and the types of undeclared fields matter. -/
theorem of_fields_eq (h : c.AccountsFor entity s) (static : s'.dynamicType = s.dynamicType)
    (fields : s'.fields = s.fields) : c.AccountsFor entity s' where
  static := static.trans h.static
  operators p f hf := h.operators p f (fields ▸ hf)

theorem of_modifyField? {p : Path} {f : Field → Field} (h : c.AccountsFor entity s)
    (modified : ∀ g, s.fields.get? p = some g →
      ∀ o ∈ (f g).operators, o ∈ (f g).type.defaultOperators ∨ c.Lists entity p o)
    (hs' : s.modifyField? p f = some s') : c.AccountsFor entity s' := by
  obtain ⟨g, hg, rfl⟩ := EntitySchema.eq_of_modifyField? hs'
  refine ⟨h.static, fun q g' hq => ?_⟩
  change (s.fields.insert p (f g)).get? q = some g' at hq
  rw [Table.get?_insert] at hq
  split at hq
  · rename_i heq
    cases hq
    exact heq ▸ modified g hg
  · exact h.operators q g' hq

theorem keeps (c : SchemaConfig) : c.Keeps c.AccountsFor where
  empty _ := ⟨rfl, nofun⟩
  field _ _ f _ _ p _ s hs := by
    refine ⟨(congrArg (·.dynamicType) (s.declareField_eq p _)).trans hs.static, fun q g hg => ?_⟩
    rcases EntitySchema.get?_fields_declareField hg with ⟨-, rfl⟩ | hg | rfl
    · exact fun o ho => Or.inl ho
    · exact hs.operators q g hg
    · exact fun o ho => Or.inl ho
  operators e he f hf operators hoperators _ _ leads _ _ hs hs' :=
    hs.of_modifyField? (fun _ _ _ ho => Or.inr ⟨e, he, f, hf, operators, hoperators, ho, leads⟩) hs'
  suggestions _ _ _ _ _ _ _ p _ _ _ hs hs' := by
    refine hs.of_modifyField? ?_ hs'
    exact fun g hg => hs.operators p g hg
  list _ _ l _ _ p _ s hs := by
    refine ⟨(congrArg (·.dynamicType) (s.declareList_eq p _)).trans hs.static, fun q g hg => ?_⟩
    rcases EntitySchema.get?_fields_declareList hg with hg | rfl
    · exact hs.operators q g hg
    · exact fun o ho => Or.inl ho
  key _ _ _ _ _ _ _ _ _ _ hs := hs.of_fields_eq rfl rfl
  expansion _ _ _ _ _ _ _ hs := hs.of_fields_eq rfl rfl
  timeField _ _ _ _ _ _ _ _ hs := hs.of_fields_eq rfl rfl

theorem of_build {r : Registry} (built : c.build = .ok r) (hs : r.schema entity = .ok s) :
    c.AccountsFor entity s := by
  refine (keeps c).of_build built entity s ?_
  unfold Registry.schema at hs
  split at hs
  · rename_i hget
    cases hs
    exact hget
  · cases hs

/-- Every field is a declared one. -/
theorem get?_of_field? (h : c.AccountsFor entity s) {p : Path} {f : Field}
    (hf : s.field? p = some f) : s.fields.get? p.canonical = some f := by
  rw [EntitySchema.field?, h.static] at hf
  split at hf
  · rename_i hget
    exact hget.trans hf
  · cases hf

/-- Connectives are accepted only where the definition lists them. -/
theorem lists_of_allows (h : c.AccountsFor entity s) {p : Path} {f : Field} {j : Connective}
    (hf : s.fields.get? p = some f) (allows : f.allows (.connective j) = true) :
    c.Lists entity p (.connective j) := by
  rcases h.operators p f hf _ (List.contains_iff_mem.1 allows) with hdefault | hlists
  · obtain ⟨k, hk⟩ := ValueType.exists_comparison_of_mem_defaultOperators hdefault
    cases hk
  · exact hlists

end SchemaConfig.AccountsFor

end EventQuery
