import EventQuery.Schema.Config
import EventQuery.Proofs.Schema.Effects

/-!
# What is kept while a registry is built

A definition is turned into a registry by declarations, each of which changes the schema of one
entity type. What every declaration of a definition keeps therefore holds of every schema in the
registry built from it. `SchemaConfig.Keeps` lists the declarations with what is known where they
are made; `SchemaConfig.Keeps.of_build` is the induction over all of them.
-/

namespace EventQuery

/-! ## What a declaration changes -/

namespace EntitySchema

variable (s : EntitySchema)

theorem declareAncestors_eq (p : Path) :
    s.declareAncestors p = { s with fields := (s.declareAncestors p).fields } := by
  unfold declareAncestors
  split <;> rfl

theorem setKeyRole_eq (p : Path) (isKey : Bool) :
    s.setKeyRole p isKey = { s with lists := (s.setKeyRole p isKey).lists } := by
  unfold setKeyRole
  split
  · rfl
  · split
    · rfl
    · split
      · split <;> rfl
      · rfl

theorem declareField_eq (p : Path) (f : Field) :
    s.declareField p f =
      { s with
        fields := (s.declareAncestors p).fields.insert p f
        lists := (s.declareField p f).lists } := by
  have hkey := (s.declareAncestors p).setKeyRole_eq p f.isKey
  have hancestors := s.declareAncestors_eq p
  unfold declareField
  rw [hkey, hancestors]

@[simp] theorem name_declareField (p : Path) (f : Field) : (s.declareField p f).name = s.name := by
  rw [declareField_eq]

@[simp] theorem expansions_declareField (p : Path) (f : Field) :
    (s.declareField p f).expansions = s.expansions := by
  rw [declareField_eq]

@[simp] theorem timeField_declareField (p : Path) (f : Field) :
    (s.declareField p f).timeField = s.timeField := by
  rw [declareField_eq]

@[simp] theorem dynamicType_declareField (p : Path) (f : Field) :
    (s.declareField p f).dynamicType = s.dynamicType := by
  rw [declareField_eq]

theorem declareList_eq (p : Path) (default : ListEnd) :
    s.declareList p default =
      { s with
        fields := if s.fields.contains p then s.fields else (s.declareField p .container).fields
        lists := (s.declareList p default).lists } := by
  unfold declareList
  split
  · rfl
  · rw [declareField_eq]

variable {s}

theorem eq_of_modifyField? {s' : EntitySchema} {p : Path} {f : Field → Field}
    (h : s.modifyField? p f = some s') :
    ∃ g, s.fields.get? p = some g ∧ s' = { s with fields := s.fields.insert p (f g) } := by
  obtain ⟨g, hg, rfl⟩ := Option.map_eq_some_iff.1 h
  exact ⟨g, hg, rfl⟩

theorem get?_fields_declareField {p q : Path} {f g : Field}
    (h : (s.declareField p f).fields.get? q = some g) :
    q = p ∧ g = f ∨ s.fields.get? q = some g ∨ g = .container := by
  rw [fields_declareField] at h
  split at h
  · rename_i hq
    cases h
    exact Or.inl ⟨hq, rfl⟩
  · rcases Option.or_eq_some_iff.1 h with h | ⟨-, h⟩
    · exact Or.inr (Or.inl h)
    · obtain ⟨-, heq⟩ := Option.ite_none_right_eq_some.1 h
      exact Or.inr (Or.inr (Option.some.inj heq).symm)

theorem get?_fields_declareList {p q : Path} {default : ListEnd} {g : Field}
    (h : (s.declareList p default).fields.get? q = some g) :
    s.fields.get? q = some g ∨ g = .container := by
  rw [fields_declareList] at h
  split at h
  · exact Or.inl h
  · rcases get?_fields_declareField h with ⟨-, hg⟩ | h
    · exact Or.inr hg
    · exact h

end EntitySchema

/-! ## What all declarations keep -/

/-- Every schema of the registry has the property. -/
def Registry.AllSchemas (P : String → EntitySchema → Prop) (r : Registry) : Prop :=
  ∀ entity s, r.entities.get? entity = some s → P entity s

/-- A path of an entity block leads to `p` in the schema of `entity`. -/
def EntityConfig.LeadsTo (e : EntityConfig) (path entity : String) (p : Path) : Prop :=
  Registry.splitPath (e.qualify path) = .ok (entity, p)

/-- A property of schemas that new ones have and every declaration of the definition keeps. -/
structure SchemaConfig.Keeps (c : SchemaConfig) (P : String → EntitySchema → Prop) : Prop where
  empty : ∀ entity, P entity (.empty entity)
  field : ∀ e ∈ c.entities, ∀ f ∈ e.fields, ∀ entity p, e.LeadsTo f.path entity p →
    ∀ s, P entity s → P entity (s.declareField p
      { Field.ofType f.type with isPublic := f.isPublic, isKey := f.isKey })
  operators : ∀ e ∈ c.entities, ∀ f ∈ e.fields, ∀ operators, f.operators = some operators →
    ∀ entity p, e.LeadsTo f.path entity p →
    ∀ s s', P entity s → s.modifyField? p (fun f => { f with operators }) = some s' → P entity s'
  suggestions : ∀ e ∈ c.entities, ∀ f ∈ e.fields, ∀ suggestions, f.suggestions = some suggestions →
    ∀ entity p, e.LeadsTo f.path entity p →
    ∀ s s', P entity s →
      s.modifyField? p (fun f => { f with suggestions := some suggestions }) = some s' →
      P entity s'
  list : ∀ e ∈ c.entities, ∀ l ∈ e.lists, ∀ entity p, e.LeadsTo l.path entity p →
    ∀ s, P entity s → P entity (s.declareList p l.default)
  key : ∀ e ∈ c.entities, ∀ l ∈ e.lists, ∀ key, l.key = some key →
    ∀ entity p, e.LeadsTo l.path entity p → ∀ s, P entity s → P entity (s.setListKey p key)
  expansion : ∀ e ∈ c.entities, ∀ x ∈ e.expansions, ∀ targets,
    x.paths.mapM Path.parse = .ok targets → ∀ s, P e.name s →
    P e.name { s with expansions := s.expansions.insert x.field (.ofTargets targets) }
  timeField : ∀ e ∈ c.entities, ∀ path, e.timeField = some path →
    ∀ entity p, e.LeadsTo path entity p → ∀ s, P entity s → P entity { s with timeField := some p }

namespace Registry

variable {P : String → EntitySchema → Prop} {r r' : Registry}

theorem allSchemas_empty : (∅ : Registry).AllSchemas P := nofun

theorem AllSchemas.insert (h : r.AllSchemas P) {entity : String} {s : EntitySchema}
    (hs : P entity s) : AllSchemas P ⟨r.entities.insert entity s⟩ := by
  intro entity' s' hget
  rw [show Registry.entities ⟨r.entities.insert entity s⟩ = r.entities.insert entity s from rfl,
    Table.get?_insert] at hget
  split at hget
  · rename_i heq
    cases hget
    exact heq ▸ hs
  · exact h entity' s' hget

theorem AllSchemas.modifyEntity (h : r.AllSchemas P) {entity : String}
    {f : EntitySchema → EntitySchema} (empty : P entity (.empty entity))
    (hf : ∀ s, P entity s → P entity (f s)) : (r.modifyEntity entity f).AllSchemas P := by
  refine h.insert (hf _ ?_)
  cases hget : r.entities.get? entity with
  | none => exact empty
  | some s => exact h entity s hget

theorem AllSchemas.declareAt (h : r.AllSchemas P) {text : String}
    {f : EntitySchema → Path → EntitySchema} (empty : ∀ entity, P entity (.empty entity))
    (hf : ∀ entity p, splitPath text = .ok (entity, p) → ∀ s, P entity s → P entity (f s p))
    (hr : r.declareAt text f = .ok r') : r'.AllSchemas P := by
  obtain ⟨⟨entity, p⟩, hsplit, hr⟩ := bind_eq_ok_iff.1 hr
  cases hr
  exact h.modifyEntity (empty entity) (hf entity p hsplit)

theorem AllSchemas.modifyFieldAt (h : r.AllSchemas P) {text : String} {f : Field → Field}
    (hf : ∀ entity p, splitPath text = .ok (entity, p) →
      ∀ s s', P entity s → s.modifyField? p f = some s' → P entity s')
    (hr : r.modifyFieldAt text f = .ok r') : r'.AllSchemas P := by
  obtain ⟨entity, p, s, s', hsplit, hget, hs', rfl⟩ := modifyFieldAt_eq_ok_iff.1 hr
  exact h.insert (hf entity p hsplit s s' (h entity s hget) hs')

end Registry

namespace SchemaConfig.Keeps

variable {c : SchemaConfig} {P : String → EntitySchema → Prop} {e : EntityConfig}
variable {r r' : Registry}

theorem of_declareField (h : c.Keeps P) (he : e ∈ c.entities) {f : FieldConfig} (hf : f ∈ e.fields)
    (hr : r.AllSchemas P) (hr' : e.declareField r f = .ok r') : r'.AllSchemas P := by
  obtain ⟨declared, hdeclared, hr'⟩ := bind_eq_ok_iff.1 hr'
  have hdeclared : declared.AllSchemas P := hr.declareAt h.empty (h.field e he f hf) hdeclared
  -- what remains is the suggestions, given the registry the operators leave
  obtain ⟨restricted, hrestricted, hr'⟩ : ∃ q : Registry, q.AllSchemas P ∧
      (f.suggestions.elim (pure q) (q.setSuggestions (e.qualify f.path))) = .ok r' := by
    cases hoperators : f.operators with
    | none =>
        simp only [hoperators, pure_bind] at hr'
        refine ⟨declared, hdeclared, ?_⟩
        cases hsuggestions : f.suggestions <;> (simp only [hsuggestions] at hr'; exact hr')
    | some operators =>
        simp only [hoperators] at hr'
        obtain ⟨q, hq, hr'⟩ := bind_eq_ok_iff.1 hr'
        refine ⟨q, hdeclared.modifyFieldAt (h.operators e he f hf operators hoperators) hq, ?_⟩
        cases hsuggestions : f.suggestions <;> (simp only [hsuggestions] at hr'; exact hr')
  cases hsuggestions : f.suggestions with
  | none =>
      rw [hsuggestions] at hr'
      cases hr'
      exact hrestricted
  | some suggestions =>
      rw [hsuggestions] at hr'
      exact hrestricted.modifyFieldAt (h.suggestions e he f hf suggestions hsuggestions) hr'

theorem of_declareList (h : c.Keeps P) (he : e ∈ c.entities) {l : ListConfig} (hl : l ∈ e.lists)
    (hr : r.AllSchemas P) (hr' : e.declareList r l = .ok r') : r'.AllSchemas P := by
  obtain ⟨declared, hdeclared, hr'⟩ := bind_eq_ok_iff.1 hr'
  have hdeclared : declared.AllSchemas P := hr.declareAt h.empty (h.list e he l hl) hdeclared
  cases hkey : l.key with
  | none =>
      simp only [hkey] at hr'
      cases hr'
      exact hdeclared
  | some key =>
      simp only [hkey] at hr'
      exact hdeclared.declareAt h.empty (h.key e he l hl key hkey) hr'

theorem of_declareExpansion (h : c.Keeps P) (he : e ∈ c.entities) {x : ExpansionConfig}
    (hx : x ∈ e.expansions) (hr : r.AllSchemas P) (hr' : e.declareExpansion r x = .ok r') :
    r'.AllSchemas P := by
  obtain ⟨targets, htargets, hr'⟩ := bind_eq_ok_iff.1 hr'
  cases hr'
  exact hr.modifyEntity (h.empty e.name) (h.expansion e he x hx targets htargets)

theorem of_apply (h : c.Keeps P) (he : e ∈ c.entities) (hr : r.AllSchemas P)
    (hr' : EntityConfig.apply r e = .ok r') : r'.AllSchemas P := by
  obtain ⟨fields, hfields, hr'⟩ := bind_eq_ok_iff.1 hr'
  obtain ⟨lists, hlists, hr'⟩ := bind_eq_ok_iff.1 hr'
  obtain ⟨expansions, hexpansions, hr'⟩ := bind_eq_ok_iff.1 hr'
  have hfields : fields.AllSchemas P :=
    foldlM_preserves (fun _ hf _ _ hr hr' => h.of_declareField he hf hr hr') hr hfields
  have hlists : lists.AllSchemas P :=
    foldlM_preserves (fun _ hl _ _ hr hr' => h.of_declareList he hl hr hr') hfields hlists
  have hexpansions : expansions.AllSchemas P :=
    foldlM_preserves (fun _ hx _ _ hr hr' => h.of_declareExpansion he hx hr hr') hlists
      hexpansions
  cases htime : e.timeField with
  | none =>
      simp only [htime] at hr'
      cases hr'
      exact hexpansions
  | some path =>
      simp only [htime] at hr'
      exact hexpansions.declareAt h.empty (h.timeField e he path htime) hr'

/-- What all declarations keep holds of every schema that is built. -/
theorem of_build (h : c.Keeps P) (built : c.build = .ok r) : r.AllSchemas P := by
  obtain ⟨declared, hdeclared, hr⟩ := bind_eq_ok_iff.1 built
  obtain ⟨-, -, hr⟩ := bind_eq_ok_iff.1 hr
  cases hr
  exact foldlM_preserves (fun _ he _ _ hr hr' => h.of_apply he hr hr') Registry.allSchemas_empty
    hdeclared

end SchemaConfig.Keeps

end EventQuery
