import EventQuery.Schema.Registry
import EventQuery.Proofs.Errors
import EventQuery.Proofs.Path.Ancestors

/-!
# What declarations do

What a schema looks up after each declaration, in terms of what it looked up before. A field is
declared together with the paths above it, and it takes or gives up the key of the list it lies in;
lists are otherwise changed only by the declarations that name them. In a registry a declaration
changes the schema of one entity type, which it may have to start.
-/

namespace EventQuery

/-- What is known of a list once a field that lies in it is declared: a key field becomes its key,
and another field is its key no longer. -/
def ListSpec.withKeyRole (name : String) (isKey : Bool) (spec : Option ListSpec) :
    Option ListSpec :=
  if isKey then some { spec.getD .unkeyed with key := some name }
  else spec.map fun x => if x.key = some name then { x with key := none } else x

namespace Table

variable {κ α : Type} [DecidableEq κ]

theorem contains_iff {t : Table κ α} {k : κ} :
    t.contains k = true ↔ ∃ a, t.get? k = some a := Option.isSome_iff_exists

theorem get?_foldl_insertIfNew (a : α) (ks : List κ) (t : Table κ α) (k : κ) :
    (ks.foldl (·.insertIfNew · a) t).get? k = (t.get? k).or (if k ∈ ks then some a else none) := by
  induction ks generalizing t with
  | nil => simp
  | cons k' ks ih =>
      rw [List.foldl_cons, ih, get?_insertIfNew, Option.or_assoc]
      by_cases hk : k = k' <;> simp [hk]

end Table

namespace EntitySchema

variable (s : EntitySchema) (p q : Path)

/-! ## Fields -/

@[simp] theorem lists_declareAncestors : (s.declareAncestors p).lists = s.lists := by
  unfold declareAncestors
  split <;> rfl

/-- Ancestors that were not declared are containers. -/
theorem fields_declareAncestors :
    (s.declareAncestors p).fields.get? q =
      (s.fields.get? q).or (if q.IsAbove p then some .container else none) := by
  unfold declareAncestors
  split
  · rename_i h
    rw [if_neg (Path.not_isAbove_of_parent?_eq_none h), Option.or_none]
  · rename_i parent h
    simp only [Table.get?_foldl_insertIfNew, Path.mem_leadingParts_parent? h]

@[simp] theorem fields_setKeyRole (isKey : Bool) : (s.setKeyRole p isKey).fields = s.fields := by
  unfold setKeyRole
  split
  · rfl
  · split
    · rfl
    · split
      · split <;> rfl
      · rfl

theorem lists_setKeyRole (isKey : Bool) :
    (s.setKeyRole p isKey).lists.get? q =
      if p.parent? = some q then ListSpec.withKeyRole p.name isKey (s.lists.get? q)
      else s.lists.get? q := by
  unfold setKeyRole
  split
  · rename_i hparent
    simp [hparent]
  · rename_i parent hparent
    simp only [hparent, Option.some.injEq, eq_comm (a := parent)]
    cases isKey with
    | true =>
        simp only [if_true, Table.get?_alter, ListSpec.withKeyRole]
        split <;> simp_all
    | false =>
        simp only [Bool.false_eq_true, if_false, ListSpec.withKeyRole]
        split
        · rename_i spec hspec
          split
          · simp only [Table.get?_insert]
            split <;> simp_all
          · split <;> simp_all
        · split <;> simp_all

theorem fields_declareField (f : Field) :
    (s.declareField p f).fields.get? q =
      if q = p then some f
      else (s.fields.get? q).or (if q.IsAbove p then some .container else none) := by
  unfold declareField
  simp only [Table.get?_insert, fields_setKeyRole, fields_declareAncestors]

theorem lists_declareField (f : Field) :
    (s.declareField p f).lists.get? q =
      if p.parent? = some q then ListSpec.withKeyRole p.name f.isKey (s.lists.get? q)
      else s.lists.get? q := by
  unfold declareField
  simp only [lists_setKeyRole, lists_declareAncestors]

/-- A field and the paths above it are declared, and all that was stays so. -/
theorem contains_declareField (f : Field) :
    (s.declareField p f).fields.contains q = true ↔
      s.fields.contains q = true ∨ q = p ∨ q.IsAbove p := by
  simp only [Table.contains, fields_declareField]
  by_cases hq : q = p
  · simp [hq]
  · by_cases habove : q.IsAbove p <;> simp [hq, habove]

/-! ## Lists -/

theorem fields_declareList (default : ListEnd) :
    (s.declareList p default).fields.get? q =
      if s.fields.contains p then s.fields.get? q
      else (s.declareField p .container).fields.get? q := by
  unfold declareList
  split <;> rfl

theorem lists_declareList (default : ListEnd) :
    (s.declareList p default).lists.get? q =
      if q = p then some { (s.lists.get? p).getD .unkeyed with default }
      else if s.fields.contains p then s.lists.get? q
      else (s.declareField p .container).lists.get? q := by
  have hself : (s.declareField p .container).lists.get? p = s.lists.get? p := by
    rw [lists_declareField, if_neg fun h => (Path.isAbove_of_parent? h).2 rfl]
  unfold declareList
  split <;> simp only [Table.get?_alter, hself]

theorem contains_declareList (default : ListEnd) :
    (s.declareList p default).fields.contains q = true ↔
      s.fields.contains q = true ∨ s.fields.contains p = false ∧ (q = p ∨ q.IsAbove p) := by
  unfold declareList
  split
  · rename_i hp
    simp [hp]
  · rename_i hp
    simp [hp, contains_declareField]

theorem lists_setListKey (key : String) :
    (s.setListKey p key).lists.get? q =
      if q = p then some { (s.lists.get? p).getD .unkeyed with key := some key }
      else s.lists.get? q :=
  s.lists.get?_alter p q _

theorem contains_modifyField? {s s' : EntitySchema} {p : Path} {f : Field → Field}
    (h : s.modifyField? p f = some s') (q : Path) :
    s'.fields.contains q = s.fields.contains q := by
  obtain ⟨g, hg, rfl⟩ := Option.map_eq_some_iff.1 h
  rw [Table.contains, Table.contains, Table.get?_insert]
  split
  · rename_i hq
    rw [hq, hg]
    rfl
  · rfl

end EntitySchema

/-! ## Registries -/

namespace Registry

variable {r : Registry} {x entity text : String} {p q : Path}

/-- The schema of an entity type, or the one it starts with. -/
def schemaOf (r : Registry) (entity : String) : EntitySchema :=
  (r.entities.get? entity).getD (.empty entity)

theorem get?_modifyEntity (r : Registry) (x entity : String) (f : EntitySchema → EntitySchema) :
    (r.modifyEntity x f).entities.get? entity =
      if entity = x then some (f (r.schemaOf x)) else r.entities.get? entity :=
  r.entities.get?_alter x entity _

theorem schemaOf_modifyEntity (r : Registry) (x entity : String) (f : EntitySchema → EntitySchema) :
    (r.modifyEntity x f).schemaOf entity =
      if entity = x then f (r.schemaOf entity) else r.schemaOf entity := by
  unfold schemaOf
  rw [get?_modifyEntity]
  split
  · rename_i h
    subst h
    rfl
  · rfl

theorem declareAt_of_splitPath {f : EntitySchema → Path → EntitySchema}
    (h : splitPath text = .ok (x, q)) :
    r.declareAt text f = .ok (r.modifyEntity x (f · q)) := by
  rw [declareAt, h]
  rfl

theorem declareAt_of_error {f : EntitySchema → Path → EntitySchema} {e : QueryError}
    (h : splitPath text = .error e) : r.declareAt text f = .error e := by
  rw [declareAt, h]
  rfl

theorem modifyFieldAt_eq_ok_iff {r' : Registry} {f : Field → Field} :
    r.modifyFieldAt text f = .ok r' ↔
      ∃ x q s s', splitPath text = .ok (x, q) ∧ r.entities.get? x = some s ∧
        s.modifyField? q f = some s' ∧ r' = ⟨r.entities.insert x s'⟩ := by
  rw [modifyFieldAt, bind_eq_ok_iff]
  constructor
  · rintro ⟨⟨x, q⟩, hp, h⟩
    cases hmodified : (r.entities.get? x).bind (·.modifyField? q f) with
    | none =>
        simp only [hmodified] at h
        cases h
    | some s' =>
        simp only [hmodified] at h
        cases h
        obtain ⟨s, hs, hs'⟩ := Option.bind_eq_some_iff.1 hmodified
        exact ⟨x, q, s, s', hp, hs, hs', rfl⟩
  · rintro ⟨x, q, s, s', hp, hs, hs', rfl⟩
    refine ⟨(x, q), hp, ?_⟩
    simp only [hs, Option.bind_some, hs']
    rfl

end Registry

end EventQuery
