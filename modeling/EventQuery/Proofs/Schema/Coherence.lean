import EventQuery.Proofs.Backend.Preparation
import EventQuery.Proofs.Schema.Building
import EventQuery.Proofs.Schema.Effects
import EventQuery.Proofs.Schema.Places

/-!
# Coherent schemas

What the fields and the lists of a schema have to do with each other, whatever was declared and in
whatever order: with a field all paths above it are declared, and a list that has no key is a
declared field. A list with a key may be neither declared nor have its key declared; it is, once the
schema has been checked.
-/

namespace EventQuery

namespace Table

variable {κ α : Type} [DecidableEq κ]

theorem forall_mem_values_iff {t : Table κ α} {P : α → Prop} :
    (∀ a ∈ t.values, P a) ↔ ∀ k a, t.get? k = some a → P a := by
  simp only [values, List.forall_mem_map, ← mem_entries_iff, Prod.forall]

end Table

namespace EntitySchema

/-- The fields and the lists of a schema fit together. -/
structure IsCoherent (entity : String) (s : EntitySchema) : Prop where
  name : s.name = entity
  static : s.dynamicType = fun _ => none
  field : ∀ p, s.fields.contains p = true → Registry.IsPlace entity p
  list : ∀ p, s.lists.contains p = true → Registry.IsPlace entity p
  above : ∀ p q, s.fields.contains p = true → q.IsAbove p → s.fields.contains q = true
  unkeyed : ∀ p spec, s.lists.get? p = some spec → spec.key = none → s.fields.contains p = true

/-- Each list key is a declared field. -/
def KeysDeclared (s : EntitySchema) : Prop :=
  ∀ p spec key, s.lists.get? p = some spec → spec.key = some key →
    s.fields.contains (p.child key) = true

/-- Each list key is a field that was declared to be one. -/
def KeysMarked (s : EntitySchema) : Prop :=
  ∀ p spec key, s.lists.get? p = some spec → spec.key = some key →
    ∃ f, s.fields.get? (p.child key) = some f ∧ f.isKey = true

variable {entity : String} {s s' : EntitySchema} {p : Path}

/-! ## Declarations keep schemas coherent -/

theorem isCoherent_empty (entity : String) : (empty entity).IsCoherent entity :=
  ⟨rfl, rfl, nofun, nofun, nofun, nofun⟩

theorem IsCoherent.declareField (h : s.IsCoherent entity) (place : Registry.IsPlace entity p)
    (f : Field) : (s.declareField p f).IsCoherent entity where
  name := (s.name_declareField p f).trans h.name
  static := (s.dynamicType_declareField p f).trans h.static
  field q hq := by
    rcases (s.contains_declareField p q f).1 hq with hold | rfl | habove
    · exact h.field q hold
    · exact place
    · exact place.of_isAbove habove
  list q hq := by
    obtain ⟨spec, hspec⟩ := Table.contains_iff.1 hq
    rw [lists_declareField] at hspec
    split at hspec
    · rename_i hparent
      exact place.of_parent? hparent
    · exact h.list q (Table.contains_iff.2 ⟨spec, hspec⟩)
  above q r hq hr := by
    rw [contains_declareField] at hq ⊢
    rcases hq with hold | rfl | habove
    · exact Or.inl (h.above q r hold hr)
    · exact Or.inr (Or.inr hr)
    · exact Or.inr (Or.inr (hr.trans habove))
  unkeyed q spec hspec hkey := by
    rw [contains_declareField]
    rw [lists_declareField] at hspec
    split at hspec
    · rename_i hparent
      exact Or.inr (Or.inr (Path.isAbove_of_parent? hparent))
    · exact Or.inl (h.unkeyed q spec hspec hkey)

/-- A list may be changed where it is a place, and where it is declared if that leaves it without a
key. -/
theorem IsCoherent.alterList (h : s.IsCoherent entity) (place : Registry.IsPlace entity p)
    {f : Option ListSpec → ListSpec}
    (declared : (f (s.lists.get? p)).key = none → s.fields.contains p = true) :
    IsCoherent entity { s with lists := s.lists.alter p f } where
  name := h.name
  static := h.static
  field := h.field
  list q hq := by
    obtain ⟨spec, hspec⟩ := Table.contains_iff.1 hq
    rw [Table.get?_alter] at hspec
    split at hspec
    · rename_i heq
      exact heq ▸ place
    · exact h.list q (Table.contains_iff.2 ⟨spec, hspec⟩)
  above := h.above
  unkeyed q spec hspec hkey := by
    rw [Table.get?_alter] at hspec
    split at hspec
    · rename_i heq
      cases hspec
      exact heq ▸ declared hkey
    · exact h.unkeyed q spec hspec hkey

theorem IsCoherent.declareList (h : s.IsCoherent entity) (place : Registry.IsPlace entity p)
    (default : ListEnd) : (s.declareList p default).IsCoherent entity := by
  unfold EntitySchema.declareList
  split
  · rename_i hp
    exact h.alterList place fun _ => hp
  · refine (h.declareField place .container).alterList place fun _ => ?_
    exact (s.contains_declareField p p .container).2 (Or.inr (Or.inl rfl))

theorem IsCoherent.setListKey (h : s.IsCoherent entity) (place : Registry.IsPlace entity p)
    (key : String) : (s.setListKey p key).IsCoherent entity :=
  h.alterList place nofun

theorem IsCoherent.modifyField? (h : s.IsCoherent entity) {f : Field → Field}
    (hs' : s.modifyField? p f = some s') : s'.IsCoherent entity := by
  have hcontains := contains_modifyField? hs'
  obtain ⟨g, -, rfl⟩ := eq_of_modifyField? hs'
  exact
    { name := h.name
      static := h.static
      field := fun q hq => h.field q (hcontains q ▸ hq)
      list := h.list
      above := fun q r hq hr => (hcontains r).trans (h.above q r (hcontains q ▸ hq) hr)
      unkeyed := fun q spec hspec hkey => (hcontains q).trans (h.unkeyed q spec hspec hkey) }

theorem IsCoherent.declareExpansion (h : s.IsCoherent entity) (field : String) (e : Expansion) :
    IsCoherent entity { s with expansions := s.expansions.insert field e } :=
  ⟨h.name, h.static, h.field, h.list, h.above, h.unkeyed⟩

theorem IsCoherent.setTimeField (h : s.IsCoherent entity) (p : Path) :
    IsCoherent entity { s with timeField := some p } :=
  ⟨h.name, h.static, h.field, h.list, h.above, h.unkeyed⟩

/-! ## Keys that are marked -/

/-- A key that was set by declaring a field is given up when the field is declared again. -/
theorem KeysMarked.declareField (h : s.KeysMarked) (canonical : p.isCanonical = true) (f : Field) :
    (s.declareField p f).KeysMarked := by
  intro q spec key hspec hkey
  rw [lists_declareField] at hspec
  rw [fields_declareField]
  split at hspec
  · rename_i hparent
    have hp : p = q.child p.name := Path.eq_child_of_parent? canonical hparent
    cases hisKey : f.isKey with
    | true =>
        rw [hisKey] at hspec
        cases hspec
        cases hkey
        exact ⟨f, if_pos hp.symm, hisKey⟩
    | false =>
        rw [hisKey] at hspec
        obtain ⟨old, hold, rfl⟩ := Option.map_eq_some_iff.1 hspec
        split at hkey
        · cases hkey
        · rename_i hother
          obtain ⟨g, hg, hgkey⟩ := h q old key hold hkey
          have hne : q.child key ≠ p := by
            intro heq
            rw [← heq, Path.name_child] at hother
            exact hother hkey
          exact ⟨g, by rw [if_neg hne, hg, Option.some_or], hgkey⟩
  · rename_i hparent
    obtain ⟨g, hg, hgkey⟩ := h q spec key hspec hkey
    have hne : q.child key ≠ p := by
      rintro rfl
      exact hparent (Path.parent?_child q key)
    exact ⟨g, by rw [if_neg hne, hg, Option.some_or], hgkey⟩

theorem KeysMarked.declareList (h : s.KeysMarked) (canonical : p.isCanonical = true)
    (default : ListEnd) : (s.declareList p default).KeysMarked := by
  unfold EntitySchema.declareList
  generalize hs' : (if s.fields.contains p = true then s else s.declareField p .container) = s'
  have hs' : s'.KeysMarked := by
    subst hs'
    split
    · exact h
    · exact h.declareField canonical _
  intro q spec key hspec hkey
  change (s'.lists.alter p _).get? q = some spec at hspec
  rw [Table.get?_alter] at hspec
  split at hspec
  · rename_i heq
    cases hspec
    cases hold : s'.lists.get? p with
    | none =>
        rw [hold] at hkey
        cases hkey
    | some old =>
        rw [hold] at hkey
        exact heq ▸ hs' p old key hold hkey
  · exact hs' q spec key hspec hkey

theorem KeysMarked.modifyField? (h : s.KeysMarked) {f : Field → Field}
    (same : ∀ g, (f g).isKey = g.isKey) (hs' : s.modifyField? p f = some s') : s'.KeysMarked := by
  obtain ⟨g, hg, rfl⟩ := eq_of_modifyField? hs'
  intro q spec key hspec hkey
  obtain ⟨g', hg', hisKey⟩ := h q spec key hspec hkey
  change ∃ f', (s.fields.insert p (f g)).get? (q.child key) = some f' ∧ _
  rw [Table.get?_insert]
  split
  · rename_i heq
    rw [heq, hg] at hg'
    cases hg'
    exact ⟨f g, rfl, (same g).trans hisKey⟩
  · exact ⟨g', hg', hisKey⟩

/-! ## Checked schemas -/

theorem checkKeys_eq_ok_iff : s.checkKeys = .ok () ↔ s.KeysDeclared := by
  rw [checkKeys, forM_eq_ok_iff]
  constructor
  · intro h p spec key hspec hkey
    have hentry := h (p, spec) ((s.lists.mem_entries_iff p spec).2 hspec)
    simp only [hkey] at hentry
    by_contra hundeclared
    rw [if_neg hundeclared] at hentry
    cases hentry
  · rintro h ⟨p, spec⟩ hmem
    cases hkey : spec.key with
    | none => simp [hkey]
    | some key =>
        simp only [hkey]
        rw [if_pos (h p spec key ((s.lists.mem_entries_iff p spec).1 hmem) hkey)]

/-- Every list key, every target of an expansion and the time field are known. -/
theorem check_eq_ok_iff :
    s.check = .ok () ↔ s.KeysDeclared ∧
      (∀ field e, s.expansions.get? field = some e → ∀ q ∈ e.targets, ∃ f, s.resolve q = .ok f) ∧
      ∀ q, s.timeField = some q → ∃ f, s.resolve q = .ok f := by
  have htime : s.timeField.forM (fun q => do let _ ← s.resolve q) = .ok () ↔
      ∀ q, s.timeField = some q → ∃ f, s.resolve q = .ok f := by
    cases s.timeField with
    | none => exact ⟨fun _ => nofun, fun _ => rfl⟩
    | some q =>
        refine discard_eq_ok_iff.trans ⟨fun h q' hq' => ?_, fun h => h q rfl⟩
        cases hq'
        exact h
  rw [check, bind_unit_eq_ok_iff, bind_unit_eq_ok_iff, checkKeys_eq_ok_iff, forM_eq_ok_iff,
    Table.forall_mem_values_iff, htime]
  simp only [forM_eq_ok_iff, discard_eq_ok_iff]

/-- A check that finds a key undeclared finds it on a list. -/
theorem exists_of_check_eq_undeclaredKey {container key : String}
    (h : s.check = .error (.undeclaredKey container key)) :
    ∃ p spec, s.lists.get? p = some spec ∧ spec.key = some key ∧
      s.fields.contains (p.child key) = false ∧ (p.qualify s.name).text = container := by
  have hknown : ∀ q : Path, (do let _ ← s.resolve q : Except QueryError Unit) ≠
      .error (.undeclaredKey container key) := by
    intro q
    unfold resolve
    cases s.field? q <;> nofun
  have hkeys : s.checkKeys = .error (.undeclaredKey container key) := by
    -- what is checked after the keys is that fields are known
    rcases bind_eq_error_iff.1 h with hkeys | ⟨-, -, h⟩
    · exact hkeys
    rcases bind_eq_error_iff.1 h with h | ⟨-, -, h⟩
    · obtain ⟨e, -, h⟩ := exists_of_forM_eq_error h
      obtain ⟨q, -, h⟩ := exists_of_forM_eq_error h
      exact absurd h (hknown q)
    · cases htime : s.timeField with
      | none =>
          rw [htime] at h
          cases h
      | some q =>
          rw [htime] at h
          exact absurd h (hknown q)
  obtain ⟨⟨p, spec⟩, hmem, hentry⟩ := exists_of_forM_eq_error hkeys
  cases hkey : spec.key with
  | none =>
      simp only [hkey] at hentry
      cases hentry
  | some name =>
      simp only [hkey] at hentry
      split at hentry
      · cases hentry
      · rename_i hundeclared
        cases hentry
        exact ⟨p, spec, (s.lists.mem_entries_iff p spec).1 hmem, hkey,
          Bool.eq_false_iff.2 hundeclared, rfl⟩

/-- In a checked schema every list is a declared field. -/
theorem IsCoherent.contains_of_list (h : s.IsCoherent entity) (declared : s.KeysDeclared)
    (hp : s.lists.contains p = true) : s.fields.contains p = true := by
  obtain ⟨spec, hspec⟩ := Table.contains_iff.1 hp
  cases hkey : spec.key with
  | none => exact h.unkeyed p spec hspec hkey
  | some key => exact h.above _ p (declared p spec key hspec hkey) (p.isAbove_child key)

/-- The key of a list in a checked schema is declared. -/
theorem contains_of_keyOf? (declared : s.KeysDeclared) {container key : Path}
    (h : s.keyOf? container = some key) : s.fields.contains key = true := by
  obtain ⟨name, hname, rfl⟩ := Option.map_eq_some_iff.1 h
  obtain ⟨spec, hspec, hkey⟩ := Option.bind_eq_some_iff.1 hname
  exact declared container spec name hspec hkey

theorem indexationKey_eq_ok_iff {key : Path} :
    s.indexationKey p = .ok key ↔
      (s.keyOf? p.canonical).or (p.canonical.parent?.bind s.keyOf?) = some key := by
  unfold indexationKey
  cases (s.keyOf? p.canonical).or (p.canonical.parent?.bind s.keyOf?) <;> simp

theorem exists_keyOf?_of_indexationKey {key : Path} (h : s.indexationKey p = .ok key) :
    ∃ container, s.keyOf? container = some key := by
  rcases Option.or_eq_some_iff.1 (indexationKey_eq_ok_iff.1 h) with h | ⟨-, h⟩
  · exact ⟨_, h⟩
  · obtain ⟨parent, -, h⟩ := Option.bind_eq_some_iff.1 h
    exact ⟨parent, h⟩

end EntitySchema

namespace Registry

variable {r : Registry} {entity : String} {s : EntitySchema} {p : Path}

theorem check_eq_ok_iff :
    r.check = .ok () ↔ ∀ entity s, r.entities.get? entity = some s → s.check = .ok () := by
  rw [check, forM_eq_ok_iff, Table.forall_mem_values_iff]

/-- A declared field is found under its full path. -/
theorem fieldAt_text (place : IsPlace entity p) (hs : r.schema entity = .ok s) {f : Field}
    (hf : s.fields.get? p = some f) : r.fieldAt (p.qualify entity).text = .ok f := by
  have hlocate : r.locate (p.qualify entity).text = .ok (entity, s, p) :=
    locate_eq_ok_iff.2 ⟨_, place.parse_text, p.splitEntity?_qualify entity, hs⟩
  have hfield : s.field? p = some f := by rw [EntitySchema.field?, place.canonical_eq, hf]
  rw [fieldAt, hlocate]
  simp only [bind, Except.bind, hfield]
  rfl

end Registry

namespace SchemaConfig

/-- The entries of a definition keep schemas coherent. -/
theorem keeps_isCoherent (c : SchemaConfig) : c.Keeps EntitySchema.IsCoherent where
  empty := EntitySchema.isCoherent_empty
  field _ _ _ _ _ _ hp _ hs := hs.declareField (Registry.isPlace_of_splitPath hp) _
  operators _ _ _ _ _ _ _ _ _ _ _ hs hs' := hs.modifyField? hs'
  suggestions _ _ _ _ _ _ _ _ _ _ _ hs hs' := hs.modifyField? hs'
  list _ _ _ _ _ _ hp _ hs := hs.declareList (Registry.isPlace_of_splitPath hp) _
  key _ _ _ _ _ _ _ _ hp _ hs := hs.setListKey (Registry.isPlace_of_splitPath hp) _
  expansion _ _ _ _ _ _ _ hs := hs.declareExpansion _ _
  timeField _ _ _ _ _ _ _ _ hs := hs.setTimeField _

end SchemaConfig

end EventQuery
