import EventQuery.Proofs.Schema.History
import Mathlib.Data.List.Induction

/-!
# When the key of a list is kept

The key of a list may be set before its field is declared. Whether it is still the key at the end is
decided where the field is declared: behind the declaration the key can be set for good, but a
declaration behind the key ends it without an error, unless it is one of a list and finds the field
declared with a path below it.
-/

namespace EventQuery

namespace Declaration

/-- The declaration names the place as a field or a list. -/
def Declares (d : Declaration) (entity : String) (p : Path) : Prop :=
  match d with
  | field path _ _ _ => Registry.splitPath path = .ok (entity, p)
  | list path _ => Registry.splitPath path = .ok (entity, p)
  | _ => False

/-- The declaration sets the key of the list at the place by itself. -/
def SetsKey (d : Declaration) (entity : String) (p : Path) (key : String) : Prop :=
  match d with
  | listKey path name => Registry.splitPath path = .ok (entity, p) ∧ name = key
  | _ => False

/-- The field that is declared is marked as a key. -/
def marksKey : Declaration → Bool
  | field _ _ _ isKey => isKey
  | _ => false

def isList : Declaration → Bool
  | list _ _ => true
  | _ => false

/-- The declaration has nothing to do with the child field as the key of the list: it does not
declare that field, marks no child field as a key and does not set the key. -/
structure LeavesKey (d : Declaration) (entity : String) (p : Path) (key : String) : Prop where
  field : ¬ d.Declares entity (p.child key)
  marked : d.marksKey = true → ∀ name, ¬ d.Declares entity (p.child name)
  set : ∀ name, ¬ d.SetsKey entity p name

/-- What a declaration makes of the fields and the list keys of a schema. -/
inductive Effect (d : Declaration) (entity : String) (s : EntitySchema) : EntitySchema → Prop
  | field {p : Path} {f : Field} (declares : d.Declares entity p) (single : d.isList = false)
      (marked : d.marksKey = f.isKey) : Effect d entity s (s.declareField p f)
  | list {p : Path} {default : ListEnd} (declares : d.Declares entity p) (list : d.isList = true) :
      Effect d entity s (s.declareList p default)
  | listKey {p : Path} {key : String} (sets : d.SetsKey entity p key) :
      Effect d entity s (s.setListKey p key)
  | other {s' : EntitySchema} (silent : ∀ p, ¬ d.Declares entity p)
      (fields : ∀ p, s'.fields.contains p = s.fields.contains p) (lists : s'.lists = s.lists) :
      Effect d entity s s'

variable {d : Declaration} {entity : String} {p q : Path}

theorem Declares.isPlace (h : d.Declares entity p) : Registry.IsPlace entity p := by
  cases d with
  | field path type isPublic isKey => exact Registry.isPlace_of_splitPath h
  | list path default => exact Registry.isPlace_of_splitPath h
  | _ => exact h.elim

theorem Declares.unique (h : d.Declares entity p) (h' : d.Declares entity q) : p = q := by
  cases d with
  | field path type isPublic isKey => exact (Prod.mk.inj (Except.ok.inj (h.symm.trans h'))).2
  | list path default => exact (Prod.mk.inj (Except.ok.inj (h.symm.trans h'))).2
  | _ => exact h.elim

end Declaration

namespace EntitySchema

variable (s : EntitySchema) (p q : Path)

/-- The child field that keys the list at a canonical path. -/
def listKey? (s : EntitySchema) (p : Path) : Option String := (s.lists.get? p).bind (·.key)

theorem listKey?_declareField (f : Field) :
    (s.declareField q f).listKey? p =
      if q.parent? = some p then
        if f.isKey then some q.name
        else if s.listKey? p = some q.name then none else s.listKey? p
      else s.listKey? p := by
  unfold listKey?
  rw [lists_declareField]
  split
  · cases f.isKey with
    | true => rfl
    | false =>
        cases s.lists.get? p with
        | none => rfl
        | some spec => by_cases hkey : spec.key = some q.name <;> simp [ListSpec.withKeyRole, hkey]
  · rfl

theorem listKey?_declareList (default : ListEnd) :
    (s.declareList q default).listKey? p =
      if s.fields.contains q then s.listKey? p else (s.declareField q .container).listKey? p := by
  have hunnamed : (s.declareField q .container).listKey? q = s.listKey? q := by
    rw [listKey?_declareField, if_neg fun h => (Path.isAbove_of_parent? h).2 rfl]
  have hself : ∀ spec : Option ListSpec,
      (some { spec.getD .unkeyed with default : ListSpec }).bind (·.key) = spec.bind (·.key) := by
    rintro (_ | spec) <;> rfl
  conv_lhs => unfold listKey?
  rw [lists_declareList]
  by_cases hp : p = q
  · subst hp
    rw [if_pos rfl, hself, hunnamed, ite_self]
    rfl
  · rw [if_neg hp]
    split <;> rfl

theorem listKey?_setListKey (key : String) :
    (s.setListKey q key).listKey? p = if p = q then some key else s.listKey? p := by
  unfold listKey?
  rw [lists_setListKey]
  split <;> rfl

end EntitySchema

/-! ## The effects of declarations -/

namespace Declaration

variable {d : Declaration} {entity key : String} {s s' : EntitySchema} {p : Path}

/-- Declaring a field or a list declares the paths above it, and nothing else does. -/
theorem Effect.contains_iff (h : d.Effect entity s s') (coherent : s.IsCoherent entity) :
    s'.fields.contains p = true ↔
      s.fields.contains p = true ∨ ∃ q, d.Declares entity q ∧ (p = q ∨ p.IsAbove q) := by
  cases h with
  | @field q f declares single marked =>
      rw [EntitySchema.contains_declareField]
      refine or_congr_right ⟨fun hp => ⟨q, declares, hp⟩, ?_⟩
      rintro ⟨q', declares', hp⟩
      exact declares.unique declares' ▸ hp
  | @list q default declares list =>
      rw [EntitySchema.contains_declareList]
      constructor
      · rintro (hold | ⟨-, hp⟩)
        · exact Or.inl hold
        · exact Or.inr ⟨q, declares, hp⟩
      · rintro (hold | ⟨q', declares', hp⟩)
        · exact Or.inl hold
        · obtain rfl := declares.unique declares'
          by_cases hq : s.fields.contains q = true
          · refine Or.inl ?_
            rcases hp with rfl | habove
            · exact hq
            · exact coherent.above q p hq habove
          · exact Or.inr ⟨Bool.eq_false_iff.2 hq, hp⟩
  | @listKey q name sets =>
      refine ⟨Or.inl, ?_⟩
      rintro (hold | ⟨q', declares', -⟩)
      · exact hold
      · cases d with
        | listKey path name => exact declares'.elim
        | _ => exact sets.elim
  | other silent fields lists =>
      rw [fields]
      refine ⟨Or.inl, ?_⟩
      rintro (hold | ⟨q', declares', -⟩)
      · exact hold
      · exact absurd declares' (silent q')

/-- Where a declaration has nothing to do with a child field as the key of the list, that field
stays the key, and a list without a key stays without one. -/
theorem Effect.listKey?_eq (h : d.Effect entity s s') (leaves : d.LeavesKey entity p key)
    (only : s.listKey? p = none ∨ s.listKey? p = some key) : s'.listKey? p = s.listKey? p := by
  have hfield : ∀ {q f}, d.Declares entity q → d.marksKey = f.isKey →
      (s.declareField q f).listKey? p = s.listKey? p := by
    intro q f declares marked
    rw [EntitySchema.listKey?_declareField]
    split
    · rename_i hparent
      have hq : q = p.child q.name := Path.eq_child_of_parent? declares.isPlace.canonical hparent
      cases hisKey : f.isKey with
      | true => exact absurd (hq ▸ declares) (leaves.marked (marked.trans hisKey) q.name)
      | false =>
          rw [if_neg Bool.false_ne_true]
          refine if_neg fun hkey => ?_
          rcases only with hnone | hsome
          · rw [hnone] at hkey
            cases hkey
          · rw [hsome] at hkey
            cases hkey
            exact leaves.field (hq ▸ declares)
    · rfl
  cases h with
  | field declares single marked => exact hfield declares marked
  | @list q default declares list =>
      rw [EntitySchema.listKey?_declareList]
      split
      · rfl
      · refine hfield declares ?_
        cases d with
        | list path default => rfl
        | _ => cases list
  | @listKey q name sets =>
      rw [EntitySchema.listKey?_setListKey]
      refine if_neg ?_
      rintro rfl
      exact leaves.set name sets
  | other silent fields lists => rw [EntitySchema.listKey?, lists, EntitySchema.listKey?]

/-- A declaration of the child field ends its being the key, except that a list that is declared
already is left as it is. -/
theorem Effect.listKey?_child (h : d.Effect entity s s')
    (declares : d.Declares entity (p.child key)) (unmarked : d.marksKey = false) :
    s'.listKey? p =
      if d.isList = true ∧ s.fields.contains (p.child key) = true then s.listKey? p
      else if s.listKey? p = some key then none else s.listKey? p := by
  have hfield : ∀ {f : Field}, f.isKey = false → (s.declareField (p.child key) f).listKey? p =
      if s.listKey? p = some key then none else s.listKey? p := by
    intro f hf
    rw [EntitySchema.listKey?_declareField, if_pos (p.parent?_child key), hf, Path.name_child]
    rfl
  cases h with
  | @field q f declares' single marked =>
      obtain rfl := declares.unique declares'
      have hsingle : ¬ (d.isList = true ∧ s.fields.contains (p.child key) = true) := by
        simp [single]
      rw [if_neg hsingle]
      exact hfield (marked.symm.trans unmarked)
  | @list q default declares' list =>
      obtain rfl := declares.unique declares'
      rw [EntitySchema.listKey?_declareList, hfield rfl]
      simp only [list, true_and]
  | @listKey q name sets =>
      cases d with
      | listKey path name => exact declares.elim
      | _ => exact sets.elim
  | other silent fields lists => exact absurd declares (silent _)

end Declaration

/-! ## Registries -/

namespace Registry

variable {r : Registry} {x entity text : String} {p q : Path}

/-- The field at the place is declared. -/
def Declares (r : Registry) (entity : String) (p : Path) : Prop :=
  (r.schemaOf entity).fields.contains p = true

instance : Decidable (r.Declares entity p) := inferInstanceAs (Decidable (_ = true))

/-- The child field that keys the list at the place. -/
def listKey? (r : Registry) (entity : String) (p : Path) : Option String :=
  (r.schemaOf entity).listKey? p

theorem exists_schema_of_listKey? {key : String} (h : r.listKey? entity p = some key) :
    ∃ s, r.schema entity = .ok s ∧ s.listKey? p = some key := by
  unfold listKey? schemaOf at h
  cases hs : r.entities.get? entity with
  | none =>
      rw [hs] at h
      cases h
  | some s =>
      rw [hs] at h
      exact ⟨s, schema_eq_ok_iff.2 hs, h⟩

/-- The key of a list answers for the list where there is one. -/
theorem indexationKeyAt_eq_iff (h : splitPath text = .ok (entity, p)) {key : String} :
    r.indexationKeyAt text = .ok ((p.child key).qualify entity) ↔
      r.listKey? entity p = some key := by
  obtain ⟨full, below, hfull, hsplit, hbelow⟩ := splitPath_eq_ok_iff.1 h
  rw [indexationKeyAt_eq_ok_iff]
  constructor
  · rintro ⟨x, s, p', found, hlocate, hindex, hqualify⟩
    obtain ⟨rfl, rfl⟩ := Path.qualify_inj.1 hqualify
    obtain ⟨full', hfull', hsplit', hs⟩ := locate_eq_ok_iff.1 hlocate
    rw [hfull] at hfull'
    cases hfull'
    rw [hsplit] at hsplit'
    cases hsplit'
    rw [EntitySchema.indexationKey_eq_ok_iff, hbelow] at hindex
    rw [listKey?, schemaOf, schema_eq_ok_iff.1 hs, Option.getD_some]
    rcases Option.or_eq_some_iff.1 hindex with hkey | ⟨-, hkey⟩
    · obtain ⟨name, hname, hchild⟩ := Option.map_eq_some_iff.1 hkey
      rw [← (Path.child_inj.1 hchild).2]
      exact hname
    · -- the key of the list above lies elsewhere
      obtain ⟨parent, hparent, hkey⟩ := Option.bind_eq_some_iff.1 hkey
      obtain ⟨name, -, hchild⟩ := Option.map_eq_some_iff.1 hkey
      exact absurd (Path.child_inj.1 hchild).1 (Path.isAbove_of_parent? hparent).2
  · intro hkey
    obtain ⟨s, hs, hkey⟩ := exists_schema_of_listKey? hkey
    refine ⟨entity, s, below, p.child key, locate_eq_ok_iff.2 ⟨full, hfull, hsplit, hs⟩, ?_, rfl⟩
    rw [EntitySchema.indexationKey_eq_ok_iff, hbelow, Option.or_eq_some_iff]
    exact Or.inl (Option.map_eq_some_iff.2 ⟨key, hkey, rfl⟩)

/-! ## Histories -/

theorem effect_modifyEntity {d : Declaration} {f : EntitySchema → EntitySchema}
    (silent : entity ≠ x → ∀ p, ¬ d.Declares entity p)
    (effect : entity = x → d.Effect entity (r.schemaOf entity) (f (r.schemaOf entity))) :
    d.Effect entity (r.schemaOf entity) ((r.modifyEntity x f).schemaOf entity) := by
  rw [schemaOf_modifyEntity]
  split
  · rename_i h
    exact effect h
  · rename_i h
    exact .other (silent h) (fun _ => rfl) rfl

theorem effect_modifyFieldAt {d : Declaration} {f : Field → Field} {r' : Registry}
    (silent : ∀ p, ¬ d.Declares entity p) (h : r.modifyFieldAt text f = .ok r') :
    d.Effect entity (r.schemaOf entity) (r'.schemaOf entity) := by
  obtain ⟨x, q, s, s', -, hs, hs', rfl⟩ := modifyFieldAt_eq_ok_iff.1 h
  unfold schemaOf
  rw [Table.get?_insert]
  split
  · rename_i heq
    subst heq
    rw [hs, Option.getD_some, Option.getD_some]
    refine .other silent (EntitySchema.contains_modifyField? hs') ?_
    obtain ⟨g, -, rfl⟩ := EntitySchema.eq_of_modifyField? hs'
    rfl
  · exact .other silent (fun _ => rfl) rfl

/-- What a declaration does to each schema. -/
theorem effect_after (r : Registry) (d : Declaration) (entity : String) :
    d.Effect entity (r.schemaOf entity) ((r.after d).schemaOf entity) := by
  unfold after
  split
  · rename_i r' hmake
    cases d with
    | field path type isPublic isKey =>
        obtain ⟨⟨x, p⟩, hp, hmake⟩ := bind_eq_ok_iff.1 hmake
        cases hmake
        refine effect_modifyEntity (fun hne q hq => hne ?_) fun heq => ?_
        · exact (Prod.mk.inj (Except.ok.inj (hq.symm.trans hp))).1
        · exact .field (heq ▸ hp) rfl rfl
    | list path default =>
        obtain ⟨⟨x, p⟩, hp, hmake⟩ := bind_eq_ok_iff.1 hmake
        cases hmake
        refine effect_modifyEntity (fun hne q hq => hne ?_) fun heq => ?_
        · exact (Prod.mk.inj (Except.ok.inj (hq.symm.trans hp))).1
        · exact .list (heq ▸ hp) rfl
    | listKey path key =>
        obtain ⟨⟨x, p⟩, hp, hmake⟩ := bind_eq_ok_iff.1 hmake
        cases hmake
        exact effect_modifyEntity (fun _ _ => id) fun heq => .listKey ⟨heq ▸ hp, rfl⟩
    | operators path os => exact effect_modifyFieldAt (fun _ => id) hmake
    | suggestions path ss => exact effect_modifyFieldAt (fun _ => id) hmake
    | expansion x name e =>
        cases hmake
        exact effect_modifyEntity (fun _ _ => id) fun _ => .other (fun _ => id) (fun _ => rfl) rfl
    | timeField path =>
        obtain ⟨⟨x, p⟩, hp, hmake⟩ := bind_eq_ok_iff.1 hmake
        cases hmake
        exact effect_modifyEntity (fun _ _ => id) fun _ => .other (fun _ => id) (fun _ => rfl) rfl
  · rename_i e hmake
    refine .other (fun p hp => ?_) (fun _ => rfl) rfl
    cases d with
    | field path type isPublic isKey =>
        rw [Declaration.make, declareField, declareAt_of_splitPath hp] at hmake
        cases hmake
    | list path default =>
        rw [Declaration.make, declareList, declareAt_of_splitPath hp] at hmake
        cases hmake
    | _ => exact hp

theorem AllSchemas.schemaOf {P : String → EntitySchema → Prop} (h : r.AllSchemas P)
    (empty : P entity (.empty entity)) : P entity (r.schemaOf entity) := by
  unfold Registry.schemaOf
  cases hs : r.entities.get? entity with
  | none => exact empty
  | some s => exact h entity s hs

/-- Declaring a field or a list declares the paths above it, and nothing else does. -/
theorem declares_after (h : r.AllSchemas EntitySchema.IsCoherent) (d : Declaration) :
    (r.after d).Declares entity p ↔
      r.Declares entity p ∨ ∃ q, d.Declares entity q ∧ (p = q ∨ p.IsAbove q) :=
  (r.effect_after d entity).contains_iff (h.schemaOf (EntitySchema.isCoherent_empty entity))

theorem listKey?_after_listKey (h : splitPath text = .ok (entity, p)) (key : String) :
    (r.after (.listKey text key)).listKey? entity p = some key := by
  have hmake : Declaration.make r (.listKey text key) =
      .ok (r.modifyEntity entity (·.setListKey p key)) := by
    rw [Declaration.make, setListKey, declareAt_of_splitPath h]
  have hafter : r.after (.listKey text key) = r.modifyEntity entity (·.setListKey p key) := by
    rw [after, hmake]
  rw [listKey?, hafter, schemaOf_modifyEntity, if_pos rfl, EntitySchema.listKey?_setListKey,
    if_pos rfl]

/-- The fields that are declared at the end of a history are those that it names and those above
them. -/
theorem declares_ofHistory (ds : List Declaration) :
    (ofHistory ds).Declares entity p ↔
      ∃ d ∈ ds, ∃ q, d.Declares entity q ∧ (p = q ∨ p.IsAbove q) := by
  induction ds using List.reverseRecOn with
  | nil => exact ⟨nofun, nofun⟩
  | append_singleton ds d ih =>
      have hafter : ofHistory (ds ++ [d]) = (ofHistory ds).after d := List.foldl_append
      rw [hafter, declares_after (isCoherent_ofHistory ds), ih]
      simp only [List.mem_append, List.mem_singleton, or_and_right, exists_or, exists_eq_left]

/-- Declarations that have nothing to do with a child field as the key of the list leave the key,
while there is no other. -/
theorem listKey?_foldl_after {key : String} {ds : List Declaration}
    (leaves : ∀ d ∈ ds, d.LeavesKey entity p key)
    (only : r.listKey? entity p = none ∨ r.listKey? entity p = some key) :
    (ds.foldl after r).listKey? entity p = r.listKey? entity p := by
  induction ds generalizing r with
  | nil => rfl
  | cons d ds ih =>
      have hd : (r.after d).listKey? entity p = r.listKey? entity p :=
        (r.effect_after d entity).listKey?_eq (leaves d List.mem_cons_self) only
      rw [List.foldl_cons, ih (fun x hx => leaves x (List.mem_cons_of_mem d hx)) (hd ▸ only), hd]

/-- The key that is set stays, if nothing behind it has to do with it. -/
theorem listKey?_ofHistory {path key : String} {ds : List Declaration}
    (hpath : splitPath path = .ok (entity, p)) (leaves : ∀ d ∈ ds, d.LeavesKey entity p key)
    (xs : List Declaration) :
    (ofHistory (xs ++ .listKey path key :: ds)).listKey? entity p = some key := by
  have hset := (ofHistory xs).listKey?_after_listKey hpath key
  have hsplit : ofHistory (xs ++ .listKey path key :: ds) =
      ds.foldl after ((ofHistory xs).after (.listKey path key)) := List.foldl_append
  rw [hsplit, listKey?_foldl_after leaves (Or.inr hset), hset]

/-- Declaring the field that is the key ends its being so, except that a list that is declared
already is left as it is. -/
theorem listKey?_after_declares {key : String} {d : Declaration}
    (declares : d.Declares entity (p.child key)) (unmarked : d.marksKey = false)
    (hkey : r.listKey? entity p = some key) :
    (r.after d).listKey? entity p =
      if d.isList = true ∧ r.Declares entity (p.child key) then some key else none := by
  have hchild := (r.effect_after d entity).listKey?_child declares unmarked
  change (r.schemaOf entity).listKey? p = some key at hkey
  rwa [hkey, if_pos rfl] at hchild

/-- What becomes of a key whose field is declared behind it, if nothing else has to do with it. -/
theorem listKey?_ofHistory_declares {path key : String} {d : Declaration}
    {ys zs : List Declaration} (hpath : splitPath path = .ok (entity, p))
    (declares : d.Declares entity (p.child key)) (unmarked : d.marksKey = false)
    (hys : ∀ x ∈ ys, x.LeavesKey entity p key) (hzs : ∀ x ∈ zs, x.LeavesKey entity p key)
    (xs : List Declaration) :
    (ofHistory (xs ++ .listKey path key :: ys ++ d :: zs)).listKey? entity p =
      if d.isList = true ∧ (ofHistory (xs ++ .listKey path key :: ys)).Declares entity (p.child key)
        then some key else none := by
  have hchild := listKey?_after_declares declares unmarked (listKey?_ofHistory hpath hys xs)
  have hsplit : ofHistory (xs ++ .listKey path key :: ys ++ d :: zs) =
      zs.foldl after ((ofHistory (xs ++ .listKey path key :: ys)).after d) := List.foldl_append
  rw [hsplit, ← hchild]
  refine listKey?_foldl_after hzs ?_
  rw [hchild]
  split
  · exact Or.inr rfl
  · exact Or.inl rfl

/-- The key that a check finds undeclared on a list is its key and is not declared. -/
theorem listKey?_of_check_eq_undeclaredKey (h : r.AllSchemas EntitySchema.IsCoherent)
    (place : IsPlace entity p) {key : String}
    (hcheck : r.check = .error (.undeclaredKey (p.qualify entity).text key)) :
    r.listKey? entity p = some key ∧ ¬ r.Declares entity (p.child key) := by
  obtain ⟨s, hmem, hs⟩ := exists_of_forM_eq_error hcheck
  obtain ⟨⟨x, s⟩, hentry, rfl⟩ := List.mem_map.1 hmem
  have hx : r.entities.get? x = some s := (r.entities.mem_entries_iff x s).1 hentry
  obtain ⟨q, spec, hspec, hkey, hundeclared, htext⟩ :=
    EntitySchema.exists_of_check_eq_undeclaredKey hs
  have coherent := h x s hx
  have hq : IsPlace x q := coherent.list q (Table.contains_iff.2 ⟨spec, hspec⟩)
  rw [coherent.name] at htext
  obtain ⟨rfl, rfl⟩ := Path.qualify_inj.1
    (Path.text_inj hq.hasFieldNames_qualify place.hasFieldNames_qualify htext)
  constructor
  · simp only [listKey?, schemaOf, hx, Option.getD_some, EntitySchema.listKey?, hspec,
      Option.bind_some, hkey]
  · simp only [Declares, schemaOf, hx, Option.getD_some, hundeclared, Bool.false_eq_true,
      not_false_eq_true]

/-- What no declaration names is declared by what lies below it. -/
theorem declares_ofHistory_of_silent {ds : List Declaration}
    (silent : ∀ d ∈ ds, ¬ d.Declares entity p) :
    (ofHistory ds).Declares entity p ↔ ∃ d ∈ ds, ∃ q, d.Declares entity q ∧ p.IsAbove q := by
  rw [declares_ofHistory]
  refine exists_congr fun d => and_congr_right fun hd => exists_congr fun q => ?_
  refine and_congr_right fun hq => or_iff_right ?_
  rintro rfl
  exact silent d hd hq

/-- Where the field of a list's only key is declared, the list is declared and no check finds fault
with its key. -/
theorem check_ofHistory_ne_undeclaredKey {key : String} {d : Declaration} {ds : List Declaration}
    (hd : d ∈ ds) (declares : d.Declares entity (p.child key))
    (only : ∀ name, (ofHistory ds).listKey? entity p = some name → name = key) :
    (ofHistory ds).Declares entity p ∧ (ofHistory ds).Declares entity (p.child key) ∧
      ∀ name, (ofHistory ds).check ≠ .error (.undeclaredKey (p.qualify entity).text name) := by
  have hkey : (ofHistory ds).Declares entity (p.child key) :=
    (declares_ofHistory ds).2 ⟨d, hd, _, declares, Or.inl rfl⟩
  refine ⟨?_, hkey, fun name hcheck => ?_⟩
  · exact (declares_ofHistory ds).2 ⟨d, hd, _, declares, Or.inr (p.isAbove_child key)⟩
  · have place : IsPlace entity p := declares.isPlace.of_isAbove (p.isAbove_child key)
    obtain ⟨hname, hundeclared⟩ :=
      listKey?_of_check_eq_undeclaredKey (isCoherent_ofHistory ds) place hcheck
    exact hundeclared (only name hname ▸ hkey)

/-- A list keeps the key that is set behind the declaration of the key's field. A key that is set
before it is kept only where the field is declared as a list and, by then, something below it has
been declared. The key's field is declared all the same, so that no check tells of the loss. -/
theorem indexationKeyAt_ofHistory {path key : String} {d : Declaration}
    {xs ys zs : List Declaration} (hpath : splitPath path = .ok (entity, p))
    (declares : d.Declares entity (p.child key)) (unmarked : d.marksKey = false)
    (leaves : ∀ x ∈ xs ++ ys ++ zs, x.LeavesKey entity p key) :
    let behind := ofHistory (xs ++ d :: ys ++ .listKey path key :: zs)
    let before := ofHistory (xs ++ .listKey path key :: ys ++ d :: zs)
    (∀ r ∈ [behind, before], r.Declares entity p ∧ r.Declares entity (p.child key) ∧
      ∀ name, r.check ≠ .error (.undeclaredKey (p.qualify entity).text name)) ∧
    behind.indexationKeyAt path = .ok ((p.child key).qualify entity) ∧
    (before.indexationKeyAt path = .ok ((p.child key).qualify entity) ↔
      d.isList = true ∧
        ∃ x ∈ xs ++ ys, ∃ q, x.Declares entity q ∧ (p.child key).IsAbove q) := by
  intro behind before
  simp only [List.append_assoc, List.forall_mem_append] at leaves
  obtain ⟨hxs, hys, hzs⟩ := leaves
  have hbehind : behind.listKey? entity p = some key := listKey?_ofHistory hpath hzs _
  -- what the registry is like when the field is declared behind the key
  let r := ofHistory (xs ++ .listKey path key :: ys)
  have hdeclared : r.Declares entity (p.child key) ↔
      ∃ x ∈ xs ++ ys, ∃ q, x.Declares entity q ∧ (p.child key).IsAbove q := by
    have silent : ∀ x ∈ xs ++ .listKey path key :: ys, ¬ x.Declares entity (p.child key) := by
      simp only [List.forall_mem_append, List.forall_mem_cons]
      exact ⟨fun x hx => (hxs x hx).field, id, fun x hx => (hys x hx).field⟩
    rw [declares_ofHistory_of_silent silent]
    simp [Declaration.Declares, or_and_right, exists_or]
  have hbefore : before.listKey? entity p =
      if d.isList = true ∧ r.Declares entity (p.child key) then some key else none :=
    listKey?_ofHistory_declares hpath declares unmarked hys hzs xs
  refine ⟨?_, ?_, ?_⟩
  · refine List.forall_mem_cons.2 ⟨?_, List.forall_mem_singleton.2 ?_⟩
    · refine check_ofHistory_ne_undeclaredKey (by simp) declares fun name hname => ?_
      exact Option.some.inj (hname.symm.trans hbehind)
    · refine check_ofHistory_ne_undeclaredKey (by simp) declares fun name hname => ?_
      have hname := hname.symm.trans hbefore
      split at hname
      · exact Option.some.inj hname
      · cases hname
  · exact (indexationKeyAt_eq_iff hpath).2 hbehind
  · rw [indexationKeyAt_eq_iff hpath, hbefore, ← hdeclared]
    split
    · rename_i hkept
      exact iff_of_true rfl hkept
    · rename_i hlost
      exact iff_of_false nofun hlost

/-- The identifier is the key of the sources where the key is set behind it, and is not where the
key is set before it. -/
theorem indexationKeyAt_ofHistory_ident :
    let source := Path.single "source"
    let ident : Declaration := .field "alert.source(0).ident" .text true false
    let node : Declaration := .field "alert.source.node" .text true false
    let key : Declaration := .listKey "alert.source" "ident"
    splitPath "alert.source" = .ok ("alert", source) ∧
      ident.Declares "alert" (source.child "ident") ∧ ident.marksKey = false ∧
      (∀ x ∈ [node], x.LeavesKey "alert" source "ident") ∧
      (ofHistory [node, ident, key]).indexationKeyAt "alert.source" =
        .ok ((source.child "ident").qualify "alert") ∧
      (ofHistory [node, key, ident]).indexationKeyAt "alert.source" ≠
        .ok ((source.child "ident").qualify "alert") := by
  intro source ident node key
  have hpath : splitPath "alert.source" = .ok ("alert", source) :=
    eq_ok_of_any_eq (by decide +kernel)
  have hident : ident.Declares "alert" (source.child "ident") := eq_ok_of_any_eq (by decide +kernel)
  have hnode : node.Declares "alert" (source.child "node") := eq_ok_of_any_eq (by decide +kernel)
  have hleaves : ∀ x ∈ [node] ++ [] ++ [], x.LeavesKey "alert" source "ident" := by
    refine List.forall_mem_singleton.2 ⟨fun h => ?_, nofun, fun _ => id⟩
    exact absurd (hnode.unique h) (by decide)
  obtain ⟨-, hbehind, hbefore⟩ := indexationKeyAt_ofHistory hpath hident rfl hleaves
  exact ⟨hpath, hident, rfl, hleaves, hbehind, fun h => nomatch (hbefore.1 h).1⟩

end Registry

end EventQuery
