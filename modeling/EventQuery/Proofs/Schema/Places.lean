import EventQuery.Schema.Config
import EventQuery.Proofs.Grammar.Continuation
import EventQuery.Proofs.Path.Ancestors

/-!
# Where full paths lead

A full path leads to an entity type and a canonical path below it. Both are spelled with field
names, whatever text the full path was read from. Behind a field name and a point stands a path if
and only if the whole is one; a name that is none may turn the path behind it into something else.
-/

namespace EventQuery

/-- An entity type and a path that declarations can lead to. -/
structure Registry.IsPlace (entity : String) (p : Path) : Prop where
  entity : Grammar.IsFieldName entity
  canonical : p.isCanonical = true
  names : p.HasFieldNames

namespace Path

theorem eq_of_splitEntity? {full p : Path} {entity : String}
    (h : full.splitEntity? = some (entity, p)) :
    ∃ index, full.segments = ⟨entity, index⟩ :: p.segments := by
  unfold splitEntity? at h
  split at h
  · cases h
  · rename_i x rest hfull
    obtain ⟨q, hq, h⟩ := Option.map_eq_some_iff.1 h
    unfold ofList? at hq
    split at hq
    · cases hq
    · cases hq
      cases h
      exact ⟨x.index, hfull⟩

theorem qualify_inj {p q : Path} {x y : String} : p.qualify x = q.qualify y ↔ x = y ∧ p = q := by
  constructor
  · intro h
    have hsplit := congrArg splitEntity? h
    rw [splitEntity?_qualify, splitEntity?_qualify] at hsplit
    cases hsplit
    exact ⟨rfl, rfl⟩
  · rintro ⟨rfl, rfl⟩
    rfl

/-- Paths of field names are known by their texts. -/
theorem text_inj {p q : Path} (hp : p.HasFieldNames) (hq : q.HasFieldNames)
    (h : p.text = q.text) : p = q := by
  have hparse := parse_text hp
  rw [h, parse_text hq] at hparse
  exact (Except.ok.inj hparse).symm

end Path

namespace Registry

variable {entity text : String} {p q : Path}

theorem splitPath_eq_ok_iff :
    splitPath text = .ok (entity, p) ↔
      ∃ full below, Path.parse text = .ok full ∧ full.splitEntity? = some (entity, below) ∧
        below.canonical = p := by
  rw [splitPath, bind_eq_ok_iff]
  constructor
  · rintro ⟨full, hfull, h⟩
    split at h
    · rename_i below hsplit
      cases h
      exact ⟨full, below, hfull, hsplit, rfl⟩
    · cases h
  · rintro ⟨full, below, hfull, hsplit, rfl⟩
    refine ⟨full, hfull, ?_⟩
    rw [hsplit]
    rfl

theorem isPlace_of_splitPath (h : splitPath text = .ok (entity, p)) : IsPlace entity p := by
  obtain ⟨full, below, hfull, hsplit, rfl⟩ := splitPath_eq_ok_iff.1 h
  have hnames := Path.hasFieldNames_of_parse hfull
  obtain ⟨index, hsegments⟩ := Path.eq_of_splitEntity? hsplit
  rw [Path.HasFieldNames, hsegments] at hnames
  obtain ⟨hentity, hbelow⟩ := List.forall_mem_cons.1 hnames
  exact ⟨hentity, below.isCanonical_canonical, Path.hasFieldNames_canonical.2 hbelow⟩

/-! ## Questions by full path -/

theorem schema_eq_ok_iff {r : Registry} {s : EntitySchema} :
    r.schema entity = .ok s ↔ r.entities.get? entity = some s := by
  unfold schema
  cases r.entities.get? entity <;> simp

theorem resolve_eq_ok_iff {r : Registry} {f : Field} :
    r.resolve entity p = .ok f ↔ ∃ s, r.schema entity = .ok s ∧ s.field? p = some f := by
  rw [resolve, bind_eq_ok_iff]
  refine exists_congr fun s => and_congr_right fun _ => ?_
  unfold EntitySchema.resolve
  cases s.field? p <;> simp

theorem locate_eq_ok_iff {r : Registry} {s : EntitySchema} :
    r.locate text = .ok (entity, s, p) ↔
      ∃ full, Path.parse text = .ok full ∧ full.splitEntity? = some (entity, p) ∧
        r.schema entity = .ok s := by
  rw [locate, bind_eq_ok_iff]
  refine exists_congr fun full => and_congr_right fun _ => ?_
  cases hsplit : full.splitEntity? with
  | none => exact ⟨nofun, nofun⟩
  | some found =>
      obtain ⟨x, below⟩ := found
      constructor
      · intro h
        obtain ⟨s', hs', h⟩ := bind_eq_ok_iff.1 h
        cases h
        exact ⟨rfl, hs'⟩
      · rintro ⟨heq, hs⟩
        cases heq
        exact bind_eq_ok_iff.2 ⟨s, hs, rfl⟩

theorem indexationKeyAt_eq_ok_iff {r : Registry} {key : Path} :
    r.indexationKeyAt text = .ok key ↔
      ∃ entity s p below, r.locate text = .ok (entity, s, p) ∧ s.indexationKey p = .ok below ∧
        below.qualify entity = key := by
  rw [indexationKeyAt, bind_eq_ok_iff]
  constructor
  · rintro ⟨⟨entity, s, p⟩, hlocate, h⟩
    cases hindex : s.indexationKey p with
    | error e =>
        simp only [hindex] at h
        cases h
    | ok below =>
        simp only [hindex] at h
        cases h
        exact ⟨entity, s, p, below, hlocate, hindex, rfl⟩
  · rintro ⟨entity, s, p, below, hlocate, hindex, rfl⟩
    refine ⟨(entity, s, p), hlocate, ?_⟩
    simp only [hindex]
    rfl

namespace IsPlace

theorem of_isAbove (h : IsPlace entity p) (above : q.IsAbove p) : IsPlace entity q :=
  ⟨h.entity, above.isCanonical h.canonical, above.hasFieldNames h.names⟩

theorem of_parent? (h : IsPlace entity p) (parent : p.parent? = some q) : IsPlace entity q :=
  h.of_isAbove (Path.isAbove_of_parent? parent)

theorem hasFieldNames_qualify (h : IsPlace entity p) : (p.qualify entity).HasFieldNames :=
  Path.hasFieldNames_qualify_iff.2 ⟨h.entity, h.names⟩

/-- The written form of a place is read back. -/
theorem parse_text (h : IsPlace entity p) :
    Path.parse (p.qualify entity).text = .ok (p.qualify entity) :=
  Path.parse_text h.hasFieldNames_qualify

theorem canonical_eq (h : IsPlace entity p) : p.canonical = p := by
  ext1
  rw [Path.segments_canonical]
  conv_rhs => rw [← List.map_id p.segments]
  refine List.map_congr_left fun x hx => ?_
  obtain ⟨name, index⟩ := x
  obtain rfl : index = none := by
    have hcanonical := h.canonical
    rw [Path.isCanonical, List.all_eq_true] at hcanonical
    simpa using hcanonical _ hx
  rfl

end IsPlace

end Registry

namespace Grammar

open Matcher

/-- A field name is a path of one segment. -/
theorem read_path_fieldName {name : String} (h : IsFieldName name) :
    path.read name.toList = some (.single name, []) := by
  have hnames : (Path.single name).HasFieldNames := by
    simpa [Path.HasFieldNames, Path.single, Segment.plain]
  have hread := read_path hnames endsPath_nil
  rwa [List.append_nil] at hread

/-- Behind a field name and a point stands a path if and only if the whole is one. -/
theorem read_path_qualify {name : String} (h : IsFieldName name) {s : List Char} {p : Path} :
    path.read (name.toList ++ '.' :: s) = some (p, []) ↔
      ∃ q, path.read s = some (q, []) ∧ q.qualify name = p :=
  read_path_point (read_path_fieldName h)

end Grammar

namespace EntityConfig

variable {e : EntityConfig}

/-- In a block whose name is a field name a path leads below that name, if it is a path. -/
theorem splitPath_qualify_iff (h : Grammar.IsFieldName e.name) {path entity : String} {p : Path} :
    Registry.splitPath (e.qualify path) = .ok (entity, p) ↔
      entity = e.name ∧ ∃ q, Path.parse path = .ok q ∧ q.canonical = p := by
  have hparse : ∀ full, Path.parse (e.qualify path) = .ok full ↔
      ∃ q, Path.parse path = .ok q ∧ q.qualify e.name = full := by
    intro full
    simp only [Path.parse_eq_ok_iff, EntityConfig.qualify, String.toList_append, List.append_assoc]
    exact Grammar.read_path_qualify h
  rw [Registry.splitPath_eq_ok_iff]
  constructor
  · rintro ⟨full, below, hfull, hsplit, hcanonical⟩
    obtain ⟨q, hq, rfl⟩ := (hparse full).1 hfull
    rw [Path.splitEntity?_qualify] at hsplit
    cases hsplit
    exact ⟨rfl, below, hq, hcanonical⟩
  · rintro ⟨rfl, q, hq, hcanonical⟩
    exact ⟨q.qualify e.name, q, (hparse _).2 ⟨q, hq, rfl⟩, q.splitEntity?_qualify e.name,
      hcanonical⟩

end EntityConfig

end EventQuery
