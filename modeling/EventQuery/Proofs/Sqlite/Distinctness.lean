import EventQuery.Proofs.Backend.Pinning
import EventQuery.Proofs.Sqlite.Column

/-!
# Different fields have different columns

The steps of a path are read back from its text, and its segments from the steps: each member begins
a segment, to which an element behind it belongs. So two paths that pick elements by position only
are never addressed in the same way, and where no list is left to iterate over, neither are their
values.
-/

namespace EventQuery

/-- The segment is named by a field name, and picks an element by its position if it picks any. -/
structure Segment.IsPositional (x : Segment) : Prop where
  name : Grammar.IsFieldName x.name
  index : x.index = none ∨ ∃ n, x.index = some (.position n)

namespace Sqlite

variable {xs ys : List Segment} {path : List Step}

/-! ## Segments from steps -/

/-- The segments that steps come from. -/
def segmentsOf : List Step → List Segment
  | [] => []
  | .member name :: .element n :: path => ⟨name, some (.position n)⟩ :: segmentsOf path
  | .member name :: path => .plain name :: segmentsOf path
  | .element _ :: path => segmentsOf path

/-- Every segment begins with a member. -/
theorem exists_member_of_jsonPath? (h : jsonPath? xs = some path) :
    ∀ y ∈ path.head?, ∃ name, y = .member name := by
  cases xs with
  | nil =>
      cases h
      exact nofun
  | cons x xs =>
      rw [jsonPath?_cons] at h
      obtain ⟨a, ha, h⟩ := Option.bind_eq_some_iff.1 h
      obtain ⟨b, -, rfl⟩ := Option.map_eq_some_iff.1 h
      obtain ⟨name, _ | ⟨n | k | _⟩⟩ := x <;> cases ha <;> (rintro y ⟨⟩; exact ⟨name, rfl⟩)

theorem segmentsOf_member (name : String) (h : ∀ y ∈ path.head?, ∃ name, y = .member name) :
    segmentsOf (.member name :: path) = .plain name :: segmentsOf path := by
  cases path with
  | nil => rfl
  | cons y path =>
      obtain ⟨next, rfl⟩ := h y rfl
      rfl

theorem segmentsOf_jsonPath? (positional : ∀ x ∈ xs, x.IsPositional)
    (h : jsonPath? xs = some path) : segmentsOf path = xs := by
  induction xs generalizing path with
  | nil =>
      cases h
      rfl
  | cons x xs ih =>
      rw [jsonPath?_cons] at h
      obtain ⟨a, ha, h⟩ := Option.bind_eq_some_iff.1 h
      obtain ⟨b, hb, rfl⟩ := Option.map_eq_some_iff.1 h
      obtain ⟨hx, hxs⟩ := List.forall_mem_cons.1 positional
      have hrest : segmentsOf b = xs := ih hxs hb
      obtain ⟨name, index⟩ := x
      obtain rfl | ⟨n, rfl⟩ := hx.index
      · cases ha
        show segmentsOf (.member name :: b) = _
        rw [segmentsOf_member name (exists_member_of_jsonPath? hb), hrest, Segment.plain]
      · cases ha
        show ⟨name, some (.position n)⟩ :: segmentsOf b = _
        rw [hrest]

theorem exists_jsonPath? (positional : ∀ x ∈ xs, x.IsPositional) :
    ∃ path, jsonPath? xs = some path := by
  apply Option.isSome_iff_exists.1
  apply isSome_jsonPath?_iff.2
  intro x hx k hkey
  obtain hnone | ⟨n, hposition⟩ := (positional x hx).index
  · cases hnone.symm.trans hkey
  · cases hposition.symm.trans hkey

/-! ## Texts -/

/-- Positional segments are known by the text of their path. -/
theorem spellPath_eq_iff {a b : List Step} (hxs : ∀ x ∈ xs, x.IsPositional)
    (hys : ∀ y ∈ ys, y.IsPositional) (ha : jsonPath? xs = some a) (hb : jsonPath? ys = some b) :
    spellPath a = spellPath b ↔ xs = ys := by
  have hanames := hasFieldName_of_jsonPath? ha fun x hx => (hxs x hx).name
  have hbnames := hasFieldName_of_jsonPath? hb fun y hy => (hys y hy).name
  rw [spellPath_inj hanames hbnames]
  constructor
  · rintro rfl
    exact (segmentsOf_jsonPath? hxs ha).symm.trans (segmentsOf_jsonPath? hys hb)
  · rintro rfl
    exact Option.some.inj (ha.symm.trans hb)

theorem spellValue_eq_iff {document : List Char} {a b : List Step} (ha : a ≠ []) (hb : b ≠ []) :
    spellValue document ⟨none, a⟩ = spellValue document ⟨none, b⟩ ↔ spellPath a = spellPath b := by
  rw [spellValue, if_neg ha, spellValue, if_neg hb]
  simp [spellCall]

/-- A path without open lists is read from the document at its JSON path. -/
theorem column?_of_openLists_eq_nil {s : EntitySchema} {p : Path} (closed : s.openLists p = [])
    (h : jsonPath? p.segments = some path) :
    column? p (s.openLists p) = some ⟨[], ⟨none, path⟩⟩ := by
  rw [closed, column?, columnFrom, h]
  rfl

/-- Segments that pick elements by position only have a JSON path, whose text no other segments
have. The value of a path of such segments without open lists is read from the document, in a column
that no other path has. -/
theorem positional_segments_have_distinct_columns :
    (∀ xs ys : List Segment, (∀ x ∈ xs, x.IsPositional) → (∀ y ∈ ys, y.IsPositional) →
      ∃ a b, jsonPath? xs = some a ∧ jsonPath? ys = some b ∧
        (spellPath a = spellPath b ↔ xs = ys)) ∧
      ∀ (s : EntitySchema) (document : List Char) (p q : Path),
        (∀ x ∈ p.segments, x.IsPositional) → (∀ y ∈ q.segments, y.IsPositional) →
        s.openLists p = [] → s.openLists q = [] →
        ∃ c d, column? p (s.openLists p) = some c ∧ column? q (s.openLists q) = some d ∧
          c.sources = [] ∧ d.sources = [] ∧
          (spellValue document c.value = spellValue document d.value ↔ p = q) := by
  constructor
  · intro xs ys hxs hys
    obtain ⟨a, ha⟩ := exists_jsonPath? hxs
    obtain ⟨b, hb⟩ := exists_jsonPath? hys
    exact ⟨a, b, ha, hb, spellPath_eq_iff hxs hys ha hb⟩
  · intro s document p q hp hq hpclosed hqclosed
    obtain ⟨a, ha⟩ := exists_jsonPath? hp
    obtain ⟨b, hb⟩ := exists_jsonPath? hq
    refine ⟨_, _, column?_of_openLists_eq_nil hpclosed ha, column?_of_openLists_eq_nil hqclosed hb,
      rfl, rfl, ?_⟩
    rw [spellValue_eq_iff (ne_nil_of_jsonPath? ha p.segments_ne_nil)
      (ne_nil_of_jsonPath? hb q.segments_ne_nil), spellPath_eq_iff hp hq ha hb, ← Path.ext_iff]

/-- The last element of a list and the second one, and a name that needs quotation marks. -/
theorem positional_segments_have_distinct_columns_quoted :
    let s := (EntitySchema.empty "event").declareList (.single "a") .first
    let p : Path := ⟨[⟨"a", some (.position (-1))⟩, .plain "b-c"], by simp⟩
    let q : Path := ⟨[⟨"a", some (.position 1)⟩, .plain "b", .plain "c"], by simp⟩
    let a : List Step := [.member "a", .element (-1), .member "b-c"]
    let b : List Step := [.member "a", .element 1, .member "b", .member "c"]
    String.ofList (spellPath a) = "$.a[#-1].\"b-c\"" ∧ String.ofList (spellPath b) = "$.a[1].b.c" ∧
      jsonPath? p.segments = some a ∧ jsonPath? q.segments = some b ∧ spellPath a ≠ spellPath b ∧
      s.openLists p = [] ∧ s.openLists q = [] ∧
      ∃ c d, column? p (s.openLists p) = some c ∧ column? q (s.openLists q) = some d ∧
        spellValue "document".toList c.value ≠ spellValue "document".toList d.value := by
  intro s p q a b
  have hp : ∀ x ∈ p.segments, x.IsPositional := List.forall_mem_cons.2
    ⟨⟨by decide, Or.inr ⟨_, rfl⟩⟩, List.forall_mem_singleton.2 ⟨by decide, Or.inl rfl⟩⟩
  have hq : ∀ x ∈ q.segments, x.IsPositional := List.forall_mem_cons.2
    ⟨⟨by decide, Or.inr ⟨_, rfl⟩⟩, List.forall_mem_cons.2
      ⟨⟨by decide, Or.inl rfl⟩, List.forall_mem_singleton.2 ⟨by decide, Or.inl rfl⟩⟩⟩
  have hpclosed : s.openLists p = [] := by decide
  have hqclosed : s.openLists q = [] := by decide
  obtain ⟨hpaths, hcolumns⟩ := positional_segments_have_distinct_columns
  obtain ⟨a', b', ha, hb, htexts⟩ := hpaths p.segments q.segments hp hq
  cases ha
  cases hb
  obtain ⟨c, d, hc, hd, -, -, hvalues⟩ :=
    hcolumns s "document".toList p q hp hq hpclosed hqclosed
  refine ⟨by decide, by decide, rfl, rfl, fun h => ?_, hpclosed, hqclosed, c, d, hc, hd,
    fun h => ?_⟩
  · exact absurd (htexts.1 h) (by decide)
  · exact absurd (hvalues.1 h) (by decide)

end Sqlite

end EventQuery
