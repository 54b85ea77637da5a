import EventQuery.Backend.Sqlite.Column
import EventQuery.Proofs.Grammar.Paths
import EventQuery.Proofs.Sqlite.PathText
import Mathlib.Data.List.Basic

/-!
# How columns are cut and spelled

A path without keys for indices has a column wherever it is cut, and the accesses of the column go
by the names of the path's segments. What is spelled of a column besides the name of the document
comes from these names and from digits.
-/

namespace EventQuery.Sqlite

/-- The members on the way are named by field names. -/
def Access.HasFieldNames (a : Access) : Prop := ∀ x ∈ a.path, x.HasFieldName

structure Column.HasFieldNames (c : Column) : Prop where
  sources : ∀ a ∈ c.sources, a.HasFieldNames
  value : c.value.HasFieldNames

/-! ## Cutting -/

theorem jsonPath?_cons (x : Segment) (xs : List Segment) :
    jsonPath? (x :: xs) = (stepsOf? x).bind fun a => (jsonPath? xs).map (a ++ ·) := by
  rw [jsonPath?, List.mapM_cons]
  cases stepsOf? x with
  | none => rfl
  | some a =>
      rw [jsonPath?]
      cases xs.mapM stepsOf? <;> rfl

theorem ne_nil_of_jsonPath? {xs : List Segment} {path : List Step} (h : jsonPath? xs = some path)
    (ne : xs ≠ []) : path ≠ [] := by
  cases xs with
  | nil => exact absurd rfl ne
  | cons x xs =>
      rw [jsonPath?_cons] at h
      obtain ⟨a, ha, h⟩ := Option.bind_eq_some_iff.1 h
      obtain ⟨b, -, rfl⟩ := Option.map_eq_some_iff.1 h
      obtain ⟨name, _ | ⟨n | k | _⟩⟩ := x <;> cases ha <;> exact nofun

theorem hasFieldName_of_jsonPath? {xs : List Segment} {path : List Step}
    (h : jsonPath? xs = some path) (named : ∀ x ∈ xs, Grammar.IsFieldName x.name) :
    ∀ y ∈ path, y.HasFieldName := by
  induction xs generalizing path with
  | nil =>
      cases h
      exact nofun
  | cons x xs ih =>
      rw [jsonPath?_cons] at h
      obtain ⟨a, ha, h⟩ := Option.bind_eq_some_iff.1 h
      obtain ⟨b, hb, rfl⟩ := Option.map_eq_some_iff.1 h
      have hx : ∀ y ∈ a, y.HasFieldName := by
        have hname := named x List.mem_cons_self
        obtain ⟨name, _ | ⟨n | k | _⟩⟩ := x <;> cases ha <;> simpa [Step.HasFieldName] using hname
      intro y hy
      rcases List.mem_append.1 hy with hy | hy
      · exact hx y hy
      · exact ih hb (fun z hz => named z (List.mem_cons_of_mem x hz)) y hy

theorem isSome_stepsOf?_iff {x : Segment} :
    (stepsOf? x).isSome = true ↔ ∀ k, x.index ≠ some (.key k) := by
  obtain ⟨name, _ | ⟨n | k | _⟩⟩ := x <;> simp [stepsOf?]

theorem isSome_jsonPath?_iff {xs : List Segment} :
    (jsonPath? xs).isSome = true ↔ ∀ x ∈ xs, ∀ k, x.index ≠ some (.key k) := by
  induction xs with
  | nil => exact ⟨nofun, fun _ => rfl⟩
  | cons x xs ih =>
      rw [List.forall_mem_cons, ← ih, ← isSome_stepsOf?_iff, jsonPath?_cons]
      cases stepsOf? x <;> simp

/-- A path with a key has no column, and only such a path has none. -/
theorem isSome_columnFrom_iff {xs : List Segment} {source : Option Nat} {start : Nat}
    {openLists : List Nat} :
    (columnFrom source start xs openLists).isSome = true ↔
      ∀ x ∈ xs, ∀ k, x.index ≠ some (.key k) := by
  induction openLists generalizing xs source start with
  | nil => rw [columnFrom, Option.isSome_map, isSome_jsonPath?_iff]
  | cons stop openLists ih =>
      -- the parts before and after the cut make up the whole
      have hcut := List.take_append_drop (stop + 1 - start) xs
      conv_rhs => rw [← hcut]
      have hrest := @ih (xs.drop (stop + 1 - start)) (some (nextSource source)) (stop + 1)
      rw [List.forall_mem_append, ← isSome_jsonPath?_iff, ← hrest, columnFrom]
      cases jsonPath? (xs.take (stop + 1 - start)) with
      | none => simp
      | some path =>
          cases columnFrom (some (nextSource source)) (stop + 1)
            (xs.drop (stop + 1 - start)) openLists <;> simp

/-- A path without keys has a column wherever it is cut. -/
theorem isSome_columnFrom {xs : List Segment} (unkeyed : ∀ x ∈ xs, ∀ k, x.index ≠ some (.key k))
    (source : Option Nat) (start : Nat) (openLists : List Nat) :
    (columnFrom source start xs openLists).isSome = true :=
  isSome_columnFrom_iff.2 unkeyed

/-- The first open list ends the path of a source, and the rest is read within its elements. -/
theorem columnFrom_append_cons {pre xs : List Segment} {x : Segment} {source : Option Nat}
    {start : Nat} {openLists : List Nat} {c : Column}
    (h : columnFrom source start (pre ++ x :: xs) ((start + pre.length) :: openLists) = some c) :
    ∃ path below, jsonPath? (pre ++ [x]) = some path ∧
      columnFrom (some (nextSource source)) (start + pre.length + 1) xs openLists = some below ∧
      c = ⟨⟨source, path⟩ :: below.sources, below.value⟩ := by
  have hcut : start + pre.length + 1 - start = (pre ++ [x]).length := by
    rw [List.length_append, List.length_singleton]
    omega
  rw [List.append_cons, columnFrom, hcut, List.take_left, List.drop_left] at h
  obtain ⟨path, hpath, h⟩ := Option.bind_eq_some_iff.1 h
  obtain ⟨below, hbelow, h⟩ := Option.bind_eq_some_iff.1 h
  cases h
  exact ⟨path, below, hpath, hbelow, rfl⟩

theorem hasFieldNames_of_columnFrom {xs : List Segment} {source : Option Nat} {start : Nat}
    {openLists : List Nat} {c : Column} (h : columnFrom source start xs openLists = some c)
    (named : ∀ x ∈ xs, Grammar.IsFieldName x.name) : c.HasFieldNames := by
  induction openLists generalizing xs source start c with
  | nil =>
      obtain ⟨path, hpath, rfl⟩ := Option.map_eq_some_iff.1 h
      exact ⟨nofun, hasFieldName_of_jsonPath? hpath named⟩
  | cons stop openLists ih =>
      obtain ⟨path, hpath, h⟩ := Option.bind_eq_some_iff.1 h
      obtain ⟨below, hbelow, h⟩ := Option.bind_eq_some_iff.1 h
      cases h
      have hnames := ih hbelow fun x hx => named x (List.mem_of_mem_drop hx)
      refine ⟨fun a ha => ?_, hnames.value⟩
      rcases List.mem_cons.1 ha with rfl | ha
      · exact hasFieldName_of_jsonPath? hpath fun x hx => named x (List.mem_of_mem_take hx)
      · exact hnames.sources a ha

/-! ## Spelling -/

section Columns

variable {document : List Char} {a : Access}

/-- The names of sources are spelled in letters and digits. -/
theorem isAlphanum_of_mem_sourceName {n : Nat} {c : Char} (h : c ∈ sourceName n) :
    c.isAlphanum = true := by
  rcases List.mem_append.1 h with h | h
  · have heach : ∀ d ∈ "each".toList, d.isAlphanum = true := List.all_eq_true.1 (by decide)
    exact heach c h
  · simp [Char.isAlphanum, Digits.isDigit_of_mem_ofNat h]

theorem not_mem_sourceName {c : Char} (hc : isBareChar c = false) (n : Nat) :
    c ∉ sourceName n := by
  intro h
  rw [isBareChar, isAlphanum_of_mem_sourceName h] at hc
  cases hc

theorem not_mem_spellStart {c : Char} (hc : isBareChar c = false) (hdocument : c ∉ document)
    (source : Option Nat) : c ∉ spellStart document source := by
  cases source with
  | none => exact hdocument
  | some n =>
      have hvalue : c ∉ ".value".toList := by
        have hbare : ∀ d ∈ ".value".toList, isBareChar d = true :=
          List.all_eq_true.1 (by decide)
        exact fun h => Bool.false_ne_true (hc.symm.trans (hbare c h))
      intro h
      exact (List.mem_append.1 h).elim (not_mem_sourceName hc n) hvalue

theorem not_mem_spellCall (hdocument : '?' ∉ document) (named : a.HasFieldNames)
    {function : String} (hfunction : '?' ∉ function.toList) :
    '?' ∉ spellCall function document a := by
  have hpath : '?' ∉ spellPath a.path := not_mem_spellPath named (by decide)
  have hstart : '?' ∉ spellStart document a.source :=
    not_mem_spellStart (by decide) hdocument a.source
  simp [spellCall, hfunction, hstart, hpath]

theorem not_mem_spellValue (hdocument : '?' ∉ document) (named : a.HasFieldNames) :
    '?' ∉ spellValue document a := by
  unfold spellValue
  split
  · exact not_mem_spellStart (by decide) hdocument a.source
  · exact not_mem_spellCall hdocument named (by decide)

theorem not_mem_spellSource (hdocument : '?' ∉ document) (named : a.HasFieldNames)
    (n : Nat) : '?' ∉ spellSource document a n := by
  have hfunction : '?' ∉ "json_each".toList := by decide
  have hcall := not_mem_spellCall hdocument named hfunction
  have hname : '?' ∉ sourceName n := not_mem_sourceName (by decide) n
  simp [spellSource, hcall, hname]

theorem forall_mem_spellSources {c : Column} {P : List Char → Prop}
    (h : ∀ a ∈ c.sources, ∀ n, P (spellSource document a n)) :
    ∀ t ∈ spellSources document c, P t := by
  intro t ht
  obtain ⟨⟨a, n⟩, ha, rfl⟩ := List.mem_map.1 ht
  exact h a (List.fst_mem_of_mem_zipIdx ha) n

end Columns

end EventQuery.Sqlite
