import EventQuery.Backend.Sqlite
import EventQuery.Proofs.Document.Designation
import EventQuery.Proofs.Sqlite.Column
import Mathlib.Data.List.Basic

/-!
# What SQL reads from a document

What is taken for granted of SQLite, over the text of a query. `json_extract` follows a path to a
value, which may be missing. `json_each` has a row for each item of the array at a path; a row is
known by the source's name, and later sources and the selected expression may refer to it. An
expression is read with the innermost name that it fits. What a test behind an expression means
for its value is left open.
-/

namespace EventQuery.Sqlite

open Grammar Matcher

/-! ## Following paths -/

/-- Where a step leads. -/
def Step.from? : Step → Data → Option Data
  | member name => Data.field? name
  | element n => Data.item? n

/-- Where a path leads from a value, if the value is there. -/
def follow (steps : List Step) (v : Option Data) : Option Data :=
  steps.foldl (fun v x => v.bind x.from?) v

/-- What `json_each` has rows for: the items of an array, the values of a record, or else the value
itself. -/
def eachValue : Data → List Data
  | .array items => items
  | .record members => members.map Prod.snd
  | v => [v]

/-! ## Expressions and sources -/

/-- The names that expressions may refer to, innermost first, and their values. -/
abbrev Scope := List (List Char × Option Data)

/-- The steps of the path in a call of a function on a name, at the beginning of a text, and what
follows the call. -/
def readCall? (function : String) (name text : List Char) : Option (List Step × List Char) := do
  let text ← text.dropPrefix? (function.toList ++ '(' :: (name ++ ", '".toList))
  let (path, text) ← (run0 (· != '\'')).read text
  let steps ← readPath? path
  let rest ← text.dropPrefix? "')".toList
  return (steps, rest)

/-- The value of the expression about a name at the beginning of a text, and what follows it: a
value extracted from the named one, or the named value itself. -/
def valueFrom? (name text : List Char) (v : Option Data) : Option (Option Data × List Char) :=
  match readCall? "json_extract" name text with
  | some (steps, rest) => some (follow steps v, rest)
  | none => (text.dropPrefix? name).map fun rest => (v, rest)

def value? (text : List Char) (scope : Scope) : Option (Option Data × List Char) :=
  scope.findSome? fun (name, v) => valueFrom? name text v

/-- The name of the source at the beginning of a text, which iterates something within a named
value, what it has rows for, and what follows it. -/
def sourceFrom? (name text : List Char) (v : Option Data) :
    Option ((List Char × List Data) × List Char) := do
  let (steps, rest) ← readCall? "json_each" name text
  let rest ← rest.dropPrefix? " AS ".toList
  let (own, rest) ← (run1 Char.isAlphanum).read rest
  return ((own, (follow steps v).elim [] eachValue), rest)

def source? (text : List Char) (scope : Scope) :
    Option ((List Char × List Data) × List Char) :=
  scope.findSome? fun (name, v) => sourceFrom? name text v

/-- The row of a source for an element, within a scope. -/
def Scope.row (scope : Scope) (name : List Char) (d : Data) : Scope :=
  (name ++ ".value".toList, some d) :: scope

/-- What was read, if nothing follows it. -/
def whole? (read : Option (α × List Char)) : Option α :=
  read.bind fun (a, rest) => if rest = [] then some a else none

/-- The values of an expression in the rows of sources, each of which may refer to those before. -/
def select? (expression : List Char) : List (List Char) → Scope → Option (List (Option Data))
  | [], scope => (whole? (value? expression scope)).map fun v => [v]
  | source :: sources, scope => do
    let (name, elements) ← whole? (source? source scope)
    let values ← elements.mapM fun d => select? expression sources (scope.row name d)
    return values.flatten

/-! ## Conditions -/

theorem length_of_dropPrefix? {p s rest : List Char} (h : s.dropPrefix? p = some rest) :
    rest.length + p.length = s.length := by
  obtain ⟨p', rfl, hp⟩ := List.dropPrefix?_eq_some_iff.1 h
  rw [eq_of_beq hp, List.length_append, Nat.add_comm]

theorem length_lt_of_readCall? {function : String} {name text rest : List Char}
    {steps : List Step} (h : readCall? function name text = some (steps, rest)) :
    rest.length < text.length := by
  unfold readCall? at h
  obtain ⟨inner, hinner, h⟩ := Option.bind_eq_some_iff.1 h
  obtain ⟨⟨path, behind⟩, hpath, h⟩ := Option.bind_eq_some_iff.1 h
  obtain ⟨found, -, h⟩ := Option.bind_eq_some_iff.1 h
  obtain ⟨last, hlast, h⟩ := Option.bind_eq_some_iff.1 h
  cases h
  have hinner := length_of_dropPrefix? hinner
  have hpath := (Shrinks.run0 _ _ _ _ hpath).length_le
  have hlast := length_of_dropPrefix? hlast
  simp only [List.length_append, List.length_cons] at hinner
  omega

theorem length_lt_of_source? {text rest : List Char} {scope : Scope}
    {row : List Char × List Data} (h : source? text scope = some (row, rest)) :
    rest.length < text.length := by
  obtain ⟨⟨name, v⟩, -, h⟩ := List.exists_of_findSome?_eq_some h
  obtain ⟨⟨steps, behind⟩, hcall, h⟩ := Option.bind_eq_some_iff.1 h
  obtain ⟨named, hnamed, h⟩ := Option.bind_eq_some_iff.1 h
  obtain ⟨⟨own, last⟩, hown, h⟩ := Option.bind_eq_some_iff.1 h
  cases h
  have hcall := length_lt_of_readCall? hcall
  have hnamed := length_of_dropPrefix? hnamed
  have hown := (Shrinks.run1 _ _ _ _ hown).length_le
  omega

/-- What is tested behind `FROM`: in each row of the sources at the beginning of the text, the value
of the expression behind `WHERE`, and what follows the expression. -/
def testsFrom? (text : List Char) (scope : Scope) : Option (List (Option Data × List Char)) :=
  match _hsource : source? text scope with
  | none => none
  | some ((name, elements), rest) =>
    match _hmore : rest.dropPrefix? ", ".toList with
    | some more =>
      (elements.mapM fun d => testsFrom? more (scope.row name d)).map List.flatten
    | none => do
      let expression ← rest.dropPrefix? " WHERE ".toList
      elements.mapM fun d => value? expression (scope.row name d)
termination_by text.length
decreasing_by
  have hrest := length_lt_of_source? _hsource
  have hmore := length_of_dropPrefix? _hmore
  omega

/-- What a condition tests: a value, or one in each row of the sources of its `EXISTS`. Each goes
with the text of the test. -/
def tests? (sql : List Char) (scope : Scope) : Option (List (Option Data × List Char)) :=
  match sql.dropPrefix? "EXISTS (SELECT 1 FROM ".toList with
  | some body => (body.dropSuffix? [')']).bind fun text => testsFrom? text scope
  | none => (value? sql scope).map fun test => [test]

/-- A condition holds when its test holds of some value that it tests. What the text of a test means
for a value, with the parameters bound to it, is given. -/
def HoldsIn (meaning : List Char → List Value → Option Data → Prop) (q : SqlCondition)
    (scope : Scope) : Prop :=
  ∃ tests, tests? q.sql scope = some tests ∧ ∃ t ∈ tests, meaning t.2 q.params t.1

/-! ## Rows -/

section Rows

variable {text expression name : List Char} {sources : List (List Char)} {elements : List Data}
variable {scope : Scope}

theorem mapM_eq_some_map {α β : Type} {f : α → Option β} {g : α → β} {xs : List α}
    (h : ∀ x ∈ xs, f x = some (g x)) : xs.mapM f = some (xs.map g) := by
  induction xs with
  | nil => rfl
  | cons x xs ih =>
      rw [List.mapM_cons, h x List.mem_cons_self, ih fun y hy => h y (List.mem_cons_of_mem x hy)]
      rfl

theorem select?_cons {g : Data → List (Option Data)}
    (h : source? text scope = some ((name, elements), []))
    (hrows : ∀ d ∈ elements, select? expression sources (scope.row name d) = some (g d)) :
    select? expression (text :: sources) scope = some (elements.flatMap g) := by
  rw [select?, h]
  simp only [whole?, Option.bind_some, if_pos, Option.bind_eq_bind]
  rw [mapM_eq_some_map hrows, Option.bind_some, ← List.flatMap_def]
  rfl

/-- What stands behind the first source decides how the text goes on. -/
theorem testsFrom?_of_source? {rest : List Char}
    (h : source? text scope = some ((name, elements), rest)) :
    testsFrom? text scope = match rest.dropPrefix? ", ".toList with
      | some more => (elements.mapM fun d => testsFrom? more (scope.row name d)).map List.flatten
      | none => (rest.dropPrefix? " WHERE ".toList).bind fun expression =>
        elements.mapM fun d => value? expression (scope.row name d) := by
  rw [testsFrom?]
  split
  · rename_i hnone
    cases hnone.symm.trans h
  · rename_i hsome
    cases hsome.symm.trans h
    split
    · rename_i hmore
      rw [hmore]
    · rename_i hmore
      rw [hmore]
      rfl

theorem testsFrom?_more {more : List Char} {g : Data → List (Option Data × List Char)}
    (h : source? text scope = some ((name, elements), ", ".toList ++ more))
    (hrows : ∀ d ∈ elements, testsFrom? more (scope.row name d) = some (g d)) :
    testsFrom? text scope = some (elements.flatMap g) := by
  rw [testsFrom?_of_source? h, List.dropPrefix?_append_of_beq _ (beq_self_eq_true _)]
  simp only [mapM_eq_some_map hrows, Option.map_some, List.flatMap_def]

theorem testsFrom?_where {g : Data → Option Data × List Char}
    (h : source? text scope = some ((name, elements), " WHERE ".toList ++ expression))
    (hrows : ∀ d ∈ elements, value? expression (scope.row name d) = some (g d)) :
    testsFrom? text scope = some (elements.map g) := by
  have hmore : (" WHERE ".toList ++ expression).dropPrefix? ", ".toList = none := rfl
  rw [testsFrom?_of_source? h, hmore, List.dropPrefix?_append_of_beq _ (beq_self_eq_true _)]
  exact mapM_eq_some_map hrows

end Rows

/-! ## Accesses are read back -/

section Accesses

variable {document : List Char} {a : Access} {scope : Scope} {v : Option Data}

theorem readCall?_spellCall (function : String) (document : List Char) (named : a.HasFieldNames)
    (rest : List Char) :
    readCall? function (spellStart document a.source) (spellCall function document a ++ rest) =
      some (a.path, rest) := by
  have hspelling : spellCall function document a ++ rest =
      (function.toList ++ '(' :: (spellStart document a.source ++ ", '".toList)) ++
        (spellPath a.path ++ ("')".toList ++ rest)) := by
    simp [spellCall]
  have hpath : (run0 (· != '\'')).read (spellPath a.path ++ ("')".toList ++ rest)) =
      some (spellPath a.path, "')".toList ++ rest) := by
    refine read_run0_append (fun c hc => ?_) ?_
    · have hquote : '\'' ∉ spellPath a.path := not_mem_spellPath named (by decide)
      exact bne_iff_ne.2 fun h => hquote (h ▸ hc)
    · rintro c ⟨⟩
      rfl
  rw [readCall?, hspelling, List.dropPrefix?_append_of_beq _ (beq_self_eq_true _)]
  simp only [Option.bind_eq_bind, Option.bind_some, hpath, readPath?_spellPath named]
  rw [List.dropPrefix?_append_of_beq _ (beq_self_eq_true _)]
  rfl

/-- The value of an access is read back, whatever test follows. Without a path it is the element of
a source; the document itself is no column. -/
theorem value?_spellValue (named : a.HasFieldNames) (inner : a.source = none → a.path ≠ [])
    (rest : List Char) :
    value? (spellValue document a ++ rest) ((spellStart document a.source, v) :: scope) =
      some (follow a.path v, rest) := by
  have hvalue : valueFrom? (spellStart document a.source) (spellValue document a ++ rest) v =
      some (follow a.path v, rest) := by
    by_cases hpath : a.path = []
    · obtain ⟨n, hn⟩ := Option.ne_none_iff_exists'.1 fun h => inner h hpath
      rw [valueFrom?, spellValue, if_pos hpath, hpath, List.dropPrefix?_append_of_beq _
        (beq_self_eq_true _), hn]
      rfl
    · rw [valueFrom?, spellValue, if_neg hpath, readCall?_spellCall "json_extract" document named]
  simp only [value?, List.findSome?_cons, hvalue]

theorem source?_spellSource (named : a.HasFieldNames) (n : Nat) {rest : List Char}
    (stop : ∀ c ∈ rest.head?, c.isAlphanum = false) :
    source? (spellSource document a n ++ rest) ((spellStart document a.source, v) :: scope) =
      some ((sourceName n, (follow a.path v).elim [] eachValue), rest) := by
  have hsource : sourceFrom? (spellStart document a.source) (spellSource document a n ++ rest) v =
      some ((sourceName n, (follow a.path v).elim [] eachValue), rest) := by
    have hown : (run1 Char.isAlphanum).read (sourceName n ++ rest) = some (sourceName n, rest) :=
      read_run1_append nofun (fun _ => isAlphanum_of_mem_sourceName) stop
    rw [sourceFrom?, spellSource, List.append_assoc, List.append_assoc,
      readCall?_spellCall "json_each" document named]
    simp only [Option.bind_eq_bind, Option.bind_some]
    rw [List.dropPrefix?_append_of_beq _ (beq_self_eq_true _), Option.bind_some, hown]
    rfl
  simp only [source?, List.findSome?_cons, hsource]

end Accesses

end EventQuery.Sqlite
