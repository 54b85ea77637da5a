import EventQuery.Backend.Sqlite
import EventQuery.Proofs.Errors
import EventQuery.Proofs.Sqlite.Column

/-!
# The parts of a leaf's condition

The condition for a leaf is a test behind a column, within `EXISTS` if the column has sources. The
test and what it binds depend on the leaf and the type of its field; the column and the sources
depend on the path.
-/

namespace EventQuery.Sqlite

/-- What stands after the column in the condition for a leaf, and the parameters for it. -/
def leafTest (l : Leaf) (type : ValueType) : Except Refusal (List Char × List Value) :=
  match l.operand with
  | none =>
    if l.operator = .equal then .ok (" IS NULL".toList, [])
    else if l.operator = .notEqual then .ok (" IS NOT NULL".toList, [])
    else .error .nullTest
  | some v =>
    match l.operator with
    | .connective _ => .error .notAComparison
    | .comparison c => (comparison c v type).map fun (test, param) => (test.toList, [param])

/-- What a test is: for a value or its absence, or a comparison. -/
theorem leafTest_cases {l : Leaf} {type : ValueType} {test : List Char} {params : List Value}
    (h : leafTest l type = .ok (test, params)) :
    (l.operand = none ∧ params = [] ∧ (test = " IS NULL".toList ∨ test = " IS NOT NULL".toList)) ∨
      ∃ k v text param, l.operator = .comparison k ∧ l.operand = some v ∧
        comparison k v type = .ok (text, param) ∧ test = text.toList ∧ params = [param] := by
  obtain ⟨path, operator, _ | v⟩ := l
  · unfold leafTest at h
    simp only at h
    split at h
    · cases h
      exact Or.inl ⟨rfl, rfl, Or.inl rfl⟩
    · split at h
      · cases h
        exact Or.inl ⟨rfl, rfl, Or.inr rfl⟩
      · cases h
  · cases operator with
    | connective j => cases h
    | comparison k =>
        obtain ⟨⟨text, param⟩, htext, h⟩ := map_eq_ok_iff.1 h
        cases h
        exact Or.inr ⟨k, v, text, param, rfl, rfl, htext, rfl, rfl⟩

theorem predicate_eq (l : Leaf) (type : ValueType) (column : List Char) :
    predicate l type column =
      (leafTest l type).map fun (test, params) => ⟨column ++ test, params⟩ := by
  obtain ⟨path, operator, _ | v⟩ := l
  · unfold predicate leafTest
    simp only
    split
    · rfl
    · split <;> rfl
  · cases operator with
    | connective j => rfl
    | comparison k =>
        unfold predicate leafTest
        simp only
        cases comparison k v type <;> rfl

@[simp] theorem overSources_params (sources : List (List Char)) (q : SqlCondition) :
    (overSources sources q).params = q.params := by
  unfold overSources
  split <;> rfl

theorem overSources_sql_congr {q q' : SqlCondition} (h : q.sql = q'.sql)
    (sources : List (List Char)) : (overSources sources q).sql = (overSources sources q').sql := by
  unfold overSources
  split
  · exact h
  · simp only [h]

theorem compileLeaf_of_column {document : List Char} {l : Leaf} {x : LeafContext} {c : Column}
    (hc : column? l.path x.openLists = some c) :
    compileLeaf document l x = (leafTest l x.field.type).map fun (test, params) =>
      overSources (spellSources document c) ⟨spellValue document c.value ++ test, params⟩ := by
  rw [compileLeaf, hc]
  simp only [predicate_eq]
  cases leafTest l x.field.type <;> rfl

/-- The condition for a leaf is its test of its column. -/
theorem eq_overSources_of_compileLeaf_ok {document : List Char} {l : Leaf} {x : LeafContext}
    {q : SqlCondition} (h : compileLeaf document l x = .ok q) :
    ∃ c test, column? l.path x.openLists = some c ∧
      leafTest l x.field.type = .ok (test, q.params) ∧
      q = overSources (spellSources document c)
        ⟨spellValue document c.value ++ test, q.params⟩ := by
  cases hc : column? l.path x.openLists with
  | none =>
      rw [compileLeaf, hc] at h
      cases h
  | some c =>
      rw [compileLeaf_of_column hc] at h
      obtain ⟨⟨test, params⟩, htest, rfl⟩ := map_eq_ok_iff.1 h
      rw [overSources_params]
      exact ⟨c, test, rfl, htest, rfl⟩

/-- The text of a comparison comes from the comparison alone: it would be the same for a number in
the place of the operand, which every field can be compared with. -/
theorem comparison_int_ok {k : Comparison} {v : Value} {type : ValueType} {test : String}
    {param : Value} (h : comparison k v type = .ok (test, param)) (n : Int64)
    (type' : ValueType) : ∃ param', comparison k (.int n) type' = .ok (test, param') := by
  have hbound : ∀ text, (do return (text, ← bind v type) : Except Refusal (String × Value)) =
      .ok (test, param) → text = test := by
    intro text h
    obtain ⟨bound, -, h⟩ := bind_eq_ok_iff.1 h
    cases h
    rfl
  rcases k with ⟨r, negated, caseless⟩ | o
  · cases r with
    | equal =>
        cases negated <;> cases caseless <;> exact hbound _ h ▸ ⟨.int n, rfl⟩
    | contains =>
        cases negated <;> cases caseless <;> (cases h; exact ⟨_, rfl⟩)
    | regex => cases h
  · cases o <;> exact hbound _ h ▸ ⟨.int n, rfl⟩

/-- What holds of the texts of all comparisons. -/
theorem test_of_comparison_ok {p : String → Bool}
    (all : ∀ k ∈ Comparison.all, ∀ r ∈ (comparison k (.int 0) .integer).toOption, p r.1 = true)
    {k : Comparison} {v : Value} {type : ValueType} {test : String} {param : Value}
    (h : comparison k v type = .ok (test, param)) : p test = true := by
  obtain ⟨param', h'⟩ := comparison_int_ok h 0 .integer
  refine all k k.mem_all (test, param') ?_
  rw [h']
  rfl

/-- The condition for the conditions of operands. -/
def join? (c : Connective) : List SqlCondition → Option SqlCondition
  | [] => none
  | [q] => some q
  | qs => some (joinConditions c qs)

/-! ## Placeholders -/

theorem count_of_comparison_ok {k : Comparison} {v : Value} {type : ValueType} {test : String}
    {param : Value} (h : comparison k v type = .ok (test, param)) :
    test.toList.count '?' = 1 := by
  have hone := test_of_comparison_ok (p := fun t => t.toList.count '?' == 1) (by decide) h
  exact eq_of_beq hone

/-- A test has one placeholder for the operand, if there is one, and binds it. -/
theorem count_of_leafTest_ok {l : Leaf} {type : ValueType} {test : List Char} {params : List Value}
    (h : leafTest l type = .ok (test, params)) :
    params.length = l.operand.toList.length ∧ test.count '?' = params.length := by
  rcases leafTest_cases h with ⟨hoperand, rfl, rfl | rfl⟩ | ⟨k, v, text, param, -, hoperand, htext,
    rfl, rfl⟩
  · rw [hoperand]
    exact ⟨rfl, rfl⟩
  · rw [hoperand]
    exact ⟨rfl, rfl⟩
  · rw [hoperand]
    exact ⟨rfl, count_of_comparison_ok htext⟩

/-- What holds of a separator and of texts, and is kept when they are appended, holds of the joined
texts. -/
theorem intercalate_preserves {P : List Char → Prop} (nil : P [])
    (append : ∀ t u, P t → P u → P (t ++ u)) {separator : List Char} (hseparator : P separator)
    {texts : List (List Char)} (htexts : ∀ t ∈ texts, P t) : P (separator.intercalate texts) := by
  induction texts with
  | nil => exact nil
  | cons t texts ih =>
      have ht := htexts t List.mem_cons_self
      have hrest := ih fun u hu => htexts u (List.mem_cons_of_mem t hu)
      cases texts with
      | nil => simpa using ht
      | cons u texts =>
          rw [List.intercalate_cons_cons]
          exact append _ _ (append _ _ ht hseparator) hrest

/-- Sources add no placeholders. -/
theorem count_overSources {sources : List (List Char)} (hsources : ∀ t ∈ sources, '?' ∉ t)
    (q : SqlCondition) : (overSources sources q).sql.count '?' = q.sql.count '?' := by
  unfold overSources
  split
  · rfl
  · have hfrom : (", ".toList.intercalate sources).count '?' = 0 :=
      List.count_eq_zero.2 (intercalate_preserves (P := ('?' ∉ ·)) List.not_mem_nil
        (fun _ _ => List.not_mem_append) (by decide) hsources)
    simp only [List.count_append, hfrom]
    simp

/-- The condition for a leaf has one placeholder for the operand, if there is one, and binds it. -/
theorem count_of_compileLeaf_ok {document : List Char} (hdocument : '?' ∉ document) {l : Leaf}
    (named : l.path.HasFieldNames) {x : LeafContext} {q : SqlCondition}
    (h : compileLeaf document l x = .ok q) :
    q.params.length = l.operand.toList.length ∧ q.sql.count '?' = q.params.length := by
  obtain ⟨c, test, hc, htest, hq⟩ := eq_overSources_of_compileLeaf_ok h
  obtain ⟨hlength, hcount⟩ := count_of_leafTest_ok htest
  have hnames : c.HasFieldNames := hasFieldNames_of_columnFrom hc named
  have hsources : ∀ t ∈ spellSources document c, '?' ∉ t :=
    forall_mem_spellSources fun a ha n => not_mem_spellSource hdocument (hnames.sources a ha) n
  have hcolumn := not_mem_spellValue hdocument hnames.value
  refine ⟨hlength, ?_⟩
  rw [hq, count_overSources hsources, overSources_params, List.count_append,
    List.count_eq_zero.2 hcolumn, Nat.zero_add, hcount]

end EventQuery.Sqlite

namespace EventQuery.EntitySchema

theorem lowerLeaf_sqlite_ok_iff {s : EntitySchema} {document : String} {l : Leaf}
    {q : SqlCondition} :
    s.lowerLeaf (Backend.sqlite document) l = .ok q ↔ ∃ f, s.resolve l.path = .ok f ∧
      Sqlite.compileLeaf document.toList l ⟨s.name, f, s.openLists l.path⟩ = .ok q := by
  constructor
  · intro h
    obtain ⟨f, hf, h⟩ := bind_eq_ok_iff.1 h
    exact ⟨f, hf, mapError_eq_ok_iff.1 h⟩
  · rintro ⟨f, hf, h⟩
    exact bind_eq_ok_iff.2 ⟨f, hf, mapError_eq_ok_iff.2 h⟩

theorem lowerJoin_sqlite (document : String) (c : Connective) (qs : List SqlCondition) :
    lowerJoin (Backend.sqlite document) c qs = .ok (Sqlite.join? c qs) := by
  match qs with
  | [] => rfl
  | [q] => rfl
  | x :: y :: zs => rfl

/-- What the backend for SQLite makes of a leaf. -/
theorem compileLeaf_ok_of_lowerLeaf_sqlite {s : EntitySchema} {document : String} {l : Leaf}
    {q : SqlCondition} (h : s.lowerLeaf (Backend.sqlite document) l = .ok q) :
    ∃ f, s.resolve l.path = .ok f ∧
      Sqlite.compileLeaf document.toList l ⟨s.name, f, s.openLists l.path⟩ = .ok q :=
  lowerLeaf_sqlite_ok_iff.1 h

end EventQuery.EntitySchema
