import EventQuery.Proofs.Sqlite.Literals

/-!
# Operands stay out of the SQL

The SQL of a criterion is the SQL of its shape, which has the same number in the place of every
operand. This holds for a test of a column, since the text of a comparison does not depend on what
is compared, and from there for leaves, for joins and for what preparation makes of a criterion.
-/

namespace EventQuery

/-- The leaf with its operand forgotten. -/
def Leaf.shape (l : Leaf) : Leaf := { l with operand := l.operand.map fun _ => .int 0 }

/-- What is left of a criterion when the operands of its leaves are forgotten. -/
def Criterion.shape (a : Criterion) : Criterion := a.relabel Leaf.shape

/-- The shape is what a leaf has besides the value of its operand. -/
theorem Leaf.shape_eq_iff {l m : Leaf} :
    l.shape = m.shape ↔ l.path = m.path ∧ l.operator = m.operator ∧
      l.operand.isSome = m.operand.isSome := by
  obtain ⟨path, operator, _ | v⟩ := l <;> obtain ⟨path', operator', _ | v'⟩ := m <;>
    simp [Leaf.shape]

/-! ## Preparation -/

@[simp] theorem Leaf.isNegative_shape (l : Leaf) : l.shape.isNegative = l.isNegative := by
  simp [Leaf.isNegative, Leaf.shape]

namespace EntitySchema

variable (s : EntitySchema)

theorem pinLeaf_shape (l : Leaf) : s.pinLeaf l.shape = (s.pinLeaf l).shape := by
  unfold pinLeaf
  rw [Leaf.isNegative_shape]
  show (if l.isNegative && s.isAmbiguous l.path then _ else _) = _
  split <;> rfl

theorem isTextAbsence_shape (l : Leaf) : s.isTextAbsence l.shape = s.isTextAbsence l := by
  simp [isTextAbsence, Leaf.shape]

theorem shape_preparedLeaf (l : Leaf) :
    (s.preparedLeaf l.shape).shape = (s.preparedLeaf l).shape := by
  refine Leaf.shape_eq_iff.2 ⟨?_, ?_, ?_⟩
  · rw [preparedLeaf_path, preparedLeaf_path, pinLeaf_shape]
    rfl
  · rw [preparedLeaf_operator, preparedLeaf_operator]
    rfl
  · rw [isSome_operand_preparedLeaf, isSome_operand_preparedLeaf]
    exact Option.isSome_map

theorem map_shape_preparedLeaves (l : Leaf) :
    (s.preparedLeaves l.shape).map Leaf.shape = (s.preparedLeaves l).map Leaf.shape := by
  unfold preparedLeaves
  rw [isTextAbsence_shape]
  split
  · simp only [List.map_cons, shape_preparedLeaf, emptyTextLeaf, pinLeaf_shape]
    rfl
  · simp only [List.map_cons, shape_preparedLeaf, List.map_nil]

variable {s}

/-- The shape of a prepared criterion depends on the shape of the criterion only. -/
theorem shape_of_prepare_ok {c r : Criterion} (h : s.prepare c = .ok r) :
    r.shape = (c.shape.substitute fun l =>
      .joinAll .or (((s.preparedLeaves l).map Leaf.shape).map .leaf)).flatten := by
  obtain ⟨-, rfl⟩ := s.prepare_ok_iff.1 h
  unfold Criterion.shape
  rw [← Criterion.flatten_relabel, Criterion.relabel_substitute, Criterion.substitute_relabel]
  congr 2
  funext l
  rw [Criterion.relabel_joinAll, map_shape_preparedLeaves, List.map_map, List.map_map]
  rfl

end EntitySchema

/-! ## Texts of conditions -/

namespace Sqlite

theorem leafTest_shape {l : Leaf} {type : ValueType} {test : List Char} {params : List Value}
    (h : leafTest l type = .ok (test, params)) :
    ∃ params', leafTest l.shape type = .ok (test, params') := by
  obtain ⟨path, operator, _ | v⟩ := l
  · exact ⟨params, h⟩
  · cases operator with
    | connective j => cases h
    | comparison k =>
        obtain ⟨⟨text, param⟩, htext, h⟩ := map_eq_ok_iff.1 h
        cases h
        obtain ⟨param', htext'⟩ := comparison_int_ok htext 0 type
        exact ⟨[param'], map_eq_ok_iff.2 ⟨(text, param'), htext', rfl⟩⟩

theorem compileLeaf_shape {document : List Char} {l : Leaf} {x : LeafContext} {q : SqlCondition}
    (h : compileLeaf document l x = .ok q) :
    ∃ q', compileLeaf document l.shape x = .ok q' ∧ q'.sql = q.sql := by
  obtain ⟨c, test, hc, htest, hq⟩ := eq_overSources_of_compileLeaf_ok h
  obtain ⟨params', htest'⟩ := leafTest_shape htest
  have hcolumn : column? l.shape.path x.openLists = some c := hc
  refine ⟨_, (compileLeaf_of_column hcolumn).trans (map_eq_ok_iff.2 ⟨_, htest', rfl⟩), ?_⟩
  rw [hq]
  refine overSources_sql_congr ?_ (spellSources document c)
  rfl

/-- The text for the texts of operands. -/
def joinText? (c : Connective) : List (List Char) → Option (List Char)
  | [] => none
  | [t] => some t
  | ts => some ('(' :: ((connectiveText c).toList.intercalate ts ++ [')']))

theorem sql_join? (c : Connective) (qs : List SqlCondition) :
    (join? c qs).map (·.sql) = joinText? c (qs.map (·.sql)) := by
  match qs with
  | [] => rfl
  | [q] => rfl
  | x :: y :: zs => rfl

end Sqlite

namespace EntitySchema

open Sqlite

variable {s : EntitySchema} {document : String}

/-- A criterion's SQL is that of its shape. -/
theorem lower_shape {r : Criterion} {e? : Option SqlCondition}
    (h : s.lower (Backend.sqlite document) r = .ok e?) :
    ∃ e'?, s.lower (Backend.sqlite document) r.shape = .ok e'? ∧
      e'?.map (·.sql) = e?.map (·.sql) := by
  refine s.lower_induct ⟨none, rfl, rfl⟩ (fun l e he => ?_) (fun c cs es? e? hes hjoin => ?_) h
  · obtain ⟨f, hf, hcompile⟩ := lowerLeaf_sqlite_ok_iff.1 he
    obtain ⟨e', hcompile', hsql⟩ := compileLeaf_shape hcompile
    have he' : s.lowerLeaf (Backend.sqlite document) l.shape = .ok e' :=
      lowerLeaf_sqlite_ok_iff.2 ⟨f, hf, hcompile'⟩
    exact ⟨some e', map_eq_ok_iff.2 ⟨e', he', rfl⟩, congrArg some hsql⟩
  · have hoperands : ∃ es'?,
        List.Forall₂ (fun a e? => s.lower (Backend.sqlite document) a = .ok e?)
          (cs.map Criterion.shape) es'? ∧
        (es'?.flatMap Option.toList).map (·.sql) = (es?.flatMap Option.toList).map (·.sql) := by
      clear hjoin
      induction hes with
      | nil => exact ⟨[], .nil, rfl⟩
      | cons he hes ih =>
          obtain ⟨e'?, he', hsql⟩ := he
          obtain ⟨es'?, hes', hsqls⟩ := ih
          refine ⟨e'? :: es'?, .cons he' hes', ?_⟩
          rw [List.flatMap_cons, List.flatMap_cons, List.map_append, List.map_append, hsqls,
            ← Option.toList_map, ← Option.toList_map, hsql]
    obtain ⟨es'?, hes', hsqls⟩ := hoperands
    rw [lowerJoin_sqlite] at hjoin
    cases hjoin
    refine ⟨join? c (es'?.flatMap Option.toList), ?_, ?_⟩
    · rw [Criterion.shape, Criterion.relabel_join]
      exact bind_eq_ok_iff.2 ⟨_, s.lowerAll_ok_iff.2 ⟨es'?, hes', rfl⟩, lowerJoin_sqlite _ _ _⟩
    · rw [sql_join?, sql_join?, hsqls]

/-- Criteria of the same shape have the same SQL. -/
theorem sql_of_compile_ok {c d : Criterion} (shape : c.shape = d.shape)
    {q? q'? : Option SqlCondition} (hc : s.compile (Backend.sqlite document) c = .ok q?)
    (hd : s.compile (Backend.sqlite document) d = .ok q'?) :
    q?.map (·.sql) = q'?.map (·.sql) := by
  obtain ⟨r, hr, hlower⟩ := bind_eq_ok_iff.1 hc
  obtain ⟨r', hr', hlower'⟩ := bind_eq_ok_iff.1 hd
  obtain ⟨e?, he, hsql⟩ := lower_shape hlower
  obtain ⟨e'?, he', hsql'⟩ := lower_shape hlower'
  rw [shape_of_prepare_ok hr, shape, ← shape_of_prepare_ok hr', he'] at he
  cases he
  exact hsql.symm.trans hsql'

/-- Operands never reach the SQL. Criteria that differ in nothing but the values of their operands
have the same SQL, and every literal in it is the text of a JSON path or belongs to the escape
clause of `LIKE`. -/
theorem sql_hides_operands (hliteral : '\'' ∉ document.toList) (hname : '"' ∉ document.toList)
    {c d : Criterion} (parsed : ∀ l ∈ c.leaves, ∃ text, Path.parse text = .ok l.path)
    (shape : c.shape = d.shape) {q? q'? : Option SqlCondition}
    (hc : s.compile (Backend.sqlite document) c = .ok q?)
    (hd : s.compile (Backend.sqlite document) d = .ok q'?) :
    q?.map (·.sql) = q'?.map (·.sql) ∧
      ∀ q ∈ q?, ∃ ts, lex? q.sql = some ts ∧ KnownLiterals ts := by
  refine ⟨sql_of_compile_ok shape hc hd, fun q hq => ?_⟩
  obtain ⟨r, hr, hlower⟩ := bind_eq_ok_iff.1 hc
  have named := s.hasFieldNames_of_prepare_ok hr parsed
  obtain ⟨ts, hlexes, hknown⟩ := quotesPaths_of_lower_ok ⟨hliteral, hname⟩ named hlower q hq
  exact ⟨ts, hlexes.lex?_eq, hknown⟩

/-- An operand with an apostrophe, and a name that a path quotes. -/
theorem sql_hides_operands_apostrophe :
    let s := ((empty "event").declareField (.single "name") (.ofType .text)).declareField
      (.single "size-1") (.ofType .integer)
    let criterion (v w : Value) : Criterion := .join .and
      [.leaf ⟨.single "name", .comparison (.relation .contains false true), some v⟩,
        .leaf ⟨.single "size-1", .equal, some w⟩]
    let c := criterion (.text "x' OR 1=1 --") (.int 3)
    let d := criterion (.int 7) (.text "12")
    '\'' ∉ "document".toList ∧ '"' ∉ "document".toList ∧
      (∀ l ∈ c.leaves, ∃ text, Path.parse text = .ok l.path) ∧ c.shape = d.shape ∧
      ∃ q q', s.compile (Backend.sqlite "document") c = .ok (some q) ∧
        s.compile (Backend.sqlite "document") d = .ok (some q') ∧
        q.text = "(json_extract(document, '$.name') LIKE ? ESCAPE '\\' AND " ++
          "json_extract(document, '$.\"size-1\"') = ?)" ∧
        q.params = [.text "%x' OR 1=1 --%", .int 3] ∧ q'.params = [.text "%7%", .int 12] ∧
        q.sql = q'.sql ∧ ∃ ts, lex? q.sql = some ts ∧ KnownLiterals ts := by
  intro s criterion c d
  have hliteral : '\'' ∉ "document".toList := by decide
  have hname : '"' ∉ "document".toList := by decide
  have parsed : ∀ l ∈ c.leaves, ∃ text, Path.parse text = .ok l.path := by
    have named : ∀ l ∈ c.leaves, l.path.HasFieldNames := by decide
    exact fun l hl => ⟨_, Path.parse_text (named l hl)⟩
  have shape : c.shape = d.shape := rfl
  have hc : (s.compile (Backend.sqlite "document") c).toOption.any (fun q? => q?.any fun q =>
      decide (q.text = "(json_extract(document, '$.name') LIKE ? ESCAPE '\\' AND " ++
          "json_extract(document, '$.\"size-1\"') = ?)" ∧
        q.params = [.text "%x' OR 1=1 --%", .int 3])) = true := by
    decide +kernel
  have hd : (s.compile (Backend.sqlite "document") d).toOption.any (fun q? => q?.any fun q =>
      decide (q.params = [.text "%7%", .int 12])) = true := by
    decide +kernel
  obtain ⟨q?, hc, hfacts⟩ := exists_ok_of_any hc
  obtain ⟨q'?, hd, hfacts'⟩ := exists_ok_of_any hd
  obtain ⟨q, rfl, hq⟩ := (Option.any_eq_true _ _).1 hfacts
  obtain ⟨q', rfl, hq'⟩ := (Option.any_eq_true _ _).1 hfacts'
  obtain ⟨htext, hparams⟩ := of_decide_eq_true hq
  obtain ⟨hsql, hlex⟩ := sql_hides_operands hliteral hname parsed shape hc hd
  exact ⟨hliteral, hname, parsed, shape, q, q', hc, hd, htext, hparams, of_decide_eq_true hq',
    Option.some.inj hsql, hlex q rfl⟩

end EntitySchema

end EventQuery
