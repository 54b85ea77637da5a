import EventQuery.Proofs.Sqlite.Rows
import EventQuery.Proofs.Sqlite.Column

/-!
# Columns are chains of accesses

The sources of a column form a chain: each starts from the element of the one before it, and the
value from the element of the last. Along the chain a value of the document leads to values of the
column, and these are what SQL reads, both from the column with its sources and from the condition
that is made of them.
-/

namespace EventQuery.Sqlite

/-- The values that a column has for a value that its sources start from. -/
def valuesThrough (value : Access) : List Access → Option Data → List (Option Data)
  | [], v => [follow value.path v]
  | a :: sources, v =>
    ((follow a.path v).elim [] eachValue).flatMap fun d => valuesThrough value sources (some d)

/-- Each access starts from the source before it, the first one from the given source. Only in a
source may there be nothing left to follow. -/
def IsChain (value : Access) : List Access → Option Nat → Prop
  | [], source => value.source = source ∧ (value.source = none → value.path ≠ [])
  | a :: sources, source => a.source = source ∧ IsChain value sources (some (nextSource source))

/-- The text of sources that are numbered from `n` on. -/
def spellSourcesFrom (document : List Char) (n : Nat) (sources : List Access) : List (List Char) :=
  (sources.zipIdx n).map fun (a, n) => spellSource document a n

@[simp] theorem spellSourcesFrom_nil (document : List Char) (n : Nat) :
    spellSourcesFrom document n [] = [] := rfl

theorem spellSourcesFrom_cons (document : List Char) (n : Nat) (a : Access)
    (sources : List Access) :
    spellSourcesFrom document n (a :: sources) =
      spellSource document a n :: spellSourcesFrom document (n + 1) sources := by
  rw [spellSourcesFrom, List.zipIdx_cons]
  rfl

/-! ## Columns are chains -/

theorem isChain_of_columnFrom {xs : List Segment} {source : Option Nat} {start : Nat}
    {openLists : List Nat} {c : Column} (h : columnFrom source start xs openLists = some c)
    (ne : source = none → xs ≠ []) : IsChain c.value c.sources source := by
  induction openLists generalizing xs source start c with
  | nil =>
      obtain ⟨path, hpath, rfl⟩ := Option.map_eq_some_iff.1 h
      exact ⟨rfl, fun hnone => ne_nil_of_jsonPath? hpath (ne hnone)⟩
  | cons stop openLists ih =>
      obtain ⟨path, -, h⟩ := Option.bind_eq_some_iff.1 h
      obtain ⟨below, hbelow, h⟩ := Option.bind_eq_some_iff.1 h
      cases h
      exact ⟨rfl, ih hbelow nofun⟩

/-! ## Chains are read back -/

variable {document : List Char} {value : Access} {sources : List Access} {source : Option Nat}

/-- SQL reads the values of a chain from the value in the rows of the sources. -/
theorem select?_eq_valuesThrough (chain : IsChain value sources source)
    (hvalue : value.HasFieldNames) (hsources : ∀ a ∈ sources, a.HasFieldNames) (v : Option Data)
    (scope : Scope) :
    select? (spellValue document value) (spellSourcesFrom document (nextSource source) sources)
      ((spellStart document source, v) :: scope) = some (valuesThrough value sources v) := by
  induction sources generalizing source v scope with
  | nil =>
      obtain ⟨rfl, inner⟩ := chain
      have hread : value? (spellValue document value ++ [])
          ((spellStart document value.source, v) :: scope) = some (follow value.path v, []) :=
        value?_spellValue hvalue inner []
      rw [List.append_nil] at hread
      rw [spellSourcesFrom_nil, select?, hread]
      rfl
  | cons a sources ih =>
      obtain ⟨rfl, chain⟩ := chain
      obtain ⟨ha, hsources⟩ := List.forall_mem_cons.1 hsources
      have hend : ∀ c ∈ ([] : List Char).head?, c.isAlphanum = false := by
        rintro c ⟨⟩
      rw [spellSourcesFrom_cons, valuesThrough, ← List.append_nil (spellSource _ _ _)]
      exact select?_cons (source?_spellSource ha _ hend) fun d _ => ih chain hsources (some d) _

/-- Behind `FROM`, a chain is tested on the values that SQL reads for it, each time with the same
test. -/
theorem testsFrom?_eq_valuesThrough {a : Access} (chain : IsChain value (a :: sources) source)
    (hvalue : value.HasFieldNames) (hsources : ∀ b ∈ a :: sources, b.HasFieldNames)
    (test : List Char) (v : Option Data) (scope : Scope) :
    testsFrom? (", ".toList.intercalate
          (spellSourcesFrom document (nextSource source) (a :: sources)) ++
        (" WHERE ".toList ++ (spellValue document value ++ test)))
      ((spellStart document source, v) :: scope) =
        some ((valuesThrough value (a :: sources) v).map (·, test)) := by
  induction sources generalizing a source v scope with
  | nil =>
      obtain ⟨rfl, hsource, inner⟩ := chain
      obtain ⟨ha, -⟩ := List.forall_mem_cons.1 hsources
      have hstop : ∀ c ∈ (" WHERE ".toList ++ (spellValue document value ++ test)).head?,
          c.isAlphanum = false := by
        rintro c ⟨⟩
        decide
      have hvalues : (valuesThrough value [a] v).map (·, test) =
          ((follow a.path v).elim [] eachValue).map fun d =>
            (follow value.path (some d), test) := by
        simp [valuesThrough, ← List.map_eq_flatMap]
      rw [spellSourcesFrom_cons, spellSourcesFrom_nil, List.intercalate_singleton, hvalues]
      refine testsFrom?_where (source?_spellSource ha _ hstop) fun d _ => ?_
      have hread : value? (spellValue document value ++ test)
          ((spellStart document value.source, some d) :: (spellStart document a.source, v) ::
            scope) = some (follow value.path (some d), test) :=
        value?_spellValue hvalue inner test
      rw [hsource] at hread
      exact hread
  | cons b sources ih =>
      obtain ⟨rfl, chain⟩ := chain
      obtain ⟨ha, hsources⟩ := List.forall_mem_cons.1 hsources
      rw [spellSourcesFrom_cons, spellSourcesFrom_cons, List.intercalate_cons_cons,
        ← spellSourcesFrom_cons, List.append_assoc, List.append_assoc, valuesThrough,
        List.map_flatMap]
      refine testsFrom?_more (source?_spellSource ha _ ?_) fun d _ => ih chain hsources (some d) _
      rintro c ⟨⟩
      decide

theorem sql_overSources_cons (source : List Char) (sources : List (List Char)) (q : SqlCondition) :
    (overSources (source :: sources) q).sql =
      "EXISTS (SELECT 1 FROM ".toList ++
        (", ".toList.intercalate (source :: sources) ++ (" WHERE ".toList ++ q.sql) ++ [')']) := by
  simp [overSources]

/-- The condition on a column tests the values of its chain. -/
theorem tests?_overSources {c : Column} (chain : IsChain c.value c.sources none)
    (named : c.HasFieldNames) (test : List Char) (params : List Value) (v : Option Data) :
    tests? (overSources (spellSources document c) ⟨spellValue document c.value ++ test, params⟩).sql
        [(document, v)] =
      some ((valuesThrough c.value c.sources v).map (·, test)) := by
  obtain ⟨sources, value⟩ := c
  cases sources with
  | nil =>
      obtain ⟨hsource, inner⟩ := chain
      -- a path within the document is never empty, so the text begins with a call
      have hcall : spellValue document value = spellCall "json_extract" document value :=
        if_neg (inner hsource)
      have hexists : (spellValue document value ++ test).dropPrefix?
          "EXISTS (SELECT 1 FROM ".toList = none := by
        rw [hcall]
        rfl
      have hread : value? (spellValue document value ++ test)
          [(spellStart document value.source, v)] = some (follow value.path v, test) :=
        value?_spellValue named.value inner test
      rw [hsource] at hread
      show tests? (spellValue document value ++ test) _ = _
      rw [tests?, hexists]
      exact congrArg (Option.map _) hread
  | cons a sources =>
      have hfrom : testsFrom? (", ".toList.intercalate
            (spellSourcesFrom document 0 (a :: sources)) ++
          (" WHERE ".toList ++ (spellValue document value ++ test))) [(document, v)] =
            some ((valuesThrough value (a :: sources) v).map (·, test)) :=
        testsFrom?_eq_valuesThrough chain named.value named.sources test v []
      have hclose : ∀ body : List Char, (body ++ [')']).dropSuffix? [')'] = some body :=
        fun body => List.dropSuffix?_eq_some_iff.2 ⟨_, rfl, rfl⟩
      rw [spellSourcesFrom_cons] at hfrom
      show tests? (overSources (spellSource document a 0 ::
        spellSourcesFrom document 1 sources) _).sql _ = _
      rw [sql_overSources_cons, tests?, List.dropPrefix?_append_of_beq _ (beq_self_eq_true _)]
      simp only [hclose, Option.bind_some]
      exact hfrom

end EventQuery.Sqlite
