import EventQuery.Proofs.Document.Designation
import EventQuery.Proofs.Sqlite.Chains
import EventQuery.Proofs.Sqlite.Condition

/-!
# Columns read what paths designate

A column is cut from a path at its open lists, and what SQL reads for it in a document are the
values that the path designates there: in their order, each as often as the path leads to it. The
condition for a leaf tests these values and no others, so it holds if and only if some designated
value passes the leaf's test.

The induction is on the segments after the last open list, with those before them already walked:
they wait for the access they will be part of.
-/

namespace EventQuery

/-- Where segments lead when no list among them is open. -/
def Segment.valueAlong (xs : List Segment) (v : Option Data) : Option Data :=
  xs.foldl (fun v x => x.valueIn v) v

theorem Segment.valueAlong_append_singleton (xs : List Segment) (x : Segment) (v : Option Data) :
    valueAlong (xs ++ [x]) v = x.valueIn (valueAlong xs v) := List.foldl_append

namespace Sqlite

theorem follow_append (a b : List Step) (v : Option Data) :
    follow (a ++ b) v = follow b (follow a v) := List.foldl_append

/-- The path of segments leads where they lead. -/
theorem follow_of_jsonPath? {xs : List Segment} {path : List Step} (h : jsonPath? xs = some path)
    (v : Option Data) : follow path v = Segment.valueAlong xs v := by
  induction xs generalizing path v with
  | nil =>
      cases h
      rfl
  | cons x xs ih =>
      rw [jsonPath?_cons] at h
      obtain ⟨a, ha, h⟩ := Option.bind_eq_some_iff.1 h
      obtain ⟨b, hb, rfl⟩ := Option.map_eq_some_iff.1 h
      have hx : follow a v = x.valueIn v := by
        obtain ⟨name, _ | ⟨n | k | _⟩⟩ := x <;> cases ha <;> rfl
      rw [follow_append, hx, ih hb]
      rfl

/-- What a source iterates over are the items of the array that its path leads to. -/
theorem eachValue_follow {pre : List Segment} {x : Segment} {path : List Step} {v : Option Data}
    (h : jsonPath? (pre ++ [x]) = some path)
    (array : (x.valueIn (Segment.valueAlong pre v)).all Data.isArray = true) :
    (follow path v).elim [] eachValue = x.itemsIn (Segment.valueAlong pre v) := by
  rw [follow_of_jsonPath? h, Segment.valueAlong_append_singleton, Segment.itemsIn]
  cases hvalue : x.valueIn (Segment.valueAlong pre v) with
  | none => rfl
  | some list =>
      show eachValue list = list.items
      rw [hvalue] at array
      rw [Data.eq_array_items array]
      rfl

end Sqlite

namespace EntitySchema

open Sqlite

variable (s : EntitySchema) (p : Path)

/-- The open lists among the segments from position `n` on. -/
def openFrom (n : Nat) (xs : List Segment) : List Nat :=
  (xs.zipIdx n).filterMap fun (x, n) => if s.isOpenAt p x n then some n else none

variable {s p}

theorem openFrom_cons_of_open {x : Segment} {n : Nat} (h : s.isOpenAt p x n = true)
    (xs : List Segment) : s.openFrom p n (x :: xs) = n :: s.openFrom p (n + 1) xs := by
  simp [openFrom, List.zipIdx_cons, h]

theorem openFrom_cons_of_closed {x : Segment} {n : Nat} (h : s.isOpenAt p x n = false)
    (xs : List Segment) : s.openFrom p n (x :: xs) = s.openFrom p (n + 1) xs := by
  simp [openFrom, List.zipIdx_cons, h]

/-- The column of the segments `pre ++ xs` has the values that they designate, no list among `pre`
being open. -/
theorem valuesThrough_columnFrom {xs : List Segment} (pre : List Segment) (source : Option Nat)
    (start : Nat) (v : Option Data) {c : Column}
    (arrays : s.listsHoldFrom p (start + pre.length) xs (Segment.valueAlong pre v) = true)
    (hc : columnFrom source start (pre ++ xs) (s.openFrom p (start + pre.length) xs) = some c) :
    valuesThrough c.value c.sources v =
      s.designatedFrom p (start + pre.length) xs (Segment.valueAlong pre v) := by
  induction xs generalizing pre source start v c with
  | nil =>
      obtain ⟨path, hpath, rfl⟩ := Option.map_eq_some_iff.1 hc
      rw [List.append_nil] at hpath
      rw [valuesThrough, designatedFrom, follow_of_jsonPath? hpath]
  | cons x xs ih =>
      by_cases hopen : s.isOpenAt p x (start + pre.length) = true
      · rw [openFrom_cons_of_open hopen] at hc
        obtain ⟨path, below, hpath, hbelow, rfl⟩ := columnFrom_append_cons hc
        rw [listsHoldFrom, if_pos hopen] at arrays
        obtain ⟨hlist, hitems⟩ := Bool.and_eq_true_iff.1 arrays
        rw [designatedFrom, if_pos hopen, valuesThrough, eachValue_follow hpath hlist]
        -- below the list, the column starts from an item and has no segment behind it
        refine List.flatMap_congr fun item hitem => ?_
        exact ih [] (some (nextSource source)) (start + pre.length + 1) (some item)
          (List.all_eq_true.1 hitems item hitem) hbelow
      · have hclosed : s.isOpenAt p x (start + pre.length) = false := by simpa using hopen
        have hlength : start + (pre ++ [x]).length = start + pre.length + 1 := by
          rw [List.length_append, List.length_singleton, Nat.add_assoc]
        rw [listsHoldFrom, if_neg hopen, ← Segment.valueAlong_append_singleton, ← hlength] at arrays
        rw [openFrom_cons_of_closed hclosed, List.append_cons, ← hlength] at hc
        rw [designatedFrom, if_neg hopen, ← Segment.valueAlong_append_singleton, ← hlength]
        exact ih (pre ++ [x]) source start v arrays hc

/-- A path without keys has a column. In a document that holds arrays in the place of the lists on
the path, its values in the rows of its sources are the values that the path designates, one for
one. The condition for a leaf at the path tests these values, one for one, and its test is what the
predicate of the leaf puts behind any column. So whatever tests mean, the condition holds if and
only if the test holds of a designated value. -/
theorem select_column_eq_designated {s : EntitySchema} {p : Path} {d : Data} (document : String)
    (named : p.HasFieldNames) (unkeyed : ∀ x ∈ p.segments, ∀ k, x.index ≠ some (.key k))
    (arrays : s.listsHold p d = true) :
    ∃ c, column? p (s.openLists p) = some c ∧
      select? (spellValue document.toList c.value) (spellSources document.toList c)
        [(document.toList, some d)] = some (s.designated p d) ∧
      ∀ l q, l.path = p → s.lowerLeaf (Backend.sqlite document) l = .ok q →
        ∃ f test, s.resolve p = .ok f ∧
          (∀ column, predicate l f.type column = .ok ⟨column ++ test, q.params⟩) ∧
          tests? q.sql [(document.toList, some d)] =
            some ((s.designated p d).map (·, test)) ∧
          ∀ meaning, HoldsIn meaning q [(document.toList, some d)] ↔
            ∃ v ∈ s.designated p d, meaning test q.params v := by
  obtain ⟨c, hc⟩ := Option.isSome_iff_exists.1 (isSome_columnFrom unkeyed none 0 (s.openLists p))
  have chain : IsChain c.value c.sources none := isChain_of_columnFrom hc fun _ => p.segments_ne_nil
  have hnames : c.HasFieldNames := hasFieldNames_of_columnFrom hc named
  have hvalues : valuesThrough c.value c.sources (some d) = s.designated p d :=
    valuesThrough_columnFrom [] none 0 (some d) arrays hc
  refine ⟨c, hc, ?_, ?_⟩
  · rw [← hvalues]
    exact select?_eq_valuesThrough chain hnames.value hnames.sources (some d) []
  · rintro l q rfl hlower
    obtain ⟨f, hf, hcompile⟩ := compileLeaf_ok_of_lowerLeaf_sqlite hlower
    obtain ⟨c', test, hc', htest, hq⟩ := eq_overSources_of_compileLeaf_ok hcompile
    cases hc.symm.trans hc'
    have htests : tests? q.sql [(document.toList, some d)] =
        some ((s.designated l.path d).map (·, test)) := by
      rw [hq, ← hvalues]
      exact tests?_overSources chain hnames test q.params (some d)
    refine ⟨f, test, hf, fun column => ?_, htests, fun meaning => ?_⟩
    · rw [predicate_eq, htest]
      rfl
    · simp [HoldsIn, htests]

/-- Open ports of the nodes of a source: the last port of every node is tested, and one node has
none. -/
theorem select_column_eq_designated_nested :
    let p : Path :=
      ⟨[.plain "source", ⟨"node", some .any⟩, ⟨"port", some (.position (-1))⟩], by simp⟩
    let s := ((empty "event").declareField p.canonical (.ofType .integer)).declareList
      (.single "source") .first |>.declareList ((Path.single "source").child "node") .first
    let ports := Data.record [("port", .array [.int 80, .int 443])]
    let d := Data.record [("source", .array [.record [("node", .array [ports, .record []])],
      .record []])]
    p.HasFieldNames ∧ (∀ x ∈ p.segments, ∀ k, x.index ≠ some (.key k)) ∧ s.listsHold p d = true ∧
      (∃ c, column? p (s.openLists p) = some c ∧ c.sources.length = 2 ∧
        select? (spellValue "document".toList c.value) (spellSources "document".toList c)
          [("document".toList, some d)] = some [some (.int 443), none]) ∧
      ∃ q, s.lowerLeaf (Backend.sqlite "document") ⟨p, .equal, some (.int 443)⟩ = .ok q ∧
        q.text = "EXISTS (SELECT 1 FROM json_each(document, '$.source') AS each0, " ++
          "json_each(each0.value, '$.node') AS each1 " ++
          "WHERE json_extract(each1.value, '$.port[#-1]') = ?)" ∧
        ∀ meaning, HoldsIn meaning q [("document".toList, some d)] ↔
          meaning " = ?".toList [.int 443] (some (.int 443)) ∨
            meaning " = ?".toList [.int 443] none := by
  intro p s ports d
  have named : p.HasFieldNames := by decide
  have unkeyed : ∀ x ∈ p.segments, ∀ k, x.index ≠ some (.key k) := by simp [p, Segment.plain]
  have arrays : s.listsHold p d = true := by decide +kernel
  have hdesignated : s.designated p d = [some (.int 443), none] := by rfl
  have hfacts : (s.lowerLeaf (Backend.sqlite "document") ⟨p, .equal, some (.int 443)⟩).toOption.any
      (fun q => decide (q.text =
        "EXISTS (SELECT 1 FROM json_each(document, '$.source') AS each0, " ++
          "json_each(each0.value, '$.node') AS each1 " ++
          "WHERE json_extract(each1.value, '$.port[#-1]') = ?)")) = true := by
    decide +kernel
  obtain ⟨q, hlower, htext⟩ := exists_ok_of_any hfacts
  obtain ⟨c, hc, hselect, hleaf⟩ := select_column_eq_designated "document" named unkeyed arrays
  obtain ⟨f, test, -, hpredicate, -, hholds⟩ := hleaf _ q rfl hlower
  have hequal : predicate ⟨p, .equal, some (.int 443)⟩ f.type [] =
      .ok ⟨" = ?".toList, [.int 443]⟩ := by rfl
  obtain ⟨rfl, hparams⟩ :=
    SqlCondition.mk.inj (Except.ok.inj (hequal.symm.trans (hpredicate [])))
  rw [hdesignated] at hselect hholds
  have hsources : (column? p (s.openLists p)).map (·.sources.length) = some 2 := by decide +kernel
  rw [hc] at hsources
  refine ⟨named, unkeyed, arrays, ⟨c, hc, Option.some.inj hsources, hselect⟩, q, hlower,
    of_decide_eq_true htext, fun meaning => ?_⟩
  rw [hholds meaning, ← hparams]
  simp

end EntitySchema

end EventQuery
