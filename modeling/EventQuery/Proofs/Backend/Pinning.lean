import EventQuery.Proofs.Backend.Calls
import Mathlib.Data.List.Forall2

/-!
# Pinned lists

A leaf that excludes events must not be read element by element: that some element is different
does not say that none is alike. Preparation therefore pins the open lists on its path, and a
backend never sees a negative leaf with an open list.

The lists that are open on a path and the segments that pinning changes are found by two walks over
the leading parts of the path. Both look a list up without indices, so that the pinned path is
walked as the path itself, and what one walk reports the other has changed.
-/

namespace EventQuery

theorem Path.canonical_upTo (p : Path) (n : Nat) : (p.upTo n).canonical = p.canonical.upTo n := by
  ext1
  simp

namespace EntitySchema

variable (s : EntitySchema)

/-- The indices of a path do not matter to what is a list on it. -/
theorem list?_congr {p q : Path} (h : p.canonical = q.canonical) : s.list? p = s.list? q := by
  rw [list?, list?, h]

theorem list?_upTo_pin (p : Path) (n : Nat) : s.list? ((s.pin p).upTo n) = s.list? (p.upTo n) := by
  apply s.list?_congr
  rw [Path.canonical_upTo, Path.canonical_upTo, canonical_pin]

theorem mem_openLists_iff {p : Path} {n : Nat} :
    n ∈ s.openLists p ↔ ∃ x spec, p.segments[n]? = some x ∧ x.isExplicit = false ∧
      s.list? (p.upTo n) = some spec := by
  rw [openLists, List.mem_filterMap]
  constructor
  · intro h
    obtain ⟨⟨x, k⟩, hx, hopen⟩ := h
    obtain ⟨hcond, heq⟩ := Option.ite_none_right_eq_some.1 hopen
    cases heq
    obtain ⟨hexplicit, hlist⟩ := Bool.and_eq_true_iff.1 hcond
    obtain ⟨spec, hspec⟩ := Option.isSome_iff_exists.1 hlist
    exact ⟨x, spec, List.mem_zipIdx_iff_getElem?.1 hx, by simpa using hexplicit, hspec⟩
  · intro h
    obtain ⟨x, spec, hx, hexplicit, hspec⟩ := h
    refine ⟨(x, n), List.mem_zipIdx_iff_getElem?.2 hx, ?_⟩
    simp [hexplicit, isList, hspec]

/-! ## Pinning -/

theorem getElem?_segments_pin (p : Path) (n : Nat) :
    (s.pin p).segments[n]? = p.segments[n]?.map fun x =>
      match s.list? (p.upTo n) with
      | some spec =>
        if x.isExplicit then x else { x with index := some (.position spec.default.position) }
      | none => x := by
  exact List.getElem?_mapIdx

/-- Where no list is open, pinning changes nothing. -/
theorem getElem?_segments_pin_of_not_mem {p : Path} {n : Nat} (h : n ∉ s.openLists p) :
    (s.pin p).segments[n]? = p.segments[n]? := by
  rw [getElem?_segments_pin]
  cases hx : p.segments[n]? with
  | none => rfl
  | some x =>
      cases hlist : s.list? (p.upTo n) with
      | none => rfl
      | some spec =>
          have hexplicit : x.isExplicit = true := by
            apply Decidable.byContradiction
            intro hnot
            exact h (s.mem_openLists_iff.2 ⟨x, spec, hx, Bool.eq_false_iff.2 hnot, hlist⟩)
          simp [hexplicit]

theorem pin_of_openLists_eq_nil {p : Path} (h : s.openLists p = []) : s.pin p = p := by
  ext1
  apply List.ext_getElem?
  intro n
  apply s.getElem?_segments_pin_of_not_mem
  rw [h]
  exact List.not_mem_nil

/-- Every list on a pinned path has an element picked. -/
theorem openLists_pin (p : Path) : s.openLists (s.pin p) = [] := by
  apply List.eq_nil_iff_forall_not_mem.2
  intro n hn
  obtain ⟨y, spec, hy, hopen, hspec⟩ := s.mem_openLists_iff.1 hn
  rw [list?_upTo_pin] at hspec
  rw [getElem?_segments_pin, hspec] at hy
  obtain ⟨x, -, hxy⟩ := Option.map_eq_some_iff.1 hy
  by_cases hexplicit : x.isExplicit = true
  · have hkept : x = y := by simpa [hexplicit] using hxy
    rw [← hkept, hexplicit] at hopen
    cases hopen
  · have hpinned : { x with index := some (.position spec.default.position) } = y := by
      simpa [hexplicit] using hxy
    rw [← hpinned] at hopen
    cases hopen

/-- The path `q` is `p` with its open lists pinned. The two differ where `p` has an open list and
nowhere else, and there `q` picks the first or the last element, as the list has it. -/
structure IsPinned (p q : Path) : Prop where
  differ : ∀ n : Nat, q.segments[n]? ≠ p.segments[n]? ↔ n ∈ s.openLists p
  picked : ∀ n ∈ s.openLists p, ∃ (x : Segment) (spec : ListSpec), p.segments[n]? = some x ∧
    s.list? (p.upTo n) = some spec ∧ q.segments[n]? = some ⟨x.name, some (.position
      (match spec.default with
        | .first => 0
        | .last => -1))⟩
  kept : ∀ (n : Nat) (x : Segment), p.segments[n]? = some x → x.isExplicit = true →
    q.segments[n]? = some x

theorem isPinned_pin (p : Path) : s.IsPinned p (s.pin p) := by
  have picked : ∀ n ∈ s.openLists p, ∃ x spec, p.segments[n]? = some x ∧ x.isExplicit = false ∧
      s.list? (p.upTo n) = some spec ∧ (s.pin p).segments[n]? =
        some ⟨x.name, some (.position spec.default.position)⟩ := by
    intro n hn
    obtain ⟨x, spec, hx, hopen, hspec⟩ := s.mem_openLists_iff.1 hn
    refine ⟨x, spec, hx, hopen, hspec, ?_⟩
    rw [getElem?_segments_pin, hx, hspec]
    simp [hopen]
  refine ⟨?_, ?_, ?_⟩
  · intro n
    constructor
    · intro hdiffer
      apply Decidable.byContradiction
      intro hn
      exact hdiffer (s.getElem?_segments_pin_of_not_mem hn)
    · intro hn heq
      obtain ⟨x, spec, hx, hopen, -, hpinned⟩ := picked n hn
      rw [hpinned, hx, Option.some.injEq] at heq
      rw [← heq] at hopen
      cases hopen
  · intro n hn
    obtain ⟨x, spec, hx, -, hspec, hpinned⟩ := picked n hn
    refine ⟨x, spec, hx, hspec, hpinned.trans ?_⟩
    cases spec.default <;> rfl
  · intro n x hx hexplicit
    rw [s.getElem?_segments_pin_of_not_mem, hx]
    intro hn
    obtain ⟨y, spec, hy, hopen, -⟩ := s.mem_openLists_iff.1 hn
    cases hx.symm.trans hy
    rw [hexplicit] at hopen
    cases hopen

/-! ## Prepared leaves -/

theorem pinLeaf_path_of_negative {l : Leaf} (h : l.isNegative = true) :
    (s.pinLeaf l).path = s.pin l.path := by
  unfold pinLeaf
  split
  · rfl
  · rename_i hcond
    have hclosed : s.openLists l.path = [] := by simpa [h, isAmbiguous] using hcond
    exact (s.pin_of_openLists_eq_nil hclosed).symm

theorem pinLeaf_of_positive {l : Leaf} (h : l.isNegative = false) : s.pinLeaf l = l := by
  rw [pinLeaf, h, Bool.false_and, if_neg Bool.false_ne_true]

@[simp] theorem isNegative_preparedLeaf (l : Leaf) :
    (s.preparedLeaf l).isNegative = l.isNegative := by
  rw [Leaf.isNegative, Leaf.isNegative, isSome_operand_preparedLeaf, preparedLeaf_operator]

theorem isNegative_emptyTextLeaf (l : Leaf) : (s.emptyTextLeaf l).isNegative = false := rfl

/-- A negative leaf is only made from a negative one, and has no open list. -/
theorem openLists_of_mem_preparedLeaves {l m : Leaf} (hl : l ∈ s.preparedLeaves m)
    (negative : l.isNegative = true) : s.openLists l.path = [] := by
  cases s.mem_preparedLeaves hl with
  | inl h =>
      rw [h, isNegative_preparedLeaf] at negative
      rw [h, preparedLeaf_path, s.pinLeaf_path_of_negative negative, openLists_pin]
  | inr h =>
      rw [h.2, isNegative_emptyTextLeaf] at negative
      cases negative

theorem openLists_of_prepare_ok {c r : Criterion} (h : s.prepare c = .ok r) :
    ∀ l ∈ r.leaves, l.isNegative = true → s.openLists l.path = [] := by
  intro l hl negative
  obtain ⟨m, -, hl, -⟩ := s.exists_leaf_of_prepare_ok h hl
  exact s.openLists_of_mem_preparedLeaves hl negative

/-- The leaf `l` belongs to the field of `m`. It has the path of `m`, with the open lists pinned if
`m` excludes events. -/
structure HasPathOf (l m : Leaf) : Prop where
  canonical : l.path.canonical = m.path.canonical
  positive : m.isNegative = false → l.path = m.path
  negative : m.isNegative = true → s.IsPinned m.path l.path

theorem hasPathOf_of_mem_preparedLeaves {l m : Leaf} (hl : l ∈ s.preparedLeaves m) :
    s.HasPathOf l m where
  canonical := s.canonical_of_mem_preparedLeaves hl
  positive h := by rw [s.path_of_mem_preparedLeaves hl, s.pinLeaf_of_positive h]
  negative h := by
    rw [s.path_of_mem_preparedLeaves hl, s.pinLeaf_path_of_negative h]
    exact s.isPinned_pin m.path

/-- Preparation makes some leaves of each leaf, in order, and pins the paths of those made of
negative leaves. No negative leaf that it makes has an open list, and so no negative leaf that
reaches a backend does. -/
theorem prepare_pins_negative_leaves {c r : Criterion} (h : s.prepare c = .ok r) :
    (∀ l ∈ r.leaves, l.isNegative = true → s.openLists l.path = []) ∧
      (∀ (ε : Type) (b : Backend ε) (l : Leaf) (x : LeafContext) (answer : Except QueryError ε),
        .leaf l x answer ∈ (s.recordedCompile b c).2 → x.openLists ≠ [] →
          l.isNegative = false) ∧
      ∃ made : List (List Leaf), r.leaves = made.flatten ∧
        List.Forall₂ (fun m ls => (∃ a, s.prepareLeaf m = .ok a ∧ a.leaves = ls) ∧
          ∀ l ∈ ls, s.HasPathOf l m) c.leaves made := by
  refine ⟨s.openLists_of_prepare_ok h, ?_, c.leaves.map s.preparedLeaves, ?_, ?_⟩
  · intro ε b l x answer called hopen
    have hcalls := (s.recordedCompile_spec b c).2.2 r h
    obtain ⟨-, -, hlists, -⟩ := hcalls.genuine _ called
    apply Decidable.byContradiction
    intro negative
    apply hopen
    rw [hlists]
    apply s.openLists_of_prepare_ok h l (hcalls.mem_of_leaf called)
    simpa using negative
  · rw [s.leaves_of_prepare_ok h, List.flatMap_def]
  · apply List.forall₂_map_right_iff.2
    apply List.forall₂_same.2
    intro m hm
    obtain ⟨f, hf⟩ := (s.prepare_ok_iff.1 h).1 m hm
    refine ⟨⟨_, s.prepareLeaf_of_ok hf, ?_⟩, fun l hl => s.hasPathOf_of_mem_preparedLeaves hl⟩
    simp [List.flatMap_map]

/-- The last node of the first source, with an index that means nothing on the name; and any name of
a node of the second source, which is absent or empty. -/
theorem prepare_pins_negative_leaves_nested :
    let s := (((empty "event").declareList (.single "source") .first).declareList
      ((Path.single "source").child "node") .last).declareField
      (((Path.single "source").child "node").child "name") (.ofType .text)
    let path (i j k : Option Index) : Path :=
      ⟨[⟨"source", i⟩, ⟨"node", j⟩, ⟨"name", k⟩], by simp⟩
    let c : Criterion := .join .or
      [.leaf ⟨path (some .any) none (some .any), .notEqual, some (.text "x")⟩,
        .leaf (.absent (path (some (.position 1)) none none)),
        .leaf (.present (path none none none))]
    ∃ r, s.prepare c = .ok r ∧
      r.leaves.map Leaf.path =
        [path (some (.position 0)) (some (.position (-1))) (some .any),
          path (some (.position 1)) (some (.position (-1))) none,
          path (some (.position 1)) (some (.position (-1))) none, path none none none] ∧
      (∀ l ∈ r.leaves, l.isNegative = true → s.openLists l.path = []) ∧
      ∃ made : List (List Leaf), r.leaves = made.flatten ∧
        List.Forall₂ (fun m ls => (∃ a, s.prepareLeaf m = .ok a ∧ a.leaves = ls) ∧
          ∀ l ∈ ls, s.HasPathOf l m) c.leaves made := by
  intro s path c
  obtain ⟨r, hr, hpaths⟩ : ∃ r, s.prepare c = .ok r ∧ r.leaves.map Leaf.path =
      [path (some (.position 0)) (some (.position (-1))) (some .any),
        path (some (.position 1)) (some (.position (-1))) none,
        path (some (.position 1)) (some (.position (-1))) none, path none none none] :=
    ⟨_, rfl, rfl⟩
  obtain ⟨hclosed, -, hmade⟩ := s.prepare_pins_negative_leaves hr
  exact ⟨r, hr, hpaths, hclosed, hmade⟩

end EntitySchema

end EventQuery
