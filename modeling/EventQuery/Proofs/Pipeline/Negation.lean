import EventQuery.Proofs.Criterion.Algebra
import EventQuery.Proofs.Pipeline.Expansion

/-!
# Expansion and negation

Negating a leaf turns it from one that selects events into one that excludes them, so that its
targets are joined by the other connective, and expansion commutes with negation by De Morgan's
laws. A comparison of order is the exception. Its opposite selects events as it does itself: both
become alternatives of targets, and an event of which one target is less and another is not is
found by either.
-/

namespace EventQuery

namespace Criterion

theorem negate_foldl_combine (c : Connective) (a : Criterion) (as : List Criterion) :
    (as.foldl (combine c) a).negate = (as.map negate).foldl (combine c.negate) a.negate := by
  induction as generalizing a with
  | nil => rfl
  | cons b as ih => rw [List.foldl_cons, ih, negate_combine, List.map_cons, List.foldl_cons]

/-- A substitution that negates what replaces a leaf when it negates the leaf commutes with
negation. -/
theorem substitute_negate {g : Leaf → Criterion} {a : Criterion}
    (negates : ∀ l ∈ a.leaves, g l.negate = (g l).negate) :
    a.negate.substitute g = (a.substitute g).negate := by
  induction a with
  | empty => rfl
  | leaf l => exact negates l (List.mem_singleton_self l)
  | join c cs ih =>
      have hoperands : (cs.map negate).map (substitute g) = (cs.map (substitute g)).map negate := by
        rw [List.map_map, List.map_map]
        exact List.map_congr_left fun a ha => ih a ha fun l hl => negates l (mem_leaves_join ha hl)
      rw [negate_join, substitute_join, substitute_join, negate_join, substituteAll_eq,
        substituteAll_eq, hoperands]

theorem flattenOperands_map_leaf (c : Connective) (ls : List Leaf) :
    flattenOperands c (ls.map leaf) = ls.map leaf := by
  induction ls with
  | nil => rfl
  | cons l ls ih => rw [List.map_cons, flattenOperands_cons, ih]; rfl

theorem joinAll_of_two (c : Connective) {xs : List Criterion} (two : 2 ≤ xs.length) :
    joinAll c xs = join c xs := by
  match xs, two with
  | x :: y :: zs, _ => rfl

end Criterion

namespace Expansion

variable (e : Expansion) (l : Leaf)

theorem leafOn_negate (p : Path) : e.leafOn l.negate p = (e.leafOn l p).negate := rfl

variable {l}

theorem connective_negate (h : l.negate.isNegative = !l.isNegative) :
    connective l.negate = (connective l).negate := by
  rw [connective, connective, h]
  cases l.isNegative <;> rfl

theorem connective_negate_of_isOrdering (h : l.operator.isOrdering = true) :
    connective l.negate = connective l := by
  rw [connective, connective, Leaf.isNegative_negate_of_isOrdering h]

end Expansion

namespace EntitySchema

variable {s : EntitySchema} {l : Leaf} {e : Expansion}

/-! ## Leaves that negation turns round -/

/-- Strict expansion of a leaf on a logical field joins the leaf on each of the targets. -/
theorem expandLeaf_strict (h : s.expansion? l.path.text = some e) :
    s.expandLeaf false l =
      (e.targets.map fun p => .leaf (e.leafOn l p)).foldl
        (Criterion.combine (Expansion.connective l)) .empty := by
  rw [s.expandLeaf_of_some h, List.map_map]
  rfl

theorem expandLeaf_negate
    (turned : ∀ e, s.expansion? l.path.text = some e → l.negate.isNegative = !l.isNegative) :
    s.expandLeaf false l.negate = (s.expandLeaf false l).negate := by
  cases h : s.expansion? l.path.text with
  | none =>
      rw [s.expandLeaf_of_none h, s.expandLeaf_of_none (l := l.negate) h]
      rfl
  | some e =>
      rw [expandLeaf_strict h, expandLeaf_strict (l := l.negate) h,
        Criterion.negate_foldl_combine, Expansion.connective_negate (turned e h), List.map_map]
      rfl

theorem expand_negate_of_turned {c : Criterion}
    (turned : ∀ l ∈ c.leaves, ∀ e, s.expansion? l.path.text = some e →
      l.negate.isNegative = !l.isNegative) :
    s.expand false c.negate = (s.expand false c).negate := by
  have hsubstitute := Criterion.substitute_negate (g := s.expandLeaf false) (a := c)
    fun l hl => expandLeaf_negate (turned l hl)
  rw [expand, hsubstitute, Criterion.flatten_negate, expand]

/-! ## Comparisons of order -/

theorem expand_leaf (h : s.expansion? l.path.text = some e) :
    s.expand false (.leaf l) =
      .joinAll (Expansion.connective l) ((e.targets.map (e.leafOn l)).map .leaf) := by
  rw [expand, Criterion.substitute_leaf, expandLeaf_strict h, Criterion.flatten_foldl_combine,
    Criterion.flatten_join, Criterion.flattenOperands_cons, Criterion.flatten_empty,
    ← Criterion.flattenOperands_map_leaf, List.map_map]
  rfl

/-- Truth for leaves with one operator at one path, and for those with others at all other paths. -/
def onlyAt (p : Path) (o : Operator) (l : Leaf) : Bool :=
  decide (l.path = p) == decide (l.operator = o)

theorem onlyAt_negate (p : Path) {o : Operator} {l : Leaf} (h : l.operator = o) :
    onlyAt p o l.negate = !onlyAt p o l := by
  simp [onlyAt, h, Leaf.negate, o.negate_ne]

/-- Negation is lost on the leaf when its field is expanded. -/
structure LosesNegation (s : EntitySchema) (l : Leaf) (e : Expansion) : Prop where
  /-- The leaf and its negation are joined on the targets by the same connective. -/
  joined : ∃ k,
    s.expand false (.leaf l) = .join k ((e.targets.map (e.leafOn l)).map .leaf) ∧
    s.expand false (Criterion.leaf l).negate =
      .join k ((e.targets.map (e.leafOn l.negate)).map .leaf)
  differs : s.expand false (Criterion.leaf l).negate ≠ (s.expand false (.leaf l)).negate
  /-- If two targets differ, the two may be true together, or false together, although no leaf
  on a target is as true as its negation. -/
  agree : ∀ p ∈ e.targets, ∀ q ∈ e.targets, p ≠ q → ∃ v b,
    (∀ m ∈ (s.expand false (.leaf l)).leaves, v m.negate = !v m) ∧
      (s.expand false (.leaf l)).eval v = some b ∧
      (s.expand false (Criterion.leaf l).negate).eval v = some b

/-- If targets do not agree on the leaf, the connective decides. -/
theorem eval_expand_leaf (h : s.expansion? l.path.text = some e) {v : Leaf → Bool} {p q : Path}
    (hp : p ∈ e.targets) (holds : v (e.leafOn l p) = true)
    (hq : q ∈ e.targets) (fails : v (e.leafOn l q) = false) :
    (s.expand false (.leaf l)).eval v = some (Expansion.connective l == .or) := by
  have htrue : true ∈ (e.targets.map (e.leafOn l)).map v :=
    List.mem_map.2 ⟨_, List.mem_map_of_mem hp, holds⟩
  have hfalse : false ∈ (e.targets.map (e.leafOn l)).map v :=
    List.mem_map.2 ⟨_, List.mem_map_of_mem hq, fails⟩
  rw [expand_leaf h, Criterion.eval_joinAll, Criterion.truths_map_leaf,
    Connective.holds?_of_ne_nil _ (List.ne_nil_of_mem htrue),
    Connective.holds_of_mem _ htrue hfalse]

/-- A comparison of order loses its negation wherever its field has more than one target. -/
theorem losesNegation_of_isOrdering (h : s.expansion? l.path.text = some e)
    (two : 2 ≤ e.targets.length) (ordering : l.operator.isOrdering = true) :
    s.LosesNegation l e := by
  have hconnective := Expansion.connective_negate_of_isOrdering ordering
  have hleaf : s.expand false (.leaf l) =
      .join (Expansion.connective l) ((e.targets.map (e.leafOn l)).map .leaf) :=
    (expand_leaf h).trans (Criterion.joinAll_of_two _ (by simpa using two))
  have hnegated : s.expand false (Criterion.leaf l).negate =
      .join (Expansion.connective l) ((e.targets.map (e.leafOn l.negate)).map .leaf) :=
    hconnective ▸ (expand_leaf (l := l.negate) h).trans
      (Criterion.joinAll_of_two _ (by simpa using two))
  refine ⟨⟨_, hleaf, hnegated⟩, ?_, ?_⟩
  · intro heq
    rw [hnegated, hleaf, Criterion.negate_join] at heq
    exact Connective.negate_ne _ (Criterion.join.inj heq).1.symm
  · intro p hp q hq hne
    refine ⟨onlyAt p l.operator, Expansion.connective l == .or, ?_, ?_, ?_⟩
    · intro m hm
      rw [hleaf, Criterion.leaves_join, List.flatMap_map, List.flatMap_map] at hm
      obtain ⟨t, -, hm⟩ := List.mem_flatMap.1 hm
      rw [List.mem_singleton.1 hm]
      exact onlyAt_negate p rfl
    · exact eval_expand_leaf h hp (by simp [onlyAt]) hq (by simp [onlyAt, hne.symm])
    · rw [← hconnective]
      refine eval_expand_leaf (l := l.negate) h hq ?_ hp ?_
      · rw [e.leafOn_negate, onlyAt_negate p (e.leafOn_operator l q)]
        simp [onlyAt, hne.symm]
      · rw [e.leafOn_negate, onlyAt_negate p (e.leafOn_operator l p)]
        simp [onlyAt]

/-- Strict expansion commutes with negation where no leaf on a logical field compares by order, or
bears a connective. A leaf that compares by order is expanded as its negation is. -/
theorem expand_negate (s : EntitySchema) :
    (∀ c : Criterion,
      (∀ l ∈ c.leaves, (s.expansion? l.path.text).isSome = true →
        l.operator.isOrdering = false ∧ l.operator.isConnective = false) →
      s.expand false c.negate = (s.expand false c).negate) ∧
    ∀ (l : Leaf) (e : Expansion), s.expansion? l.path.text = some e → 2 ≤ e.targets.length →
      l.operator.isOrdering = true → s.LosesNegation l e := by
  constructor
  · intro c turned
    refine expand_negate_of_turned fun l hl e he => ?_
    obtain ⟨hordering, hconnective⟩ := turned l hl (by rw [he, Option.isSome_some])
    exact Leaf.isNegative_negate hordering hconnective
  · intro l e h two ordering
    exact losesNegation_of_isOrdering h two ordering

/-- A title without a word beside a name before another, in a join of each kind; and a title before
a word. -/
theorem expand_negate_title :
    let without : Leaf :=
      ⟨.single "title", .comparison (.relation .contains true false), some (.text "x")⟩
    let before (field : String) : Leaf :=
      ⟨.single field, .comparison (.order .less), some (.text "m")⟩
    let c : Criterion := .join .or [.leaf without,
      .join .and [.leaf (before "name"), .leaf (.absent (.single "title"))]]
    let targets := [Path.single "name", Path.single "text"]
    withTitle.expansion? (before "title").path.text = some (.ofTargets targets) ∧
      withTitle.expand false c.negate = (withTitle.expand false c).negate ∧
      withTitle.expand false c = .join .or
        [.join .and (targets.map fun p => .leaf { without with path := p }),
          .join .and (.leaf (before "name") :: targets.map fun p => .leaf (.absent p))] ∧
      withTitle.LosesNegation (before "title") (.ofTargets targets) := by
  intro without before c targets
  obtain ⟨hcommutes, hloses⟩ := expand_negate withTitle
  have hexpansion : withTitle.expansion? (before "title").path.text = some (.ofTargets targets) :=
    rfl
  exact ⟨hexpansion, hcommutes c (by decide), rfl, hloses _ _ hexpansion (by decide) rfl⟩

end EntitySchema

end EventQuery
