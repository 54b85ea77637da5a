import EventQuery.Proofs.Criterion.Evaluation
import EventQuery.Proofs.Errors

/-!
# Replacing the leaves of a criterion

Replacing leaves can fail. Whether it does, and with which error, depends on the list of leaves
only; when it does not, it is a total substitution.

Flattening commutes with substitution even though a leaf may become a join or nothing at all: joins
that appear or vanish in this way are flattened in the end, and what was flattened before only
changed where the operands stand, not which they are.
-/

namespace EventQuery.Criterion

section Substitute

variable (g : Leaf → Criterion)

@[simp] theorem substitute_empty : empty.substitute g = empty := rfl

@[simp] theorem substitute_leaf (l : Leaf) : (leaf l).substitute g = g l := rfl

@[simp] theorem substitute_join (c : Connective) (cs : List Criterion) :
    (join c cs).substitute g = join c (substituteAll g cs) := rfl

@[simp] theorem substituteAll_nil : substituteAll g [] = [] := rfl

@[simp] theorem substituteAll_cons (a : Criterion) (as : List Criterion) :
    substituteAll g (a :: as) = a.substitute g :: substituteAll g as := rfl

theorem substituteAll_eq (cs : List Criterion) :
    substituteAll g cs = cs.map (substitute g) := by
  induction cs with
  | nil => rfl
  | cons a as ih => rw [substituteAll_cons, ih, List.map_cons]

theorem leaves_substitute (a : Criterion) :
    (a.substitute g).leaves = a.leaves.flatMap fun l => (g l).leaves := by
  induction a with
  | empty => rfl
  | leaf l => simp
  | join c cs ih =>
      rw [substitute_join, leaves_join, leaves_join, substituteAll_eq, List.flatMap_map,
        List.flatMap_assoc, List.flatMap_def, List.flatMap_def, List.map_congr_left ih]

theorem substitute_congr {h : Leaf → Criterion} {a : Criterion}
    (same : ∀ l ∈ a.leaves, g l = h l) : a.substitute g = a.substitute h := by
  induction a with
  | empty => rfl
  | leaf l => exact same l (List.mem_singleton_self l)
  | join c cs ih =>
      rw [leaves_join] at same
      rw [substitute_join, substitute_join, substituteAll_eq, substituteAll_eq,
        List.map_congr_left fun a ha => ih a ha fun l hl => same l (List.mem_flatMap_of_mem ha hl)]

/-- A leaf's truth may be read off the criterion that replaces it. -/
theorem eval_substitute {v w : Leaf → Bool} {a : Criterion}
    (h : ∀ l ∈ a.leaves, (g l).eval v = some (w l)) : (a.substitute g).eval v = a.eval w := by
  induction a with
  | empty => rfl
  | leaf l => exact h l (List.mem_singleton_self l)
  | join c cs ih =>
      rw [leaves_join] at h
      have htruths : truths v (substituteAll g cs) = truths w cs := by
        rw [substituteAll_eq, truths_eq, truths_eq, List.flatMap_map]
        refine List.flatMap_congr fun a ha => ?_
        rw [ih a ha fun l hl => h l (List.mem_flatMap_of_mem ha hl)]
      rw [substitute_join, eval_join, eval_join, htruths]

/-! ## Flattening before substitution -/

theorem flattenOperands_append (c : Connective) (xs ys : List Criterion) :
    flattenOperands c (xs ++ ys) = flattenOperands c xs ++ flattenOperands c ys := by
  simp only [flattenOperands_eq, List.flatMap_append]

theorem flatten_substitute_joinAll (c : Connective) (xs : List Criterion) :
    ((joinAll c xs).substitute g).flatten = joinAll c (flattenOperands c (substituteAll g xs)) := by
  match xs with
  | [] => rfl
  | [x] =>
      rw [substituteAll_cons, substituteAll_nil, flattenOperands_cons, flattenOperands_nil,
        List.append_nil, joinAll_operandsUnder (isFlat_flatten _)]
      rfl
  | x :: y :: zs => rfl

/-- Substitution in the operands of a criterion gives the operands of the substituted one. -/
theorem flattenOperands_substituteAll_operandsUnder (c : Connective) (a : Criterion) :
    flattenOperands c (substituteAll g (a.operandsUnder c)) =
      (a.substitute g).flatten.operandsUnder c := by
  cases a with
  | empty => rfl
  | leaf l =>
      show (g l).flatten.operandsUnder c ++ [] = (g l).flatten.operandsUnder c
      rw [List.append_nil]
  | join d ds =>
      by_cases hd : d = c
      · subst hd
        rw [operandsUnder, if_pos rfl, substitute_join, operandsUnder_flatten_join]
      · rw [operandsUnder, if_neg hd, substituteAll_cons, substituteAll_nil, flattenOperands_cons,
          flattenOperands_nil, List.append_nil]

/-- Flattening first makes no difference to a substitution that is flattened afterwards. -/
theorem flatten_substitute_flatten (a : Criterion) :
    (a.flatten.substitute g).flatten = (a.substitute g).flatten := by
  induction a with
  | empty => rfl
  | leaf l => rfl
  | join c cs ih =>
      have hops : flattenOperands c (substituteAll g (flattenOperands c cs)) =
          flattenOperands c (substituteAll g cs) := by
        induction cs with
        | nil => rfl
        | cons a as ihas =>
            rw [flattenOperands_cons, substituteAll_eq, List.map_append, flattenOperands_append,
              ← substituteAll_eq, ← substituteAll_eq, flattenOperands_substituteAll_operandsUnder,
              ih a List.mem_cons_self, ihas fun b hb => ih b (List.mem_cons_of_mem a hb),
              substituteAll_cons, flattenOperands_cons]
      rw [flatten_join, flatten_substitute_joinAll, hops, substitute_join, flatten_join]

end Substitute

/-! ## Leaves for leaves -/

section Relabel

variable (f : Leaf → Leaf)

/-- The criterion with a leaf in the place of each. -/
def relabel (a : Criterion) : Criterion := a.substitute fun l => leaf (f l)

@[simp] theorem relabel_leaf (l : Leaf) : (leaf l).relabel f = leaf (f l) := rfl

theorem relabel_join (c : Connective) (cs : List Criterion) :
    (join c cs).relabel f = join c (cs.map (relabel f)) :=
  congrArg (join c) (substituteAll_eq _ cs)

theorem leaves_relabel (a : Criterion) : (a.relabel f).leaves = a.leaves.map f := by
  rw [relabel, leaves_substitute]
  exact List.map_eq_flatMap.symm

theorem relabel_ne_empty {a : Criterion} (h : a ≠ empty) : a.relabel f ≠ empty := by
  cases a with
  | empty => exact h
  | leaf l => exact nofun
  | join c cs => exact nofun

theorem relabel_joinAll (c : Connective) (xs : List Criterion) :
    (joinAll c xs).relabel f = joinAll c (xs.map (relabel f)) := by
  match xs with
  | [] => rfl
  | [x] => rfl
  | x :: y :: zs => exact relabel_join f c (x :: y :: zs)

theorem relabel_combine (c : Connective) (a b : Criterion) :
    (combine c a b).relabel f = combine c (a.relabel f) (b.relabel f) := by
  cases a <;> cases b <;> rfl

theorem relabel_foldl_combine (c : Connective) (a : Criterion) (as : List Criterion) :
    (as.foldl (combine c) a).relabel f = (as.map (relabel f)).foldl (combine c) (a.relabel f) := by
  induction as generalizing a with
  | nil => rfl
  | cons b as ih => rw [List.foldl_cons, ih, relabel_combine, List.map_cons, List.foldl_cons]

theorem relabel_congr {g : Leaf → Leaf} {a : Criterion} (same : ∀ l ∈ a.leaves, f l = g l) :
    a.relabel f = a.relabel g :=
  substitute_congr _ fun l hl => congrArg leaf (same l hl)

theorem relabel_id (a : Criterion) : a.relabel id = a := by
  induction a with
  | empty => rfl
  | leaf l => rfl
  | join c cs ih =>
      rw [relabel_join]
      exact congrArg (join c) ((List.map_congr_left ih).trans cs.map_id)

theorem substitute_relabel (g : Leaf → Criterion) (a : Criterion) :
    (a.relabel f).substitute g = a.substitute fun l => g (f l) := by
  induction a with
  | empty => rfl
  | leaf l => rfl
  | join c cs ih =>
      rw [relabel_join, substitute_join, substitute_join, substituteAll_eq, substituteAll_eq,
        List.map_map]
      exact congrArg (join c) (List.map_congr_left ih)

theorem relabel_relabel (g : Leaf → Leaf) (a : Criterion) :
    (a.relabel f).relabel g = a.relabel fun l => g (f l) :=
  substitute_relabel f (fun l => leaf (g l)) a

theorem relabel_substitute (g : Leaf → Criterion) (a : Criterion) :
    (a.substitute g).relabel f = a.substitute fun l => (g l).relabel f := by
  induction a with
  | empty => rfl
  | leaf l => rfl
  | join c cs ih =>
      rw [substitute_join, relabel_join, substitute_join, substituteAll_eq, substituteAll_eq,
        List.map_map]
      exact congrArg (join c) (List.map_congr_left ih)

theorem isProperUnder_relabel {c : Connective} {a : Criterion} (h : a.IsProperUnder c) :
    (a.relabel f).IsProperUnder c := by
  cases a with
  | empty => exact absurd rfl h.1
  | leaf l => exact ⟨nofun, nofun⟩
  | join d ds => exact ⟨nofun, h.2⟩

theorem isFlat_relabel {a : Criterion} (h : a.IsFlat) : (a.relabel f).IsFlat := by
  induction h with
  | empty => exact .empty
  | leaf l => exact .leaf (f l)
  | @join c cs two flat proper ih =>
      rw [relabel_join]
      refine .join ?_ (List.forall_mem_map.2 ih) (List.forall_mem_map.2 fun a ha => ?_)
      · rwa [List.length_map]
      · exact isProperUnder_relabel f (proper a ha)

/-- Flattening does not look at leaves. -/
theorem flatten_relabel (a : Criterion) : (a.relabel f).flatten = a.flatten.relabel f := by
  rw [relabel, ← flatten_substitute_flatten]
  exact flatten_of_isFlat (isFlat_relabel f a.isFlat_flatten)

end Relabel

/-! ## Substitution that can fail -/

/-- Going through the leaves of all operands is going through the operands. -/
theorem forM_flatMap_leaves {ε : Type} (g : Leaf → Except ε Unit) (cs : List Criterion) :
    (cs.flatMap leaves).forM g = cs.forM fun a => a.leaves.forM g := by
  induction cs with
  | nil => rfl
  | cons a as ih =>
      simp only [List.forM_eq_forM] at ih ⊢
      rw [List.flatMap_cons, List.forM_append, ih, List.forM_cons]

section MapLeaves

variable {ε : Type} (f : Leaf → Except ε Criterion)

/-- The criterion in place of a leaf, where there is one. -/
def imageOf (l : Leaf) : Criterion :=
  match f l with
  | .ok a => a
  | .error _ => empty

/-- The first error that the leaves give, if any. -/
def tryLeaves (a : Criterion) : Except ε Unit := a.leaves.forM fun l => do let _ ← f l

variable {f}

theorem imageOf_of_ok {l : Leaf} {a : Criterion} (h : f l = .ok a) : imageOf f l = a := by
  rw [imageOf, h]

/-- There is no error exactly when every leaf is replaced. -/
theorem tryLeaves_ok_iff {a : Criterion} :
    tryLeaves f a = .ok () ↔ ∀ l ∈ a.leaves, ∃ b, f l = .ok b := by
  simp only [tryLeaves, forM_eq_ok_iff, discard_eq_ok_iff]

theorem forM_tryLeaves (cs : List Criterion) :
    (cs.flatMap leaves).forM (fun l => do let _ ← f l) = cs.forM (tryLeaves f) :=
  forM_flatMap_leaves _ cs

theorem mapLeaves_eq (a : Criterion) :
    a.mapLeaves f = (tryLeaves f a).map fun _ => a.substitute (imageOf f) := by
  induction a with
  | empty => rfl
  | leaf l =>
      show f l = _
      cases h : f l with
      | error e => simp [tryLeaves, h, bind, Except.bind, Except.map]
      | ok a => simp [tryLeaves, h, bind, Except.bind, Except.map, pure, Except.pure, imageOf]
  | join c cs ih =>
      have hall : mapLeavesOfAll f cs =
          (cs.forM (tryLeaves f)).map fun _ => substituteAll (imageOf f) cs := by
        induction cs with
        | nil => rfl
        | cons a as ihas =>
            have has := ihas fun b hb => ih b (List.mem_cons_of_mem a hb)
            rw [mapLeavesOfAll, ih a List.mem_cons_self, has, List.forM_eq_forM, List.forM_cons]
            cases tryLeaves f a with
            | error e => rfl
            | ok u => cases forM as (tryLeaves f) <;> rfl
      have htry : tryLeaves f (join c cs) = cs.forM (tryLeaves f) := by
        rw [tryLeaves, leaves_join, forM_tryLeaves]
      rw [mapLeaves, hall, htry]
      cases cs.forM (tryLeaves f) <;> rfl

end MapLeaves

end EventQuery.Criterion
