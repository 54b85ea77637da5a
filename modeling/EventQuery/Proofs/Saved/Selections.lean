import EventQuery.Proofs.Saved.Criteria
import EventQuery.Saved.Selection

/-!
# Saved selections are read back

A selection is told by its data, with whatever names, words and constants: what is left out when
there is nothing to extract or no command is filled in again. Each call nests its arguments two
levels deeper, a record and an array, and the reader of JSON goes 127 levels deep, of which the
selection itself takes one. So the JSON text of a selection is read back if its expression takes no
more than 126 levels, and is malformed otherwise; and no expression with more of them is ever read.
-/

namespace EventQuery

namespace Selection.Expr

mutual

/-- The constants of an expression, from left to right. -/
def constants : Expr → List Value
  | path _ => []
  | call _ args => constantsOfAll args
  | constant v => [v]

def constantsOfAll : List Expr → List Value
  | [] => []
  | e :: es => e.constants ++ constantsOfAll es

end

mutual

/-- The levels that an expression takes as data: two for each call, and one for what is no call. -/
def levels : Expr → Nat
  | call _ args => levelsOfAll args + 2
  | _ => 1

def levelsOfAll : List Expr → Nat
  | [] => 0
  | e :: es => max e.levels (levelsOfAll es)

end

@[elab_as_elim, induction_eliminator]
theorem induct {motive : Expr → Prop} (path : ∀ p, motive (path p))
    (call : ∀ f args, (∀ e ∈ args, motive e) → motive (call f args))
    (constant : ∀ v, motive (constant v)) (e : Expr) : motive e := by
  refine @Expr.rec motive (fun es => ∀ e ∈ es, motive e) path call constant ?_ ?_ e
  · exact nofun
  · intro head tail hhead htail e he
    rcases List.mem_cons.1 he with rfl | he
    · exact hhead
    · exact htail e he

@[simp] theorem paths_call (f : String) (args : List Expr) :
    (call f args).paths = args.flatMap paths := by
  rw [paths]
  induction args with
  | nil => rfl
  | cons e es ih => rw [pathsOfAll, ih, List.flatMap_cons]

@[simp] theorem constants_path (p : Path) : (path p).constants = [] := rfl

@[simp] theorem constants_call (f : String) (args : List Expr) :
    (call f args).constants = args.flatMap constants := by
  rw [constants]
  induction args with
  | nil => rfl
  | cons e es ih => rw [constantsOfAll, ih, List.flatMap_cons]

@[simp] theorem constants_constant (v : Value) : (constant v).constants = [v] := rfl

theorem mem_paths_call {f : String} {args : List Expr} {e : Expr} {p : Path} (he : e ∈ args)
    (hp : p ∈ e.paths) : p ∈ (call f args).paths := by
  rw [paths_call]
  exact List.mem_flatMap.2 ⟨e, he, hp⟩

theorem mem_constants_call {f : String} {args : List Expr} {e : Expr} {v : Value} (he : e ∈ args)
    (hv : v ∈ e.constants) : v ∈ (call f args).constants := by
  rw [constants_call]
  exact List.mem_flatMap.2 ⟨e, he, hv⟩

theorem levelsOfAll_le_iff {es : List Expr} {k : Nat} :
    levelsOfAll es ≤ k ↔ ∀ e ∈ es, e.levels ≤ k := by
  induction es with
  | nil => simp [levelsOfAll]
  | cons e es ih => rw [levelsOfAll, Nat.max_le, ih, List.forall_mem_cons]

theorem levels_pos (e : Expr) : 0 < e.levels := by
  cases e <;> simp [levels]

/-! ## The data of an expression -/

theorem allToData_eq_map (es : List Expr) : allToData es = es.map toData := by
  induction es with
  | nil => rfl
  | cons e es ih => rw [allToData, ih, List.map_cons]

theorem toData_path (p : Path) :
    (path p).toData = .record [("kind", .text "path"), ("path", p.toData)] := rfl

theorem toData_call (f : String) (args : List Expr) : (call f args).toData = .record
    [("kind", .text "function"), ("name", .text f), ("args", .array (args.map toData))] := by
  rw [toData, allToData_eq_map]

theorem toData_constant (v : Value) :
    (constant v).toData = .record [("kind", .text "constant"), ("value", v.toData)] := rfl

theorem depthOfAll_map_toData {es : List Expr} (h : ∀ e ∈ es, e.toData.depth = e.levels) :
    Data.depthOfAll (es.map toData) = levelsOfAll es := by
  induction es with
  | nil => rfl
  | cons e es ih =>
      obtain ⟨hfirst, hrest⟩ := List.forall_mem_cons.1 h
      rw [List.map_cons, Data.depthOfAll, levelsOfAll, hfirst, ih hrest]

theorem depth_toData (e : Expr) : e.toData.depth = e.levels := by
  induction e with
  | path p => rfl
  | constant v => simp [toData_constant, levels, Data.depth, Data.depthOfMembers, v.depth_toData]
  | call f args ih =>
      simp [toData_call, levels, Data.depth, Data.depthOfMembers, depthOfAll_map_toData ih]

/-- The data of an expression is data that JSON has. -/
theorem covers_toData {e : Expr} (finite : ∀ v ∈ e.constants, v.IsFinite)
    (reads : ∀ v ∈ e.constants, v.ReadsBack) : Json.Covers Json.ReadsBack e.toData := by
  induction e with
  | path p =>
      rw [toData_path]
      apply Json.Covers.record
      simp only [List.forall_mem_cons]
      exact ⟨.text _, .text _, nofun⟩
  | constant v =>
      have hvalue := Value.covers_toData (finite v (List.mem_singleton_self v))
        (reads v (List.mem_singleton_self v))
      rw [toData_constant]
      apply Json.Covers.record
      simp only [List.forall_mem_cons]
      exact ⟨.text _, hvalue, nofun⟩
  | call f args ih =>
      rw [toData_call]
      apply Json.Covers.record
      simp only [List.forall_mem_cons]
      refine ⟨.text _, .text _, .array _ (List.forall_mem_map.2 fun e he => ?_), nofun⟩
      exact ih e he (fun v hv => finite v (mem_constants_call he hv)) fun v hv =>
        reads v (mem_constants_call he hv)

end Selection.Expr

/-! ## The expression of its data -/

namespace Data

/-- A required member is there. -/
theorem exists_of_required {α : Type} {members : List (String × Data)} {name : String}
    {f : Data → Except DataError α} {a : α} (h : required members name f = .ok a) :
    ∃ d ∈ (record members).parts, f d = .ok a := by
  obtain ⟨found, hfound, h⟩ := bind_eq_ok_iff.1 h
  rw [member?] at hfound
  split at hfound
  · cases hfound
    cases h
  · rename_i key d hfilter
    cases hfound
    have hmem : (key, d) ∈ members.filter (·.1 == name) := by
      rw [hfilter]
      exact List.mem_singleton_self _
    exact ⟨d, List.mem_map_of_mem (List.mem_filter.1 hmem).1, h⟩
  · cases hfound

end Data

namespace Saved

open Selection (Expr)

theorem expressions?_eq_mapM (ds : List Data) : expressions? ds = ds.mapM (expression? true) := by
  induction ds with
  | nil => rfl
  | cons d ds ih => rw [expressions?, List.mapM_cons, ih]

/-- The expression that a record describes, by its kind. -/
theorem expression?_record (byNumber : Bool) (members : List (String × Data)) :
    expression? byNumber (.record members) =
      (Data.required members "kind" (Data.kind? expressionKinds byNumber) >>= fun kind =>
        if kind = "path" then
          Data.required members "path" Path.ofData? >>= fun p => .ok (.path p)
        else if kind = "constant" then
          Data.required members "value" Value.ofData? >>= fun v => .ok (.constant v)
        else
          Data.required members "name" Data.text? >>= fun f =>
            argsOfMembers? none members >>= fun args => .ok (.call f args)) := rfl

/-- A path or a constant by its only item, or a call by its name and arguments. -/
def expressionOfItems? (kind : String) : List Data → Except DataError Expr
  | [d] =>
    if kind = "path" then Path.ofData? d >>= fun p => .ok (.path p)
    else if kind = "constant" then Value.ofData? d >>= fun v => .ok (.constant v)
    else .error .mismatch
  | [name, .array args] =>
    if kind = "function" then
      name.text? >>= fun f => expressions? args >>= fun es => .ok (.call f es)
    else .error .mismatch
  | _ => .error .mismatch

/-- The expression that an array describes, by its kind. -/
theorem expression?_array (byNumber : Bool) (tag : Data) (items : List Data) :
    expression? byNumber (.array (tag :: items)) =
      (tag.kind? expressionKinds byNumber >>= fun kind => expressionOfItems? kind items) := by
  match items with
  | [] => rfl
  | [_] => rfl
  | [_, d] => cases d <;> rfl
  | _ :: d :: _ :: _ => cases d <;> rfl

/-- An expression is told by its data. -/
theorem expression?_toData (byNumber : Bool) {e : Expr} (names : ∀ p ∈ e.paths, p.HasFieldNames) :
    expression? byNumber e.toData = .ok e := by
  induction e generalizing byNumber with
  | path p =>
      have hpath := Path.ofData?_toData (names p (List.mem_singleton_self p))
      rw [Expr.toData_path, expression?_record]
      refine bind_eq_ok_iff.2 ⟨"path", rfl, ?_⟩
      exact bind_eq_ok_iff.2 ⟨p, hpath, rfl⟩
  | constant v =>
      rw [Expr.toData_constant, expression?_record]
      refine bind_eq_ok_iff.2 ⟨"constant", rfl, ?_⟩
      exact bind_eq_ok_iff.2 ⟨v, v.ofData?_toData, rfl⟩
  | call f args ih =>
      have hargs : expressions? (args.map Expr.toData) = .ok args := by
        rw [expressions?_eq_mapM, mapM_eq_ok_iff, List.forall₂_map_left_iff, List.forall₂_same]
        exact fun e he => ih e he true fun p hp => names p (Expr.mem_paths_call he hp)
      have hmembers : argsOfMembers? none [("kind", .text "function"), ("name", .text f),
          ("args", .array (args.map Expr.toData))] =
          (expressions? (args.map Expr.toData) >>= fun es => .ok es) := rfl
      rw [Expr.toData_call, expression?_record]
      refine bind_eq_ok_iff.2 ⟨"function", rfl, ?_⟩
      refine bind_eq_ok_iff.2 ⟨f, rfl, ?_⟩
      exact bind_eq_ok_iff.2 ⟨args, by rw [hmembers, hargs]; rfl, rfl⟩

/-! ## What data can describe -/

/-- The expression has its path, its constant or its arguments from these parts. -/
inductive ExprFrom (parts : List Data) : Expr → Prop where
  | path (p : Path) (d : Data) (mem : d ∈ parts) (read : Path.ofData? d = .ok p) :
      ExprFrom parts (.path p)
  | constant (v : Value) (d : Data) (mem : d ∈ parts) (read : Value.ofData? d = .ok v) :
      ExprFrom parts (.constant v)
  | call (f : String) (items : List Data) (args : List Expr) (mem : .array items ∈ parts)
      (read : expressions? items = .ok args) : ExprFrom parts (.call f args)

theorem exists_of_argsOfMembers? {parts : List Data} {passed : Option (List Expr)}
    {members : List (String × Data)} {args : List Expr}
    (hpassed : ∀ es ∈ passed, ∃ items, .array items ∈ parts ∧ expressions? items = .ok es)
    (hmembers : ∀ m ∈ members, m.2 ∈ parts) (h : argsOfMembers? passed members = .ok args) :
    ∃ items, .array items ∈ parts ∧ expressions? items = .ok args := by
  induction members generalizing passed with
  | nil =>
      cases passed with
      | none => cases h
      | some es =>
          cases h
          exact hpassed args rfl
  | cons m members ih =>
      obtain ⟨name, d⟩ := m
      obtain ⟨hd, hrest⟩ := List.forall_mem_cons.1 hmembers
      rw [argsOfMembers?.eq_def] at h
      simp only at h
      split at h
      · split at h
        · rename_i items
          split at h
          · cases h
          · obtain ⟨es, hes, h⟩ := bind_eq_ok_iff.1 h
            refine ih ?_ hrest h
            rintro es' ⟨⟩
            exact ⟨items, hd, hes⟩
        · cases h
      · exact ih hpassed hrest h

theorem exprFrom_of_expressionOfItems? {kind : String} {items : List Data} {e : Expr}
    (h : expressionOfItems? kind items = .ok e) : ExprFrom items e := by
  rw [expressionOfItems?.eq_def] at h
  split at h
  · rename_i d
    split at h
    · obtain ⟨p, hp, h⟩ := bind_eq_ok_iff.1 h
      cases h
      exact .path p d List.mem_cons_self hp
    split at h
    · obtain ⟨v, hv, h⟩ := bind_eq_ok_iff.1 h
      cases h
      exact .constant v d List.mem_cons_self hv
    · cases h
  · rename_i name args
    split at h
    · obtain ⟨f, -, h⟩ := bind_eq_ok_iff.1 h
      obtain ⟨es, hes, h⟩ := bind_eq_ok_iff.1 h
      cases h
      exact .call f args es (by simp) hes
    · cases h
  · cases h

theorem ExprFrom.mono {parts parts' : List Data} {e : Expr} (h : ExprFrom parts e)
    (sub : parts ⊆ parts') : ExprFrom parts' e := by
  cases h with
  | path p d mem read => exact .path p d (sub mem) read
  | constant v d mem read => exact .constant v d (sub mem) read
  | call f items args mem read => exact .call f items args (sub mem) read

theorem exprFrom_of_expression? {byNumber : Bool} {d : Data} {e : Expr}
    (h : expression? byNumber d = .ok e) : ExprFrom d.parts e := by
  match d with
  | .record members =>
      rw [expression?_record] at h
      obtain ⟨kind, -, h⟩ := bind_eq_ok_iff.1 h
      split at h
      · obtain ⟨p, hp, h⟩ := bind_eq_ok_iff.1 h
        obtain ⟨d, hd, hread⟩ := Data.exists_of_required hp
        cases h
        exact .path p d hd hread
      split at h
      · obtain ⟨v, hv, h⟩ := bind_eq_ok_iff.1 h
        obtain ⟨d, hd, hread⟩ := Data.exists_of_required hv
        cases h
        exact .constant v d hd hread
      · obtain ⟨f, -, h⟩ := bind_eq_ok_iff.1 h
        obtain ⟨args, hargs, h⟩ := bind_eq_ok_iff.1 h
        obtain ⟨items, hitems, hread⟩ :=
          exists_of_argsOfMembers? (by rintro es ⟨⟩) (fun m hm => List.mem_map_of_mem hm) hargs
        cases h
        exact .call f items args hitems hread
  | .array (tag :: items) =>
      rw [expression?_array] at h
      obtain ⟨kind, -, h⟩ := bind_eq_ok_iff.1 h
      exact (exprFrom_of_expressionOfItems? h).mono (List.subset_cons_self tag items)
  | .array [] => cases h
  | .null => cases h
  | .bool b => cases h
  | .int n => cases h
  | .float x => cases h
  | .outOfRange => cases h
  | .text s => cases h
  | .moment => cases h

theorem exists_of_mem_expressions? {ds : List Data} {es : List Expr}
    (h : expressions? ds = .ok es) : ∀ e ∈ es, ∃ d ∈ ds, expression? true d = .ok e := by
  rw [expressions?_eq_mapM] at h
  exact forall_mem_of_mapM_eq_ok h fun d hd e he => ⟨d, hd, he⟩

/-- Induction over an expression and the data that describes it. -/
theorem expression?_induct {motive : Data → Expr → Prop}
    (path : ∀ d p, ∀ part ∈ d.parts, Path.ofData? part = .ok p → motive d (.path p))
    (constant : ∀ d v, ∀ part ∈ d.parts, Value.ofData? part = .ok v → motive d (.constant v))
    (call : ∀ d f items args, .array items ∈ d.parts → (∀ e ∈ args, ∃ i ∈ items, motive i e) →
      motive d (.call f args)) {byNumber : Bool} {d : Data} {e : Expr}
    (h : expression? byNumber d = .ok e) : motive d e := by
  induction hdepth : d.depth using Nat.strongRecOn generalizing byNumber d e with
  | _ n ih =>
      cases exprFrom_of_expression? h with
      | path p part mem read => exact path d p part mem read
      | constant v part mem read => exact constant d v part mem read
      | call f items args mem read =>
          refine call d f items args mem fun a ha => ?_
          obtain ⟨i, hi, hread⟩ := exists_of_mem_expressions? read a ha
          have harray : i ∈ (Data.array items).parts := hi
          have hbelow := Data.depth_lt_of_mem_parts harray
          have hparts := Data.depth_lt_of_mem_parts mem
          exact ⟨i, hi, ih i.depth (by omega) hread rfl⟩

/-- An expression takes no more levels than the data it is read from. -/
theorem levels_of_expression? {byNumber : Bool} {d : Data} {e : Expr}
    (h : expression? byNumber d = .ok e) : e.levels ≤ d.depth := by
  refine expression?_induct (motive := fun d e => e.levels ≤ d.depth) ?_ ?_ ?_ h
  · intro d p part mem _
    exact Nat.lt_of_le_of_lt (Nat.zero_le _) (Data.depth_lt_of_mem_parts mem)
  · intro d v part mem _
    exact Nat.lt_of_le_of_lt (Nat.zero_le _) (Data.depth_lt_of_mem_parts mem)
  · intro d f items args hitems hargs
    have harray : Data.depthOfAll items + 1 < d.depth := Data.depth_lt_of_mem_parts hitems
    have hlevels : Expr.levelsOfAll args ≤ Data.depthOfAll items := by
      refine Expr.levelsOfAll_le_iff.2 fun e he => ?_
      obtain ⟨i, hi, hlevels⟩ := hargs e he
      exact hlevels.trans (Data.depthOfAll_le_iff.1 (Nat.le_refl _) i hi)
    rw [Expr.levels]
    omega

/-- What is read has paths of field names and finite constants. -/
theorem names_of_expression? {byNumber : Bool} {d : Data} {e : Expr}
    (covers : Json.Covers (fun x => x.isFinite = true) d) (h : expression? byNumber d = .ok e) :
    (∀ p ∈ e.paths, p.HasFieldNames) ∧ ∀ v ∈ e.constants, v.IsFinite := by
  revert covers
  refine expression?_induct (motive := fun d e => Json.Covers (fun x => x.isFinite = true) d →
    (∀ p ∈ e.paths, p.HasFieldNames) ∧ ∀ v ∈ e.constants, v.IsFinite) ?_ ?_ ?_ h
  · intro d p part mem read covers
    exact ⟨List.forall_mem_singleton.2 (Path.hasFieldNames_of_ofData? read), nofun⟩
  · intro d v part mem read covers
    have hfinite := Value.isFinite_of_ofData? (covers.of_mem_parts mem) read
    exact ⟨nofun, List.forall_mem_singleton.2 hfinite⟩
  · intro d f items args hitems hargs covers
    have hall : ∀ e ∈ args, (∀ p ∈ e.paths, p.HasFieldNames) ∧ ∀ v ∈ e.constants, v.IsFinite := by
      intro e he
      obtain ⟨i, hi, hread⟩ := hargs e he
      have harray : i ∈ (Data.array items).parts := hi
      exact hread ((covers.of_mem_parts hitems).of_mem_parts harray)
    rw [Expr.paths_call, Expr.constants_call]
    refine ⟨fun p hp => ?_, fun v hv => ?_⟩
    · obtain ⟨e, he, hp⟩ := List.mem_flatMap.1 hp
      exact (hall e he).1 p hp
    · obtain ⟨e, he, hv⟩ := List.mem_flatMap.1 hv
      exact (hall e he).2 v hv

end Saved

/-! ## Selections and their JSON text -/

namespace Selection

/-- The members of a selection's record. -/
def members (s : Selection) : List (String × Data) :=
  ("expr", s.expr.toData) ::
    ((s.extract.map fun word => ("extract", Data.text word)).toList ++
      if s.commands = [] then [] else [("commands", .array (s.commands.map .text))])

theorem toData_eq (s : Selection) : s.toData = .record s.members := rfl

/-- A selection has members of its own names only; its expression is one of them, and the others are
words and lists of words. -/
theorem members_cases {s : Selection} {m : String × Data} (h : m ∈ s.members) :
    m = ("expr", s.expr.toData) ∨ (∃ word, m = ("extract", .text word)) ∨
      ∃ words : List String, m = ("commands", .array (words.map .text)) := by
  rw [members, List.mem_cons, List.mem_append, Option.mem_toList, Option.map_eq_some_iff] at h
  obtain h | ⟨word, -, h⟩ | h := h
  · exact Or.inl h
  · exact Or.inr (Or.inl ⟨word, h.symm⟩)
  · split at h
    · cases h
    · exact Or.inr (Or.inr ⟨s.commands, List.mem_singleton.1 h⟩)

theorem names_members {s : Selection} {m : String × Data} (h : m ∈ s.members) :
    Saved.selectionMembers.contains m.1 = true := by
  obtain rfl | ⟨word, rfl⟩ | ⟨words, rfl⟩ := members_cases h <;> rfl

theorem depth_texts (words : List String) : (Data.array (words.map .text)).depth = 1 := by
  have hall : Data.depthOfAll (words.map .text) ≤ 0 := by
    refine Data.depthOfAll_le_iff.2 (List.forall_mem_map.2 fun word _ => ?_)
    exact Nat.le_refl 0
  rw [Data.depth]
  omega

/-- The selection takes one level more than its expression. -/
theorem depth_toData_le_iff (s : Selection) {k : Nat} :
    s.toData.depth ≤ k + 1 ↔ s.expr.levels ≤ k := by
  rw [toData_eq, Data.depth, Nat.add_le_add_iff_right, Data.depthOfMembers_le_iff,
    ← s.expr.depth_toData]
  refine ⟨fun h => h _ List.mem_cons_self, fun h m hm => ?_⟩
  have hpos := s.expr.levels_pos
  rw [← s.expr.depth_toData] at hpos
  obtain rfl | ⟨word, rfl⟩ | ⟨words, rfl⟩ := members_cases hm
  · exact h
  · exact Nat.zero_le k
  · rw [depth_texts]
    omega

theorem covers_toData {s : Selection} (finite : ∀ v ∈ s.expr.constants, v.IsFinite)
    (reads : ∀ v ∈ s.expr.constants, v.ReadsBack) : Json.Covers Json.ReadsBack s.toData := by
  refine .record _ fun m hm => ?_
  obtain rfl | ⟨word, rfl⟩ | ⟨words, rfl⟩ := members_cases hm
  · exact Expr.covers_toData finite reads
  · exact .text word
  · exact .array _ (List.forall_mem_map.2 fun word _ => .text word)

theorem arrayOf_texts (words : List String) :
    Data.arrayOf Data.text? (.array (words.map .text)) = .ok words := by
  refine bind_eq_ok_iff.2 ⟨_, rfl, ?_⟩
  rw [mapM_eq_ok_iff, List.forall₂_map_left_iff, List.forall₂_same]
  exact fun word _ => rfl

end Selection

namespace Saved

/-- A selection is told by its data, in which what is empty is left out. -/
theorem selection?_toData {s : Selection} (names : ∀ p ∈ s.paths, p.HasFieldNames) :
    selection? s.toData = .ok s := by
  have hexpr : expression? false s.expr.toData = .ok s.expr := expression?_toData false names
  have hmembers : s.toData.members? Json.conventions selectionMembers = .ok s.members := by
    have hall : s.members.all (fun m => selectionMembers.contains m.1 || m.2.isInRange) = true := by
      rw [List.all_eq_true]
      intro m hm
      rw [Selection.names_members hm, Bool.true_or]
    exact if_pos hall
  obtain ⟨e, extract, commands⟩ := s
  refine bind_eq_ok_iff.2 ⟨_, hmembers, ?_⟩
  refine bind_eq_ok_iff.2 ⟨e, ?_, ?_⟩
  · cases extract <;> cases commands <;> exact hexpr
  refine bind_eq_ok_iff.2 ⟨extract, ?_, ?_⟩
  · cases extract <;> cases commands <;> rfl
  refine bind_eq_ok_iff.2 ⟨commands, ?_, rfl⟩
  cases commands with
  | nil => cases extract <;> rfl
  | cons word words => cases extract <;> exact Selection.arrayOf_texts (word :: words)

theorem exists_of_selection? {d : Data} {s : Selection} (h : selection? d = .ok s) :
    ∃ e ∈ d.parts, expression? false e = .ok s.expr := by
  obtain ⟨members, hmembers, h⟩ := bind_eq_ok_iff.1 h
  obtain ⟨expr, hexpr, h⟩ := bind_eq_ok_iff.1 h
  obtain ⟨extract, -, h⟩ := bind_eq_ok_iff.1 h
  obtain ⟨commands, -, h⟩ := bind_eq_ok_iff.1 h
  obtain rfl := (Except.ok.inj h).symm
  obtain ⟨e, he, hread⟩ := Data.exists_of_required hexpr
  refine ⟨e, ?_, hread⟩
  rw [Data.members?.eq_def] at hmembers
  split at hmembers
  · split at hmembers
    · cases hmembers
      exact he
    · cases hmembers
  · rename_i items
    split at hmembers
    · cases hmembers
      obtain ⟨m, hm, rfl⟩ := List.mem_map.1 he
      exact List.of_mem_zip hm |>.2
    · cases hmembers
  · cases hmembers

end Saved

namespace Selection

/-- The JSON text of a selection is read back as it, if its expression takes no more than 126
levels, and is malformed otherwise. -/
theorem ofJson_toJson_eq {s : Selection} (names : ∀ p ∈ s.paths, p.HasFieldNames)
    (finite : ∀ v ∈ s.expr.constants, v.IsFinite)
    (reads : ∀ v ∈ s.expr.constants, v.ReadsBack) :
    ofJson s.toJson = if s.expr.levels ≤ 126 then .ok s else .error .malformed := by
  have hdepth : s.toData.depth ≤ Json.maxDepth ↔ s.expr.levels ≤ 126 :=
    s.depth_toData_le_iff (k := 126)
  have hcovers := covers_toData finite reads
  rw [toData_eq] at hcovers hdepth
  rw [ofJson, toJson, toData_eq, Json.decode_write_restricted hcovers fun m hm => names_members hm,
    ← toData_eq, Saved.selection?_toData names]
  exact if_congr hdepth rfl rfl

theorem properties_of_ofJson {text : String} {s : Selection} (h : ofJson text = .ok s) :
    s.expr.levels ≤ 126 ∧ (∀ p ∈ s.paths, p.HasFieldNames) ∧
      ∀ v ∈ s.expr.constants, v.IsFinite := by
  obtain ⟨v, d, hv, hs⟩ := Json.exists_of_decode_eq_ok h
  obtain ⟨covers, hdepth⟩ := Json.covers_of_restricted? hv
  obtain ⟨e, he, hread⟩ := Saved.exists_of_selection? hs
  refine ⟨?_, Saved.names_of_expression? (covers.of_mem_parts he) hread⟩
  have hlevels := Saved.levels_of_expression? hread
  have hpart := Data.depth_lt_of_mem_parts he
  rw [Json.maxDepth] at hdepth
  omega

/-- Saved selections are read back: a selection with paths of field names and finite constants from
its JSON text, up to 126 levels of its expression, and whatever is read from a JSON text from the
text it is written in itself. -/
theorem ofJson_toJson_levels :
    (∀ s : Selection, (∀ p ∈ s.paths, p.HasFieldNames) →
      (∀ v ∈ s.expr.constants, v.IsFinite) → (∀ v ∈ s.expr.constants, v.ReadsBack) →
      ofJson s.toJson = if s.expr.levels ≤ 126 then .ok s else .error .malformed) ∧
    ∀ (text : String) (s : Selection), ofJson text = .ok s →
      (∀ v ∈ s.expr.constants, v.ReadsBack) → ofJson s.toJson = .ok s := by
  refine ⟨fun s names finite reads => ofJson_toJson_eq names finite reads, ?_⟩
  intro text s h reads
  obtain ⟨hlevels, hnames, hfinite⟩ := properties_of_ofJson h
  rw [ofJson_toJson_eq hnames hfinite reads, if_pos hlevels]

/-- Calls of any names around constants of every kind, text that looks like another constant, and
words with signs of JSON. -/
theorem ofJson_toJson_calls :
    let keyed : Path := ⟨[⟨"meta", some (.key "k\" \\, \x7b")⟩, .plain "x-1"], by simp⟩
    let s : Selection := ⟨.call "f(\"" [.path keyed, .call "" [], .call "g" [.constant (.text "-0"),
      .constant (.bool true), .constant (.int Int64.minValue),
      .constant (.float (.finite false ⟨3 * 2 ^ 51, 1022, by decide⟩))]],
      some "null", ["", "group_by\n"]⟩
    (∀ p ∈ s.paths, p.HasFieldNames) ∧
      (∀ v ∈ s.expr.constants, v.IsFinite ∧ v.ReadsBack) ∧ ofJson s.toJson = .ok s := by
  intro keyed s
  have hnames : ∀ p ∈ s.paths, p.HasFieldNames := List.forall_mem_singleton.2 (by decide)
  have hconstants : ∀ v ∈ s.expr.constants, v.IsFinite ∧ v.ReadsBack := by
    intro v hv
    simp only [s, Expr.constants_call, Expr.constants_path, Expr.constants_constant,
      List.flatMap_cons, List.flatMap_nil, List.append_nil, List.cons_append, List.nil_append,
      List.mem_cons, List.not_mem_nil, or_false] at hv
    obtain rfl | rfl | rfl | rfl := hv
    · constructor <;> rintro x ⟨⟩
    · constructor <;> rintro x ⟨⟩
    · constructor <;> rintro x ⟨⟩
    · refine ⟨?_, ?_⟩
      · rintro x ⟨⟩
        rfl
      · rintro x ⟨⟩ -
        exact Criterion.readsBack_threeHalves
  have hreads : ∀ v ∈ s.expr.constants, v.ReadsBack := fun v hv => (hconstants v hv).2
  have hread : ofJson s.toJson = .ok s :=
    ofJson_toJson_levels.1 s hnames (fun v hv => (hconstants v hv).1) hreads
  exact ⟨hnames, hconstants, ofJson_toJson_levels.2 s.toJson s hread hreads⟩

/-- An expression as the only argument of a call, of another one around it, and so on. -/
def Expr.wrapped : Nat → Expr → Expr
  | 0, e => e
  | n + 1, e => .call "f" [wrapped n e]

theorem Expr.levels_wrapped (n : Nat) (e : Expr) : (wrapped n e).levels = e.levels + 2 * n := by
  induction n with
  | zero => rfl
  | succ n ih =>
      rw [wrapped, levels, levelsOfAll, levelsOfAll, ih, Nat.max_zero]
      omega

theorem Expr.paths_wrapped (n : Nat) (e : Expr) : (wrapped n e).paths = e.paths := by
  induction n with
  | zero => rfl
  | succ n ih => rw [wrapped, paths_call, List.flatMap_singleton, ih]

theorem Expr.constants_wrapped (n : Nat) (e : Expr) : (wrapped n e).constants = e.constants := by
  induction n with
  | zero => rfl
  | succ n ih => rw [wrapped, constants_call, List.flatMap_singleton, ih]

/-- With 63 calls in one another the reader of JSON gives up before the innermost argument. -/
theorem ofJson_toJson_wrapped :
    let s : Selection := ⟨.wrapped 63 (.path (.single "a")), none, []⟩
    (∀ p ∈ s.paths, p.HasFieldNames) ∧ s.expr.constants = [] ∧ ofJson s.toJson ≠ .ok s := by
  intro s
  have hnames : ∀ p ∈ s.paths, p.HasFieldNames := by
    rw [paths, Expr.paths_wrapped]
    exact List.forall_mem_singleton.2 (by decide)
  have hconstants : s.expr.constants = [] := Expr.constants_wrapped 63 (.path (.single "a"))
  have hnone : ∀ v, v ∉ s.expr.constants := by
    rw [hconstants]
    exact fun v => List.not_mem_nil
  have hlevels : ¬ s.expr.levels ≤ 126 := by
    rw [Expr.levels_wrapped]
    exact Nat.not_succ_le_self 126
  refine ⟨hnames, hconstants, ?_⟩
  rw [ofJson_toJson_eq hnames (fun v hv => absurd hv (hnone v)) (fun v hv => absurd hv (hnone v)),
    if_neg hlevels]
  exact nofun

end Selection

end EventQuery
