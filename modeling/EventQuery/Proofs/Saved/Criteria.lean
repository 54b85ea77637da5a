import EventQuery.Proofs.Criterion.NormalForm
import EventQuery.Proofs.Saved.Values

/-!
# Saved criteria are read back

A criterion is told by its data, whatever its shape: joins of nothing or of one operand stay joins,
and a leaf may carry a connective. Each join nests its operands two levels deeper, a record and an
array, and the reader of JSON goes 127 levels deep. So the JSON text of a criterion is read back if
no more than 63 joins are nested in one another, and is malformed otherwise; and no criterion with
more of them is ever read.
-/

namespace EventQuery

namespace Criterion

mutual

/-- How many joins are nested in one another. -/
def depth : Criterion → Nat
  | join _ cs => depthOfAll cs + 1
  | _ => 0

def depthOfAll : List Criterion → Nat
  | [] => 0
  | a :: as => max a.depth (depthOfAll as)

end

theorem depthOfAll_le_iff {cs : List Criterion} {k : Nat} :
    depthOfAll cs ≤ k ↔ ∀ a ∈ cs, a.depth ≤ k := by
  induction cs with
  | nil => simp [depthOfAll]
  | cons a as ih => rw [depthOfAll, Nat.max_le, ih, List.forall_mem_cons]

theorem allToData_eq_map (cs : List Criterion) : allToData cs = cs.map toData := by
  induction cs with
  | nil => rfl
  | cons a as ih => rw [allToData, ih, List.map_cons]

/-! ## The data of a criterion -/

theorem toData_leaf (l : Leaf) : (leaf l).toData = .record
    [("kind", .text "leaf"), ("left", l.path.toData), ("operator", .text l.operator.token),
     ("right", operandData l.operand)] := rfl

theorem toData_join (c : Connective) (cs : List Criterion) : (join c cs).toData = .record
    [("kind", .text "combinator"), ("operator", .text c.name),
     ("operands", .array (cs.map toData))] := by
  rw [toData, allToData_eq_map]

/-- Each join makes two levels of data, and what is no join a single one. -/
theorem depth_toData_le_iff (a : Criterion) {k : Nat} :
    a.toData.depth ≤ 2 * k + 1 ↔ a.depth ≤ k := by
  induction a using induct generalizing k with
  | empty => simp [toData, depth, Data.depth, Data.depthOfMembers]
  | leaf l =>
      have hpath : l.path.toData.depth = 0 := rfl
      simp [toData_leaf, depth, Data.depth, Data.depthOfMembers, hpath, depth_operandData]
  | join c cs ih =>
      cases k with
      | zero => simp [toData_join, depth, Data.depth, Data.depthOfMembers]
      | succ k =>
          have hdata : (join c cs).toData.depth = Data.depthOfAll (cs.map toData) + 2 := by
            simp [toData_join, Data.depth, Data.depthOfMembers]
          have hall : Data.depthOfAll (cs.map toData) ≤ 2 * k + 1 ↔ depthOfAll cs ≤ k := by
            rw [Data.depthOfAll_le_iff, depthOfAll_le_iff, List.forall_mem_map]
            exact forall₂_congr fun a ha => ih a ha
          rw [hdata, depth]
          omega

/-- The data of a criterion is data that JSON has. -/
theorem covers_toData {a : Criterion} (finite : ∀ l ∈ a.leaves, ∀ v ∈ l.operand, v.IsFinite)
    (reads : ∀ l ∈ a.leaves, ∀ v ∈ l.operand, v.ReadsBack) :
    Json.Covers Json.ReadsBack a.toData := by
  induction a using induct with
  | empty => exact .record _ (List.forall_mem_singleton.2 (.text _))
  | leaf l =>
      have hoperand := covers_operandData (finite l (List.mem_singleton_self l))
        (reads l (List.mem_singleton_self l))
      rw [toData_leaf]
      apply Json.Covers.record
      simp only [List.forall_mem_cons]
      exact ⟨.text _, .text _, .text _, hoperand, nofun⟩
  | join c cs ih =>
      rw [toData_join]
      apply Json.Covers.record
      simp only [List.forall_mem_cons]
      refine ⟨.text _, .text _, .array _ (List.forall_mem_map.2 fun b hb => ?_), nofun⟩
      exact ih b hb (fun l hl => finite l (mem_leaves_join hb hl)) fun l hl =>
        reads l (mem_leaves_join hb hl)

end Criterion

/-! ## The criterion of its data -/

namespace Saved

theorem leafOfMembers_toData {l : Leaf} (h : l.path.HasFieldNames) :
    leafOfMembers [("kind", .text "leaf"), ("left", l.path.toData),
      ("operator", .text l.operator.token), ("right", operandData l.operand)] = .ok l := by
  have hoperator : Data.operator? (.text l.operator.token) = .ok l.operator := by
    rw [Data.operator?]
    refine bind_eq_ok_iff.2 ⟨l.operator.token, rfl, ?_⟩
    rw [Operator.ofToken?_token]
    rfl
  have hleft : LeafParts.add ⟨none, none, none⟩ ("left", l.path.toData) =
      .ok ⟨some l.path, none, none⟩ := by
    refine bind_eq_ok_iff.2 ⟨l.path, Path.ofData?_toData h, rfl⟩
  have hmiddle : LeafParts.add ⟨some l.path, none, none⟩ ("operator", .text l.operator.token) =
      .ok ⟨some l.path, some l.operator, none⟩ := by
    refine bind_eq_ok_iff.2 ⟨l.operator, hoperator, rfl⟩
  have hright : LeafParts.add ⟨some l.path, some l.operator, none⟩
      ("right", operandData l.operand) =
      .ok ⟨some l.path, some l.operator, some l.operand⟩ := by
    refine bind_eq_ok_iff.2 ⟨l.operand, nullable_operandData l.operand, rfl⟩
  rw [leafOfMembers]
  refine bind_eq_ok_iff.2 ⟨⟨some l.path, some l.operator, some l.operand⟩, ?_, rfl⟩
  refine bind_eq_ok_iff.2 ⟨_, rfl, ?_⟩
  refine bind_eq_ok_iff.2 ⟨_, hleft, ?_⟩
  refine bind_eq_ok_iff.2 ⟨_, hmiddle, ?_⟩
  refine bind_eq_ok_iff.2 ⟨_, hright, rfl⟩

theorem criteria?_eq_mapM (ds : List Data) : criteria? ds = ds.mapM (criterion? true) := by
  induction ds with
  | nil => rfl
  | cons d ds ih => rw [criteria?, List.mapM_cons, ih]

/-- The criterion that a record describes, by its kind. -/
theorem criterion?_record (byNumber : Bool) (members : List (String × Data)) :
    criterion? byNumber (.record members) =
      (Data.required members "kind" (Data.kind? kinds byNumber) >>= fun kind =>
        if kind = "empty" then .ok .empty
        else if kind = "leaf" then leafOfMembers members >>= fun l => .ok (.leaf l)
        else joinOfMembers? none none members) := rfl

/-- A join by its connective and operands. -/
def joinOfItems? : List Data → Except DataError Criterion
  | connective :: .array operands :: rest => do
    let c ← Connective.ofData? connective
    let cs ← criteria? operands
    if rest.isEmpty then return .join c cs else throw .mismatch
  | _ => .error .mismatch

/-- The criterion that an array describes, by its kind. -/
theorem criterion?_array (byNumber : Bool) (tag : Data) (items : List Data) :
    criterion? byNumber (.array (tag :: items)) =
      (tag.kind? kinds byNumber >>= fun kind =>
        if kind = "empty" then if items.isEmpty then .ok .empty else .error .mismatch
        else if kind = "leaf" then leafOfItems items >>= fun l => .ok (.leaf l)
        else joinOfItems? items) := by
  cases items with
  | nil => rfl
  | cons x items =>
      cases items with
      | nil => rfl
      | cons y items => cases y <;> rfl

theorem joinOfMembers?_toData {c : Connective} {ds : List Data} {cs : List Criterion}
    (h : criteria? ds = .ok cs) :
    joinOfMembers? none none [("kind", .text "combinator"), ("operator", .text c.name),
      ("operands", .array ds)] = .ok (.join c cs) := by
  have hconnective : Connective.ofData? (.text c.name) = .ok c := by
    cases c <;> rfl
  have hmembers : joinOfMembers? none none [("kind", .text "combinator"),
      ("operator", .text c.name), ("operands", .array ds)] =
      (Connective.ofData? (.text c.name) >>= fun c => criteria? ds >>= fun cs =>
        .ok (.join c cs)) := rfl
  rw [hmembers, hconnective, h]
  rfl

/-- A criterion is told by its data. -/
theorem criterion?_toData (byNumber : Bool) {a : Criterion}
    (names : ∀ l ∈ a.leaves, l.path.HasFieldNames) : criterion? byNumber a.toData = .ok a := by
  induction a using Criterion.induct generalizing byNumber with
  | empty => rfl
  | leaf l =>
      have hleaf := leafOfMembers_toData (names l (List.mem_singleton_self l))
      rw [Criterion.toData_leaf, criterion?_record]
      refine bind_eq_ok_iff.2 ⟨"leaf", rfl, ?_⟩
      exact bind_eq_ok_iff.2 ⟨l, hleaf, rfl⟩
  | join c cs ih =>
      have hoperands : criteria? (cs.map Criterion.toData) = .ok cs := by
        rw [criteria?_eq_mapM, mapM_eq_ok_iff, List.forall₂_map_left_iff, List.forall₂_same]
        intro b hb
        apply ih b hb true
        intro l hl
        exact names l (Criterion.mem_leaves_join hb hl)
      rw [Criterion.toData_join, criterion?_record]
      exact bind_eq_ok_iff.2 ⟨"combinator", rfl, joinOfMembers?_toData hoperands⟩

end Saved

/-! ## What data can describe -/

namespace Saved

/-- The leaf has its path and its operand from some of these parts. -/
structure LeafFrom (parts : List Data) (l : Leaf) : Prop where
  path : ∃ d ∈ parts, Path.ofData? d = .ok l.path
  operand : ∀ v ∈ l.operand, ∃ d ∈ parts, Value.ofData? d = .ok v

theorem LeafFrom.mono {ds es : List Data} {l : Leaf} (h : LeafFrom ds l) (sub : ds ⊆ es) :
    LeafFrom es l := by
  refine ⟨?_, fun v hv => ?_⟩
  · obtain ⟨d, hd, hpath⟩ := h.path
    exact ⟨d, sub hd, hpath⟩
  · obtain ⟨d, hd, hvalue⟩ := h.operand v hv
    exact ⟨d, sub hd, hvalue⟩

/-- So far as they have been read, the members of a leaf are from these parts. -/
structure LeafParts.From (parts : List Data) (read : LeafParts) : Prop where
  path : ∀ p ∈ read.path, ∃ d ∈ parts, Path.ofData? d = .ok p
  operand : ∀ operand ∈ read.operand, ∀ v ∈ operand, ∃ d ∈ parts, Value.ofData? d = .ok v

theorem LeafParts.From.add {parts : List Data} {read read' : LeafParts} {m : String × Data}
    (hread : read.From parts) (hm : m.2 ∈ parts) (h : read.add m = .ok read') :
    read'.From parts := by
  obtain ⟨name, d⟩ := m
  rw [LeafParts.add] at h
  split at h
  · split at h
    · cases h
    · obtain ⟨p, hp, h⟩ := bind_eq_ok_iff.1 h
      cases h
      refine ⟨?_, hread.operand⟩
      rintro q ⟨⟩
      exact ⟨d, hm, hp⟩
  split at h
  · split at h
    · cases h
    · obtain ⟨o, -, h⟩ := bind_eq_ok_iff.1 h
      cases h
      exact ⟨hread.path, hread.operand⟩
  split at h
  · split at h
    · cases h
    · obtain ⟨operand, hoperand, h⟩ := bind_eq_ok_iff.1 h
      cases h
      refine ⟨hread.path, ?_⟩
      rintro operand' ⟨⟩ v rfl
      exact ⟨d, hm, ofData?_of_nullable hoperand⟩
  · cases h
    exact hread

theorem leafFrom_of_leafOfMembers {members : List (String × Data)} {l : Leaf}
    (h : leafOfMembers members = .ok l) : LeafFrom (members.map Prod.snd) l := by
  obtain ⟨read, hfold, h⟩ := bind_eq_ok_iff.1 h
  have hread : read.From (members.map Prod.snd) := by
    refine foldlM_preserves (fun m hm s s' hs => ?_) ?_ hfold
    · exact hs.add (List.mem_map_of_mem hm)
    · exact ⟨by rintro p ⟨⟩, by rintro operand ⟨⟩⟩
  split at h
  · rename_i p o hp ho
    cases h
    refine ⟨hread.path p hp, fun v hv => ?_⟩
    cases hoperand : read.operand with
    | none =>
        rw [hoperand] at hv
        cases hv
    | some operand =>
        rw [hoperand] at hv
        exact hread.operand operand hoperand v hv
  · cases h

theorem leafFrom_of_leafOfItems {items : List Data} {l : Leaf}
    (h : leafOfItems items = .ok l) : LeafFrom items l := by
  match items with
  | [] => cases h
  | [p] => cases h
  | p :: o :: rest =>
      obtain ⟨path, hpath, h⟩ := bind_eq_ok_iff.1 h
      obtain ⟨operator, -, h⟩ := bind_eq_ok_iff.1 h
      match rest with
      | [] => cases h
      | [v] =>
          obtain ⟨operand, hoperand, h⟩ := bind_eq_ok_iff.1 h
          cases h
          refine ⟨⟨p, List.mem_cons_self, hpath⟩, ?_⟩
          rintro w rfl
          exact ⟨v, by simp, ofData?_of_nullable hoperand⟩
      | v :: w :: rest => cases h

/-- The join has its operands from an array among these parts. -/
def JoinFrom (parts : List Data) (a : Criterion) : Prop :=
  ∃ c items cs, a = .join c cs ∧ .array items ∈ parts ∧ criteria? items = .ok cs

theorem JoinFrom.mono {ds es : List Data} {a : Criterion} (h : JoinFrom ds a) (sub : ds ⊆ es) :
    JoinFrom es a := by
  obtain ⟨c, items, cs, ha, hitems, hcs⟩ := h
  exact ⟨c, items, cs, ha, sub hitems, hcs⟩

theorem joinFrom_of_joinOfItems? {items : List Data} {a : Criterion}
    (h : joinOfItems? items = .ok a) : JoinFrom items a := by
  rw [joinOfItems?.eq_def] at h
  split at h
  · rename_i operands rest
    obtain ⟨c, -, h⟩ := bind_eq_ok_iff.1 h
    obtain ⟨cs, hcs, h⟩ := bind_eq_ok_iff.1 h
    split at h
    · cases h
      exact ⟨c, operands, cs, rfl, by simp, hcs⟩
    · cases h
  · cases h

/-- Operands that have been read are from the parts already passed. -/
theorem joinFrom_of_joinOfMembers? {parts : List Data} {members : List (String × Data)}
    {connective : Option Connective} {operands : Option (List Criterion)} {a : Criterion}
    (passed : ∀ cs ∈ operands, ∃ items, .array items ∈ parts ∧ criteria? items = .ok cs)
    (rest : ∀ m ∈ members, m.2 ∈ parts)
    (h : joinOfMembers? connective operands members = .ok a) : JoinFrom parts a := by
  induction members generalizing connective operands with
  | nil =>
      cases connective with
      | none => cases h
      | some c =>
          cases operands with
          | none => cases h
          | some cs =>
              cases h
              obtain ⟨items, hitems, hcs⟩ := passed cs rfl
              exact ⟨c, items, cs, rfl, hitems, hcs⟩
  | cons m members ih =>
      obtain ⟨name, d⟩ := m
      have hrest := fun m hm => rest m (List.mem_cons_of_mem _ hm)
      rw [joinOfMembers?.eq_def] at h
      simp only at h
      split at h
      · split at h
        · cases h
        · obtain ⟨c, -, h⟩ := bind_eq_ok_iff.1 h
          exact ih passed hrest h
      split at h
      · split at h
        · rename_i items
          split at h
          · cases h
          · obtain ⟨cs, hcs, h⟩ := bind_eq_ok_iff.1 h
            refine ih ?_ hrest h
            rintro cs' ⟨⟩
            exact ⟨items, rest _ List.mem_cons_self, hcs⟩
        · cases h
      · exact ih passed hrest h

/-- What data can describe: nothing, a leaf from its parts, or a join from its parts. -/
theorem criterion?_cases {byNumber : Bool} {d : Data} {a : Criterion}
    (h : criterion? byNumber d = .ok a) :
    a = .empty ∨ (∃ l, a = .leaf l ∧ LeafFrom d.parts l) ∨ JoinFrom d.parts a := by
  match d with
  | .record members =>
      rw [criterion?_record] at h
      obtain ⟨kind, -, h⟩ := bind_eq_ok_iff.1 h
      split at h
      · cases h
        exact Or.inl rfl
      split at h
      · obtain ⟨l, hl, h⟩ := bind_eq_ok_iff.1 h
        cases h
        exact Or.inr (Or.inl ⟨l, rfl, leafFrom_of_leafOfMembers hl⟩)
      · refine Or.inr (Or.inr (joinFrom_of_joinOfMembers? ?_ (fun m hm => ?_) h))
        · rintro cs ⟨⟩
        · exact List.mem_map_of_mem hm
  | .array (tag :: items) =>
      have hparts : items ⊆ (Data.array (tag :: items)).parts := List.subset_cons_self tag items
      rw [criterion?_array] at h
      obtain ⟨kind, -, h⟩ := bind_eq_ok_iff.1 h
      split at h
      · split at h
        · cases h
          exact Or.inl rfl
        · cases h
      split at h
      · obtain ⟨l, hl, h⟩ := bind_eq_ok_iff.1 h
        cases h
        exact Or.inr (Or.inl ⟨l, rfl, (leafFrom_of_leafOfItems hl).mono hparts⟩)
      · exact Or.inr (Or.inr ((joinFrom_of_joinOfItems? h).mono hparts))
  | .array [] => cases h
  | .null => cases h
  | .bool b => cases h
  | .int n => cases h
  | .float x => cases h
  | .outOfRange => cases h
  | .text s => cases h
  | .moment => cases h

theorem exists_of_mem_criteria? {ds : List Data} {cs : List Criterion}
    (h : criteria? ds = .ok cs) : ∀ a ∈ cs, ∃ d ∈ ds, criterion? true d = .ok a := by
  rw [criteria?_eq_mapM] at h
  exact forall_mem_of_mapM_eq_ok h fun d hd a ha => ⟨d, hd, ha⟩

/-- Induction over a criterion and the data that describes it. -/
theorem criterion?_induct {motive : Data → Criterion → Prop} (empty : ∀ d, motive d .empty)
    (leaf : ∀ d l, LeafFrom d.parts l → motive d (.leaf l))
    (join : ∀ d c items cs, .array items ∈ d.parts → (∀ a ∈ cs, ∃ e ∈ items, motive e a) →
      motive d (.join c cs)) {byNumber : Bool} {d : Data} {a : Criterion}
    (h : criterion? byNumber d = .ok a) : motive d a := by
  induction hdepth : d.depth using Nat.strongRecOn generalizing byNumber d a with
  | _ n ih =>
      obtain rfl | ⟨l, rfl, hl⟩ | ⟨c, items, cs, rfl, hitems, hcs⟩ := criterion?_cases h
      · exact empty d
      · exact leaf d l hl
      · refine join d c items cs hitems fun b hb => ?_
        obtain ⟨e, he, hread⟩ := exists_of_mem_criteria? hcs b hb
        have harray : e ∈ (Data.array items).parts := he
        have hbelow := Data.depth_lt_of_mem_parts harray
        have hparts := Data.depth_lt_of_mem_parts hitems
        exact ⟨e, he, ih e.depth (by omega) hread rfl⟩

/-- Each join that is read takes two levels of the data. -/
theorem depth_of_criterion? {byNumber : Bool} {d : Data} {a : Criterion}
    (h : criterion? byNumber d = .ok a) : 2 * a.depth ≤ d.depth := by
  refine criterion?_induct (motive := fun d a => 2 * a.depth ≤ d.depth) ?_ ?_ ?_ h
  · exact fun d => Nat.zero_le _
  · exact fun d l _ => Nat.zero_le _
  · intro d c items cs hitems hcs
    have harray : Data.depthOfAll items + 1 < d.depth := Data.depth_lt_of_mem_parts hitems
    have hoperands : Criterion.depthOfAll cs ≤ Data.depthOfAll items / 2 := by
      refine Criterion.depthOfAll_le_iff.2 fun b hb => ?_
      obtain ⟨e, he, hdepth⟩ := hcs b hb
      have hitem := Data.depthOfAll_le_iff.1 (Nat.le_refl _) e he
      omega
    rw [Criterion.depth]
    omega

/-- The leaves that are read have paths of field names and finite operands. -/
theorem leaves_of_criterion? {byNumber : Bool} {d : Data} {a : Criterion}
    (covers : Json.Covers (fun x => x.isFinite = true) d) (h : criterion? byNumber d = .ok a) :
    ∀ l ∈ a.leaves, l.path.HasFieldNames ∧ ∀ v ∈ l.operand, v.IsFinite := by
  revert covers
  refine criterion?_induct (motive := fun d a => Json.Covers (fun x => x.isFinite = true) d →
    ∀ l ∈ a.leaves, l.path.HasFieldNames ∧ ∀ v ∈ l.operand, v.IsFinite) ?_ ?_ ?_ h
  · exact fun d _ => nofun
  · intro d l hl covers m hm
    obtain rfl := List.mem_singleton.1 hm
    obtain ⟨⟨p, hp, hpath⟩, hoperand⟩ := hl
    refine ⟨Path.hasFieldNames_of_ofData? hpath, fun v hv => ?_⟩
    obtain ⟨e, he, hvalue⟩ := hoperand v hv
    exact Value.isFinite_of_ofData? (covers.of_mem_parts he) hvalue
  · intro d c items cs hitems hcs covers l hl
    rw [Criterion.leaves_join] at hl
    obtain ⟨b, hb, hl⟩ := List.mem_flatMap.1 hl
    obtain ⟨e, he, hread⟩ := hcs b hb
    have harray : e ∈ (Data.array items).parts := he
    exact hread ((covers.of_mem_parts hitems).of_mem_parts harray) l hl

end Saved

/-! ## Criteria and their JSON text -/

namespace Criterion

/-- The JSON text of a criterion is read back as it, if no more than 63 joins are nested in one
another, and is malformed otherwise. -/
theorem ofJson_toJson_eq {a : Criterion} (names : ∀ l ∈ a.leaves, l.path.HasFieldNames)
    (finite : ∀ l ∈ a.leaves, ∀ v ∈ l.operand, v.IsFinite)
    (reads : ∀ l ∈ a.leaves, ∀ v ∈ l.operand, v.ReadsBack) :
    ofJson a.toJson = if a.depth ≤ 63 then .ok a else .error .malformed := by
  have hdepth : a.toData.depth ≤ Json.maxDepth ↔ a.depth ≤ 63 :=
    a.depth_toData_le_iff (k := 63)
  rw [ofJson, toJson, Json.decode_write (covers_toData finite reads),
    Saved.criterion?_toData false names]
  exact if_congr hdepth rfl rfl

theorem properties_of_ofJson {text : String} {a : Criterion} (h : ofJson text = .ok a) :
    a.depth ≤ 63 ∧ ∀ l ∈ a.leaves, l.path.HasFieldNames ∧ ∀ v ∈ l.operand, v.IsFinite := by
  obtain ⟨v, d, hv, ha⟩ := Json.exists_of_decode_eq_ok h
  obtain ⟨covers, hdepth⟩ := Json.covers_of_toData? hv
  refine ⟨?_, Saved.leaves_of_criterion? covers ha⟩
  have hjoins := Saved.depth_of_criterion? ha
  rw [Json.maxDepth] at hdepth
  omega

/-- Saved criteria are read back: a criterion of field names and finite numbers from its JSON text,
up to 63 joins in one another, and whatever is read from a JSON text from the text it is written in
itself. -/
theorem ofJson_toJson :
    (∀ a : Criterion, (∀ l ∈ a.leaves, l.path.HasFieldNames) →
      (∀ l ∈ a.leaves, ∀ v ∈ l.operand, v.IsFinite) →
      (∀ l ∈ a.leaves, ∀ v ∈ l.operand, v.ReadsBack) →
      ofJson a.toJson = if a.depth ≤ 63 then .ok a else .error .malformed) ∧
    ∀ (text : String) (a : Criterion), ofJson text = .ok a →
      (∀ l ∈ a.leaves, ∀ v ∈ l.operand, v.ReadsBack) → ofJson a.toJson = .ok a := by
  refine ⟨fun a names finite reads => ofJson_toJson_eq names finite reads, ?_⟩
  intro text a h reads
  obtain ⟨hdepth, hleaves⟩ := properties_of_ofJson h
  rw [ofJson_toJson_eq (fun l hl => (hleaves l hl).1) (fun l hl => (hleaves l hl).2) reads,
    if_pos hdepth]

theorem readsBack_threeHalves :
    Json.ReadsBack (.finite false ⟨3 * 2 ^ 51, 1022, by decide⟩) := by
  have hwrite : Json.floatLayout.write (.finite false ⟨3 * 2 ^ 51, 1022, by decide⟩) =
      ['1', '.', '5'] := by decide +kernel
  have hscale : Json.scale? 15 (-1) = some (.finite false ⟨3 * 2 ^ 51, 1022, by decide⟩) := by
    decide +kernel
  refine ⟨⟨false, ['1'], some ['5'], none⟩, ?_, ?_⟩
  · rw [hwrite]
    rfl
  · show (Json.scale? 15 (-1)).map _ = _
    rw [hscale]
    rfl

/-- Joins of nothing and of one operand, a leaf with a connective, text that looks like a number,
and a key with signs of JSON. -/
theorem ofJson_toJson_degenerate :
    let keyed : Path := ⟨[⟨"meta", some (.key "k\" \\, \x7b")⟩, .plain "x-1"], by simp⟩
    let a : Criterion := join .or
      [join .and [], join .and [leaf ⟨.single "y", .connective .and, some (.text "-0")⟩],
        leaf ⟨keyed, .equal, some (.float (.finite false ⟨3 * 2 ^ 51, 1022, by decide⟩))⟩,
        leaf ⟨.single "z", .notEqual, some (.int Int64.minValue)⟩, leaf (.absent keyed), empty]
    (∀ l ∈ a.leaves, l.path.HasFieldNames ∧ ∀ v ∈ l.operand, v.IsFinite ∧ v.ReadsBack) ∧
      ofJson a.toJson = .ok a := by
  intro keyed a
  have hleaves : ∀ l ∈ a.leaves,
      l.path.HasFieldNames ∧ ∀ v ∈ l.operand, v.IsFinite ∧ v.ReadsBack := by
    intro l hl
    simp only [a, leaves_join, leaves_leaf, leaves_empty, List.flatMap_cons, List.flatMap_nil,
      List.append_nil, List.cons_append, List.nil_append, List.mem_cons, List.not_mem_nil,
      or_false] at hl
    obtain rfl | rfl | rfl | rfl := hl
    · refine ⟨by decide, ?_⟩
      rintro v ⟨⟩
      exact ⟨nofun, nofun⟩
    · refine ⟨by decide, ?_⟩
      rintro v ⟨⟩
      refine ⟨?_, ?_⟩
      · rintro x ⟨⟩
        rfl
      · rintro x ⟨⟩ -
        exact readsBack_threeHalves
    · refine ⟨by decide, ?_⟩
      rintro v ⟨⟩
      exact ⟨nofun, nofun⟩
    · refine ⟨by decide, ?_⟩
      rintro v ⟨⟩
  have hreads : ∀ l ∈ a.leaves, ∀ v ∈ l.operand, v.ReadsBack :=
    fun l hl v hv => ((hleaves l hl).2 v hv).2
  have hread : ofJson a.toJson = .ok a :=
    ofJson_toJson.1 a (fun l hl => (hleaves l hl).1) (fun l hl v hv => ((hleaves l hl).2 v hv).1)
      hreads
  exact ⟨hleaves, ofJson_toJson.2 a.toJson a hread hreads⟩

/-- A criterion as the only operand of a join, of another one around it, and so on. -/
def nested : Nat → Criterion → Criterion
  | 0, a => a
  | n + 1, a => join .and [nested n a]

theorem depth_nested (n : Nat) (a : Criterion) : (nested n a).depth = a.depth + n := by
  induction n with
  | zero => rfl
  | succ n ih => rw [nested, depth, depthOfAll, depthOfAll, ih, Nat.max_zero, Nat.add_assoc]

theorem leaves_nested (n : Nat) (a : Criterion) : (nested n a).leaves = a.leaves := by
  induction n with
  | zero => rfl
  | succ n ih => rw [nested, leaves_join, List.flatMap_singleton, ih]

/-- With one join more the reader of JSON gives up. -/
theorem ofJson_toJson_nested :
    let a : Criterion := nested 64 (leaf (.present (.single "a")))
    (∀ l ∈ a.leaves, l.path.HasFieldNames ∧ l.operand = none) ∧ ofJson a.toJson ≠ .ok a := by
  intro a
  have hleaves : ∀ l ∈ a.leaves, l.path.HasFieldNames ∧ l.operand = none := by
    rw [leaves_nested, leaves_leaf]
    exact List.forall_mem_singleton.2 ⟨by decide, rfl⟩
  have hoperand : ∀ l ∈ a.leaves, ∀ v, v ∉ l.operand := by
    intro l hl v
    rw [(hleaves l hl).2]
    exact Option.not_mem_none v
  have hdepth : ¬ a.depth ≤ 63 := by
    rw [depth_nested]
    exact Nat.not_succ_le_self 63
  refine ⟨hleaves, ?_⟩
  rw [ofJson_toJson_eq (fun l hl => (hleaves l hl).1) (fun l hl v hv => absurd hv (hoperand l hl v))
    (fun l hl v hv => absurd hv (hoperand l hl v)), if_neg hdepth]
  exact nofun

end Criterion

end EventQuery
