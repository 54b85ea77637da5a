import EventQuery.Proofs.Errors
import EventQuery.Proofs.Json.Numbers
import EventQuery.Proofs.Json.Strings

/-!
# Data is read back from its JSON text

JSON text has no place for dates and for whole numbers beyond 64 bits, and not every floating-point
number need come back. All other data is read back from its text as it is, if it is not nested too
deep for the reader: the depth is the only other thing that decides.

The reader's fuel is no bound of its own, since one step for each character is enough.
-/

namespace EventQuery

theorem exists_forall₂ {α β : Type} {R : α → β → Prop} {as : List α}
    (h : ∀ a ∈ as, ∃ b, R a b) : ∃ bs, List.Forall₂ R as bs := by
  induction as with
  | nil => exact ⟨[], .nil⟩
  | cons a as ih =>
      obtain ⟨b, hb⟩ := h a List.mem_cons_self
      obtain ⟨bs, hbs⟩ := ih fun a ha => h a (List.mem_cons_of_mem _ ha)
      exact ⟨b :: bs, .cons hb hbs⟩

namespace Data

mutual

/-- How deep arrays and records are nested. -/
def depth : Data → Nat
  | array items => depthOfAll items + 1
  | record members => depthOfMembers members + 1
  | _ => 0

def depthOfAll : List Data → Nat
  | [] => 0
  | d :: ds => max d.depth (depthOfAll ds)

def depthOfMembers : List (String × Data) → Nat
  | [] => 0
  | (_, d) :: members => max d.depth (depthOfMembers members)

end

theorem depthOfAll_le_iff {ds : List Data} {k : Nat} :
    depthOfAll ds ≤ k ↔ ∀ d ∈ ds, d.depth ≤ k := by
  induction ds with
  | nil => simp [depthOfAll]
  | cons d ds ih => rw [depthOfAll, Nat.max_le, ih, List.forall_mem_cons]

theorem depthOfMembers_le_iff {members : List (String × Data)} {k : Nat} :
    depthOfMembers members ≤ k ↔ ∀ m ∈ members, m.2.depth ≤ k := by
  induction members with
  | nil => simp [depthOfMembers]
  | cons m members ih => rw [depthOfMembers, Nat.max_le, ih, List.forall_mem_cons]

/-- The data directly in an array or a record. -/
def parts : Data → List Data
  | array items => items
  | record members => members.map Prod.snd
  | _ => []

theorem depth_lt_of_mem_parts {d e : Data} (h : e ∈ d.parts) : e.depth < d.depth := by
  cases d with
  | array items => exact Nat.lt_succ_of_le (depthOfAll_le_iff.1 (Nat.le_refl _) e h)
  | record members =>
      obtain ⟨m, hm, rfl⟩ := List.mem_map.1 h
      exact Nat.lt_succ_of_le (depthOfMembers_le_iff.1 (Nat.le_refl _) m hm)
  | _ => cases h

end Data

namespace Json

/-- Data that JSON has, with floating-point numbers of one kind. -/
inductive Covers (P : Binary64 → Prop) : Data → Prop where
  | null : Covers P .null
  | bool (b : Bool) : Covers P (.bool b)
  | int (n : Int) (lower : -2 ^ 63 ≤ n) (upper : n < 2 ^ 64) : Covers P (.int n)
  | float (x : Binary64) (h : P x) : Covers P (.float x)
  | text (s : String) : Covers P (.text s)
  | array (items : List Data) (h : ∀ d ∈ items, Covers P d) : Covers P (.array items)
  | record (members : List (String × Data)) (h : ∀ m ∈ members, Covers P m.2) :
      Covers P (.record members)

theorem Covers.of_mem_parts {P : Binary64 → Prop} {d e : Data} (h : Covers P d)
    (he : e ∈ d.parts) : Covers P e := by
  cases h with
  | array items hitems => exact hitems e he
  | record members hmembers =>
      obtain ⟨m, hm, rfl⟩ := List.mem_map.1 he
      exact hmembers m hm
  | _ => cases he

/-- The syntax that data is written in: it is what is read from the text, and it stands for the data
where this is not nested too deep. -/
structure Reads (d : Data) (v : Node) : Prop where
  start : ∃ c ∈ (skipSpace (write d)).head?, c ≠ ']'
  step : ∀ fuel rest, (write d).length ≤ fuel + 1 → EndsValue rest →
    value? (fuel + 1) (write d ++ rest) = some (v, rest)
  data : ∀ k, v.toData? k = if d.depth ≤ k then some d else none

theorem Reads.read {d : Data} {v : Node} (h : Reads d v) {fuel : Nat} {rest : List Char}
    (enough : (write d).length ≤ fuel) (ends : EndsValue rest) :
    value? fuel (write d ++ rest) = some (v, rest) := by
  obtain ⟨c, hc, -⟩ := h.start
  cases fuel with
  | zero =>
      rw [List.eq_nil_of_length_eq_zero (Nat.le_zero.1 enough)] at hc
      cases hc
  | succ fuel => exact h.step fuel rest enough ends

theorem sign?_self {c : Char} (h : isSpace c = false) (s : List Char) :
    sign? c (c :: s) = some s := by
  rw [sign?, skipSpace_cons_of_ne h]
  exact if_pos rfl

theorem sign?_of_ne {c d : Char} (h : isSpace d = false) (ne : d ≠ c) (s : List Char) :
    sign? c (d :: s) = none := by
  rw [sign?, skipSpace_cons_of_ne h]
  exact if_neg ne

/-! ## Scalars -/

theorem reads_null : Reads .null .null := by
  refine ⟨⟨'n', rfl, by decide⟩, fun fuel rest _ _ => ?_, fun k => rfl⟩
  show value? (fuel + 1) ('n' :: ("ull".toList ++ rest)) = _
  rw [value?, skipSpace_cons_of_ne (by decide)]
  rfl

theorem reads_bool (b : Bool) : Reads (.bool b) (.bool b) := by
  cases b with
  | true =>
      refine ⟨⟨'t', rfl, by decide⟩, fun fuel rest _ _ => ?_, fun k => rfl⟩
      show value? (fuel + 1) ('t' :: ("rue".toList ++ rest)) = _
      rw [value?, skipSpace_cons_of_ne (by decide)]
      rfl
  | false =>
      refine ⟨⟨'f', rfl, by decide⟩, fun fuel rest _ _ => ?_, fun k => rfl⟩
      show value? (fuel + 1) ('f' :: ("alse".toList ++ rest)) = _
      rw [value?, skipSpace_cons_of_ne (by decide)]
      rfl

theorem writeString_append (s : String) (rest : List Char) :
    writeString s ++ rest = '"' :: (s.toList.flatMap escape ++ '"' :: rest) := by
  simp [writeString]

theorem reads_text (s : String) : Reads (.text s) (.string (s.toList.flatMap escape)) := by
  refine ⟨⟨'"', rfl, by decide⟩, fun fuel rest _ _ => ?_, fun k => ?_⟩
  · show value? (fuel + 1) (writeString s ++ rest) = _
    rw [writeString_append, value?, skipSpace_cons_of_ne (by decide)]
    show (stringBody? _).map _ = _
    rw [stringBody?_flatMap_escape]
    rfl
  · rw [Node.toData?, string?_flatMap_escape, String.ofList_toList]
    rfl

/-- Data that is written as a number and read back as it. -/
theorem reads_number {d : Data} {n : Numeral} (scalar : d.depth = 0)
    (value : n.toData? = some d) (h : ∀ fuel rest, EndsValue rest →
      value? (fuel + 1) (write d ++ rest) = some (.number n, rest)) : Reads d (.number n) := by
  refine ⟨?_, fun fuel rest _ ends => h fuel rest ends, fun k => ?_⟩
  · have hread := h 0 [] nofun
    rw [List.append_nil] at hread
    obtain ⟨c, hc, hstart⟩ := exists_head_of_value?_number hread
    refine ⟨c, hc, ?_⟩
    cases hstart with
    | inl hminus =>
        subst hminus
        decide
    | inr hdigit => exact ne_of_isDigit hdigit (by decide)
  · rw [scalar, if_pos (Nat.zero_le k)]
    exact value

/-! ## Arrays -/

/-- No value begins with a closing bracket. -/
theorem Reads.sign?_eq_none {d : Data} {v : Node} (h : Reads d v) (s : List Char) :
    sign? ']' (write d ++ s) = none := by
  obtain ⟨c, hc, hne⟩ := h.start
  cases hskip : skipSpace (write d) with
  | nil =>
      rw [hskip] at hc
      cases hc
  | cons e t =>
      rw [hskip] at hc
      cases hc
      have happend : skipSpace (write d ++ s) = c :: (t ++ s) := by
        rw [skipSpace, List.dropWhile_append, ← skipSpace, hskip]
        rfl
      rw [sign?, happend]
      exact if_neg hne

theorem value?_items {fuel : Nat} {s rest : List Char} {vs : List Node}
    (start : sign? ']' s = none) (h : items? fuel s = some (vs, rest)) :
    value? (fuel + 1) ('[' :: s) = some (.array vs, rest) := by
  rw [value?, skipSpace_cons_of_ne (by decide)]
  simp only [start, h]
  rfl

theorem items?_single {fuel : Nat} {s rest : List Char} {v : Node}
    (h : value? fuel s = some (v, ']' :: rest)) : items? (fuel + 1) s = some ([v], rest) := by
  rw [items?, h]
  rfl

theorem items?_cons {fuel : Nat} {s t rest : List Char} {v : Node} {vs : List Node}
    (h : value? fuel s = some (v, ',' :: t)) (hmore : items? fuel t = some (vs, rest)) :
    items? (fuel + 1) s = some (v :: vs, rest) := by
  rw [items?, h]
  show ((items? fuel t).bind _) = _
  rw [hmore]
  rfl

theorem items?_writeItems {ds : List Data} {vs : List Node} (h : List.Forall₂ Reads ds vs)
    (ne : ds ≠ []) {fuel : Nat} (enough : (writeItems ds).length + 1 ≤ fuel) (rest : List Char) :
    items? fuel (writeItems ds ++ ']' :: rest) = some (vs, rest) := by
  induction h generalizing fuel with
  | nil => exact absurd rfl ne
  | @cons d v ds vs hd hds ih =>
      obtain ⟨fuel, rfl⟩ : ∃ n, fuel = n + 1 := ⟨fuel - 1, by omega⟩
      cases ds with
      | nil =>
          cases hds
          rw [writeItems] at enough ⊢
          exact items?_single (hd.read (by omega) (.bracket rest))
      | cons e es =>
          have htext : writeItems (d :: e :: es) = write d ++ ',' :: writeItems (e :: es) := rfl
          rw [htext, List.length_append, List.length_cons] at enough
          rw [htext, List.append_assoc, List.cons_append]
          have hmore : items? fuel (writeItems (e :: es) ++ ']' :: rest) = some (vs, rest) :=
            ih (List.cons_ne_nil e es) (by omega)
          exact items?_cons (hd.read (by omega) (.comma _)) hmore

/-- What is made of two parts is there where both are. -/
theorem bind_if_le {α β γ : Type} {m n k : Nat} (a : α) (b : β) (f : α → β → γ) :
    ((if m ≤ k then some a else none) >>= fun x =>
      (if n ≤ k then some b else none) >>= fun y => some (f x y)) =
        if max m n ≤ k then some (f a b) else none := by
  by_cases hm : m ≤ k
  · by_cases hn : n ≤ k
    · rw [if_pos hm, if_pos hn, if_pos (Nat.max_le.2 ⟨hm, hn⟩)]
      rfl
    · rw [if_pos hm, if_neg hn, if_neg fun h => hn (Nat.max_le.1 h).2]
      rfl
  · rw [if_neg hm, if_neg fun h => hm (Nat.max_le.1 h).1]
    rfl

theorem itemsToData?_eq {ds : List Data} {vs : List Node} (h : List.Forall₂ Reads ds vs) (k : Nat) :
    itemsToData? k vs = if Data.depthOfAll ds ≤ k then some ds else none := by
  induction h with
  | nil => exact (if_pos (Nat.zero_le k)).symm
  | @cons d v ds vs hd hds ih =>
      rw [itemsToData?, hd.data k, ih, Data.depthOfAll]
      exact bind_if_le d ds List.cons

theorem reads_array {ds : List Data} {vs : List Node} (h : List.Forall₂ Reads ds vs) :
    Reads (.array ds) (.array vs) := by
  refine ⟨⟨'[', rfl, by decide⟩, fun fuel rest enough _ => ?_, fun k => ?_⟩
  · have htext : write (.array ds) ++ rest = '[' :: (writeItems ds ++ ']' :: rest) := by
      simp [write]
    cases h with
    | nil =>
        rw [htext, value?, skipSpace_cons_of_ne (by decide)]
        simp only [writeItems, List.nil_append, sign?_self (c := ']') (by decide)]
    | @cons d v ds vs hd hds =>
        have hlength : (write (.array (d :: ds))).length = (writeItems (d :: ds)).length + 2 := by
          simp [write]
        rw [htext]
        refine value?_items ?_
          (items?_writeItems (.cons hd hds) (List.cons_ne_nil d ds) (by omega) rest)
        cases ds with
        | nil => exact hd.sign?_eq_none _
        | cons e es =>
            rw [show writeItems (d :: e :: es) = write d ++ ',' :: writeItems (e :: es) from rfl,
              List.append_assoc]
            exact hd.sign?_eq_none _
  · rw [Data.depth]
    cases k with
    | zero => rfl
    | succ k =>
        rw [Node.toData?, itemsToData?_eq h]
        by_cases hdepth : Data.depthOfAll ds ≤ k
        · rw [if_pos hdepth, if_pos (Nat.succ_le_succ hdepth)]
          rfl
        · rw [if_neg hdepth, if_neg (mt Nat.le_of_succ_le_succ hdepth)]
          rfl

/-! ## Records -/

/-- The syntax that a member is written in. -/
structure ReadsMember (m : String × Data) (p : List Char × Node) : Prop where
  name : p.1 = m.1.toList.flatMap escape
  value : Reads m.2 p.2

/-- The text of a member. -/
def writeMember (m : String × Data) : List Char := writeString m.1 ++ ':' :: write m.2

theorem writeMember_append (m : String × Data) (t : List Char) :
    writeMember m ++ t =
      '"' :: (m.1.toList.flatMap escape ++ '"' :: ':' :: (write m.2 ++ t)) := by
  rw [writeMember, List.append_assoc, writeString_append]
  rfl

theorem length_writeMember (m : String × Data) :
    (write m.2).length ≤ (writeMember m).length := by
  rw [writeMember, List.length_append, List.length_cons]
  omega

theorem value?_members {fuel : Nat} {s rest : List Char} {ps : List (List Char × Node)}
    (start : sign? '\x7d' s = none) (h : members? fuel s = some (ps, rest)) :
    value? (fuel + 1) ('\x7b' :: s) = some (.object ps, rest) := by
  rw [value?, skipSpace_cons_of_ne (by decide)]
  simp only [start, h]
  rfl

/-- What follows the value of a member: more members or the end of the object. -/
def membersAfter? (fuel : Nat) (p : List Char × Node) (s : List Char) :
    Option (List (List Char × Node) × List Char) :=
  match skipSpace s with
  | ',' :: s => (members? fuel s).bind fun q => some (p :: q.1, q.2)
  | '\x7d' :: rest => some ([p], rest)
  | _ => none

theorem members?_member {fuel : Nat} {m : String × Data} {p : List Char × Node}
    (h : ReadsMember m p) (enough : (write m.2).length ≤ fuel) {t : List Char}
    (ends : EndsValue t) :
    members? (fuel + 1) (writeMember m ++ t) = membersAfter? fuel p t := by
  obtain ⟨name, v⟩ := p
  obtain rfl : name = m.1.toList.flatMap escape := h.name
  have hquote : isSpace '"' = false := rfl
  have hcolon : isSpace ':' = false := rfl
  rw [writeMember_append, members?, membersAfter?]
  simp only [Option.bind_eq_bind, sign?_self hquote, sign?_self hcolon, stringBody?_flatMap_escape,
    h.value.read enough ends, Option.bind_some]
  rfl

theorem writeMembers_cons (m m' : String × Data) (ms : List (String × Data)) :
    writeMembers (m :: m' :: ms) = writeMember m ++ ',' :: writeMembers (m' :: ms) := by
  rw [writeMember, List.append_assoc]
  rfl

theorem members?_writeMembers {ms : List (String × Data)} {ps : List (List Char × Node)}
    (h : List.Forall₂ ReadsMember ms ps) (ne : ms ≠ []) {fuel : Nat}
    (enough : (writeMembers ms).length + 1 ≤ fuel) (rest : List Char) :
    members? fuel (writeMembers ms ++ '\x7d' :: rest) = some (ps, rest) := by
  induction h generalizing fuel with
  | nil => exact absurd rfl ne
  | @cons m p ms ps hm hms ih =>
      obtain ⟨fuel, rfl⟩ : ∃ n, fuel = n + 1 := ⟨fuel - 1, by omega⟩
      have hlength := length_writeMember m
      cases ms with
      | nil =>
          cases hms
          rw [show writeMembers [m] = writeMember m from rfl] at enough ⊢
          rw [members?_member hm (by omega) (.brace rest)]
          rfl
      | cons m' ms =>
          rw [writeMembers_cons, List.length_append, List.length_cons] at enough
          rw [writeMembers_cons, List.append_assoc, List.cons_append]
          have hmore : members? fuel (writeMembers (m' :: ms) ++ '\x7d' :: rest) =
              some (ps, rest) := ih (List.cons_ne_nil m' ms) (by omega)
          rw [members?_member hm (by omega) (.comma _), membersAfter?, skipSpace_cons_of_ne rfl]
          exact Option.bind_eq_some_iff.2 ⟨_, hmore, rfl⟩

theorem membersToData?_eq {ms : List (String × Data)} {ps : List (List Char × Node)}
    (h : List.Forall₂ ReadsMember ms ps) (k : Nat) :
    membersToData? k ps = if Data.depthOfMembers ms ≤ k then some ms else none := by
  induction h with
  | nil => exact (if_pos (Nat.zero_le k)).symm
  | @cons m p ms ps hm hms ih =>
      obtain ⟨name, d⟩ := m
      obtain ⟨body, v⟩ := p
      obtain rfl : body = name.toList.flatMap escape := hm.name
      rw [membersToData?, string?_flatMap_escape, String.ofList_toList, hm.value.data k, ih,
        Data.depthOfMembers]
      exact bind_if_le d ms fun d ms => (name, d) :: ms

theorem reads_record {ms : List (String × Data)} {ps : List (List Char × Node)}
    (h : List.Forall₂ ReadsMember ms ps) : Reads (.record ms) (.object ps) := by
  refine ⟨⟨'\x7b', rfl, by decide⟩, fun fuel rest enough _ => ?_, fun k => ?_⟩
  · have htext : write (.record ms) ++ rest = '\x7b' :: (writeMembers ms ++ '\x7d' :: rest) := by
      simp [write]
    cases h with
    | nil =>
        rw [htext, value?, skipSpace_cons_of_ne (by decide)]
        simp only [writeMembers, List.nil_append, sign?_self (c := '\x7d') (by decide)]
    | @cons m p ms ps hm hms =>
        have hlength :
            (write (.record (m :: ms))).length = (writeMembers (m :: ms)).length + 2 := by
          simp [write]
        have hstart : ∀ t, sign? '\x7d' (writeMember m ++ t) = none := by
          intro t
          rw [writeMember_append]
          exact sign?_of_ne (by decide) (by decide) _
        rw [htext]
        refine value?_members ?_
          (members?_writeMembers (.cons hm hms) (List.cons_ne_nil m ms) (by omega) rest)
        cases ms with
        | nil => exact hstart _
        | cons m' ms =>
            rw [writeMembers_cons, List.append_assoc]
            exact hstart _
  · rw [Data.depth]
    cases k with
    | zero => rfl
    | succ k =>
        rw [Node.toData?, membersToData?_eq h]
        by_cases hdepth : Data.depthOfMembers ms ≤ k
        · rw [if_pos hdepth, if_pos (Nat.succ_le_succ hdepth)]
          rfl
        · rw [if_neg hdepth, if_neg (mt Nat.le_of_succ_le_succ hdepth)]
          rfl

/-- The syntax that a member is written in, with its name read already. -/
structure ReadsNamed (m : String × Data) (p : String × Node) : Prop where
  name : p.1 = m.1
  value : Reads m.2 p.2

theorem exists_readsNamed {ms : List (String × Data)} {ps : List (List Char × Node)}
    (h : List.Forall₂ ReadsMember ms ps) :
    ∃ named, ps.mapM (fun p => do return (← string? p.1, p.2)) = some named ∧
      List.Forall₂ ReadsNamed ms named := by
  induction h with
  | nil => exact ⟨[], rfl, .nil⟩
  | @cons m p ms ps hm hms ih =>
      obtain ⟨named, hnamed, hreads⟩ := ih
      have hname : string? p.1 = some m.1 := by
        rw [hm.name, string?_flatMap_escape, String.ofList_toList]
      refine ⟨(m.1, p.2) :: named, ?_, .cons ⟨rfl, hm.value⟩ hreads⟩
      rw [List.mapM_cons, hname, hnamed]
      rfl

theorem filter_readsNamed {names : List String} {ms : List (String × Data)}
    {ps : List (String × Node)} (h : List.Forall₂ ReadsNamed ms ps)
    (known : ∀ m ∈ ms, names.contains m.1 = true) :
    ps.filter (fun p => names.contains p.1) = ps := by
  induction h with
  | nil => rfl
  | @cons m p ms ps hm hms ih =>
      obtain ⟨hfirst, hrest⟩ := List.forall_mem_cons.1 known
      rw [List.filter_cons_of_pos (by rw [hm.name, hfirst]), ih hrest]

theorem toData?_readsNamed {ms : List (String × Data)} {ps : List (String × Node)}
    (h : List.Forall₂ ReadsNamed ms ps) (k : Nat) :
    ps.mapM (fun p => do return (p.1, ← p.2.toData? k)) =
      if Data.depthOfMembers ms ≤ k then some ms else none := by
  induction h with
  | nil => exact (if_pos (Nat.zero_le k)).symm
  | @cons m p ms ps hm hms ih =>
      obtain ⟨name, d⟩ := m
      rw [List.mapM_cons, hm.name, hm.value.data, ih, Data.depthOfMembers]
      simp only [bind_assoc, pure_bind]
      exact bind_if_le d ms fun d ms => (name, d) :: ms

/-- An object whose members all have one of the names is read as a whole. -/
theorem restricted?_object {names : List String} {ms : List (String × Data)}
    {ps : List (List Char × Node)} (h : List.Forall₂ ReadsMember ms ps)
    (known : ∀ m ∈ ms, names.contains m.1 = true) :
    (Node.object ps).restricted? names =
      if (Data.record ms).depth ≤ maxDepth then some (.record ms) else none := by
  obtain ⟨named, hnamed, hreads⟩ := exists_readsNamed h
  have hobject : (Node.object ps).restricted? names =
      ps.mapM (fun p => do return (← string? p.1, p.2)) >>= fun named =>
        (named.filter fun p => names.contains p.1).mapM
          (fun p => do return (p.1, ← p.2.toData? (maxDepth - 1))) >>= fun kept =>
        some (.record kept) := rfl
  rw [hobject, hnamed, Option.bind_eq_bind, Option.bind_some, filter_readsNamed hreads known,
    toData?_readsNamed hreads]
  have hdeep : (Data.record ms).depth ≤ maxDepth ↔ Data.depthOfMembers ms ≤ maxDepth - 1 :=
    Nat.succ_le_succ_iff
  rw [if_congr hdeep rfl rfl]
  split <;> rfl

/-! ## All data -/

theorem exists_readsMember {ms : List (String × Data)} (h : ∀ m ∈ ms, ∃ v, Reads m.2 v) :
    ∃ ps, List.Forall₂ ReadsMember ms ps := by
  refine exists_forall₂ fun m hm => ?_
  obtain ⟨v, hv⟩ := h m hm
  exact ⟨(_, v), rfl, hv⟩

/-- Data that JSON has is written in the syntax it is read in. -/
theorem exists_reads {d : Data} (h : Covers ReadsBack d) : ∃ v, Reads d v := by
  induction h with
  | null => exact ⟨_, reads_null⟩
  | bool b => exact ⟨_, reads_bool b⟩
  | text s => exact ⟨_, reads_text s⟩
  | int n lower upper =>
      obtain ⟨v, hv, hread⟩ := value?_int lower upper
      exact ⟨_, reads_number rfl hv hread⟩
  | float x h =>
      obtain ⟨v, hv, hread⟩ := value?_float h
      exact ⟨_, reads_number rfl hv hread⟩
  | array items _ ih =>
      obtain ⟨vs, hvs⟩ := exists_forall₂ ih
      exact ⟨_, reads_array hvs⟩
  | record members _ ih =>
      obtain ⟨ps, hps⟩ := exists_readsMember ih
      exact ⟨_, reads_record hps⟩

theorem Reads.read?_eq {d : Data} {v : Node} (h : Reads d v) :
    read? (write d) = some (v, []) := by
  have hread : value? (2 * (write d).length + 2) (write d ++ []) = some (v, []) :=
    h.read (by omega) nofun
  rwa [List.append_nil] at hread

section Decode

variable {α : Type} {text : String} {toData? : Node → Option Data}
  {describe : Data → Except DataError α}

/-- What is read is described, and then the end of the text is looked for. -/
theorem decode_of_read? {v : Node} {rest : List Char} {d : Data}
    (hread : read? text.toList = some (v, rest)) (hdata : toData? v = some d) :
    decode text toData? describe =
      describe d >>= fun a => if skipSpace rest = [] then .ok a else .error .malformed := by
  rw [decode, hread]
  simp only [hdata]
  rfl

theorem decode_of_none {v : Node} {rest : List Char}
    (hread : read? text.toList = some (v, rest)) (hdata : toData? v = none) :
    decode text toData? describe = .error .malformed := by
  rw [decode, hread]
  simp only [hdata]
  rfl

theorem exists_of_decode_eq_ok {a : α} (h : decode text toData? describe = .ok a) :
    ∃ v d, toData? v = some d ∧ describe d = .ok a := by
  cases hread : read? text.toList with
  | none =>
      rw [decode, hread] at h
      cases h
  | some p =>
      obtain ⟨v, rest⟩ := p
      cases hdata : toData? v with
      | none =>
          rw [decode_of_none hread hdata] at h
          cases h
      | some d =>
          rw [decode_of_read? hread hdata] at h
          obtain ⟨b, hb, h⟩ := bind_eq_ok_iff.1 h
          split at h
          · cases h
            exact ⟨v, d, hdata, hb⟩
          · cases h

end Decode

/-- Data whose syntax stands for it, if it is not nested too deep, is described as it is. -/
theorem Reads.decode_write {d : Data} {v : Node} (h : Reads d v) {α : Type}
    {toData? : Node → Option Data}
    (hdata : toData? v = if d.depth ≤ maxDepth then some d else none)
    (describe : Data → Except DataError α) :
    decode (String.ofList (write d)) toData? describe =
      if d.depth ≤ maxDepth then describe d else .error .malformed := by
  have hread : read? (String.ofList (write d)).toList = some (v, []) := by
    rw [String.toList_ofList, h.read?_eq]
  by_cases hdepth : d.depth ≤ maxDepth
  · rw [if_pos hdepth, decode_of_read? hread (hdata.trans (if_pos hdepth))]
    cases describe d <;> rfl
  · rw [if_neg hdepth, decode_of_none hread (hdata.trans (if_neg hdepth))]

/-- What is decoded from the text of data is what the data describes, if it is not nested too deep,
and nothing else. -/
theorem decode_write {d : Data} (h : Covers ReadsBack d) {α : Type}
    (describe : Data → Except DataError α) :
    decode (String.ofList (write d)) (·.toData? maxDepth) describe =
      if d.depth ≤ maxDepth then describe d else .error .malformed := by
  obtain ⟨v, hv⟩ := exists_reads h
  exact hv.decode_write (hv.data maxDepth) describe

/-- A record may be decoded for members of some names if it has no others. -/
theorem decode_write_restricted {names : List String} {ms : List (String × Data)}
    (h : Covers ReadsBack (.record ms)) (known : ∀ m ∈ ms, names.contains m.1 = true) {α : Type}
    (describe : Data → Except DataError α) :
    decode (String.ofList (write (.record ms))) (·.restricted? names) describe =
      if (Data.record ms).depth ≤ maxDepth then describe (.record ms) else .error .malformed := by
  cases h with
  | record members hmembers =>
      obtain ⟨ps, hps⟩ := exists_readsMember fun m hm => exists_reads (hmembers m hm)
      exact (reads_record hps).decode_write (restricted?_object hps known) describe

end Json

end EventQuery
