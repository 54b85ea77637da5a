import EventQuery.Criterion.Printer
import EventQuery.Proofs.Criterion.Parsing
import EventQuery.Proofs.Criterion.Substitution

/-!
# Criteria are read back from their text

The written form of a criterion keeps less than the criterion itself: a value becomes its text, and
a comparison without a value only asks whether there is one. Up to that, and up to nesting that
makes no difference, parsing the written form gives the criterion back.

Text between parentheses must not be empty, so no operand may be without text. The empty criterion
itself has no text, and blank text is no condition.
-/

namespace EventQuery

/-! ## What the written form says -/

/-- The comparison as its text says it. -/
def Leaf.textual (l : Leaf) : Leaf :=
  match l.operand with
  | some v => { l with operand := some (.text (String.ofList v.plainText)) }
  | none => if l.operator.isNegated then .present l.path else .absent l.path

/-- The comparison says all it is in its text: its value is text, or it is one of the two tests for
a value. -/
def Leaf.IsTextual (l : Leaf) : Prop :=
  match l.operand with
  | some v => ∃ s, v = .text s
  | none => l.operator = .equal ∨ l.operator = .notEqual

theorem Leaf.textual_eq_self {l : Leaf} (h : l.IsTextual) : l.textual = l := by
  obtain ⟨path, operator, _ | v⟩ := l
  · rcases h with rfl | rfl <;> rfl
  · obtain ⟨s, rfl⟩ := h
    simp [textual]

/-- The leaf can be written: its path consists of field names, and a value is compared with by a
comparison. -/
structure Leaf.IsWritable (l : Leaf) : Prop where
  path : l.path.HasFieldNames
  operator : l.operand.isSome → l.operator.isConnective = false

instance (l : Leaf) : Decidable l.IsWritable :=
  decidable_of_iff (l.path.HasFieldNames ∧ (l.operand.isSome → l.operator.isConnective = false))
    ⟨fun h => ⟨h.1, h.2⟩, fun h => ⟨h.path, h.operator⟩⟩

namespace Criterion

/-- The criterion as its text says it. -/
def textual (a : Criterion) : Criterion := a.substitute fun l => leaf l.textual

theorem textual_eq_self {a : Criterion} (h : ∀ l ∈ a.leaves, l.IsTextual) : a.textual = a :=
  (relabel_congr Leaf.textual fun l hl => Leaf.textual_eq_self (h l hl)).trans a.relabel_id

/-- The criterion has no text: it is empty or a join of nothing. -/
def isHollow : Criterion → Bool
  | empty => true
  | leaf _ => false
  | join _ cs => cs.isEmpty

/-- No operand of any join is without text. -/
inductive IsSolid : Criterion → Prop
  | empty : IsSolid empty
  | leaf (l : Leaf) : IsSolid (leaf l)
  | join {c : Connective} {cs : List Criterion} (operands : ∀ a ∈ cs, IsSolid a)
      (texts : ∀ a ∈ cs, a.isHollow = false) : IsSolid (join c cs)

theorem isSolid_join {c : Connective} {cs : List Criterion} :
    (join c cs).IsSolid ↔ ∀ a ∈ cs, a.IsSolid ∧ a.isHollow = false := by
  constructor
  · intro h a ha
    cases h with
    | join operands texts => exact ⟨operands a ha, texts a ha⟩
  · intro h
    exact .join (fun a ha => (h a ha).1) fun a ha => (h a ha).2

theorem isHollow_of_isFlat {a : Criterion} (h : a.IsFlat) (ne : a ≠ empty) :
    a.isHollow = false := by
  cases h with
  | empty => exact absurd rfl ne
  | leaf l => rfl
  | @join c cs two =>
      match cs, two with
      | x :: y :: zs, _ => rfl

theorem isSolid_of_isFlat {a : Criterion} (h : a.IsFlat) : a.IsSolid := by
  induction h with
  | empty => exact .empty
  | leaf l => exact .leaf l
  | join two flat proper ih =>
      exact .join ih fun a ha => isHollow_of_isFlat (flat a ha) (proper a ha).1

/-! ## Reading the written form -/

section Reading

open Grammar

theorem spellOperands_cons (c : Connective) (a : Criterion) (as : List Criterion) :
    spellOperands c (a :: as) =
      a.enclose a.spelling ++ signed c (as.map fun b => b.enclose b.spelling) := by
  induction as generalizing a with
  | nil => simp [spellOperands, signed]
  | cons b as ih =>
      rw [spellOperands, ih]
      · simp [signed, Connective.sign]
      · exact List.cons_ne_nil _ _

/-- The connective stands between the operands and nowhere else. -/
theorem spellOperands_eq (c : Connective) (cs : List Criterion) :
    spellOperands c cs = c.sign.intercalate (cs.map fun a => a.enclose a.spelling) := by
  induction cs with
  | nil => rfl
  | cons a as ih =>
      cases as with
      | nil => simp [spellOperands]
      | cons b bs =>
          rw [spellOperands, ih, List.map_cons, List.map_cons, List.map_cons,
            List.intercalate_cons_cons]
          · simp [Connective.sign]
          · exact List.cons_ne_nil _ _

theorem textual_join (c : Connective) (cs : List Criterion) :
    (join c cs).textual = join c (cs.map textual) := relabel_join Leaf.textual c cs

/-- Texts of operands are read as operands with the same normal form, and combine to it. -/
theorem exists_reads_operands {m : Matcher Criterion} {marks : List Char}
    {f : Criterion → List Char} {a : Criterion} {as : List Criterion}
    (h : ∀ x ∈ a :: as, ∃ b, Reads m marks (f x) b ∧ b.flatten = x.textual.flatten) :
    ∃ b bs, Reads m marks (f a) b ∧ List.Forall₂ (Reads m marks) (as.map f) bs ∧
      ∀ c, (bs.foldl (combine c) b).flatten = (join c (a :: as)).textual.flatten := by
  have hall : ∀ xs ⊆ a :: as, ∃ bs, List.Forall₂ (Reads m marks) (xs.map f) bs ∧
      bs.map flatten = (xs.map textual).map flatten := by
    intro xs hxs
    induction xs with
    | nil => exact ⟨[], .nil, rfl⟩
    | cons x xs ih =>
        obtain ⟨b, hb, hflat⟩ := h x (hxs List.mem_cons_self)
        obtain ⟨bs, hbs, hflats⟩ := ih fun y hy => hxs (List.mem_cons_of_mem x hy)
        refine ⟨b :: bs, .cons hb hbs, ?_⟩
        rw [List.map_cons, hflat, hflats]
        rfl
  obtain ⟨b, hb, hflat⟩ := h a List.mem_cons_self
  obtain ⟨bs, hbs, hflats⟩ := hall as (List.subset_cons_self a as)
  refine ⟨b, bs, hb, hbs, fun c => ?_⟩
  rw [flatten_foldl_combine, textual_join]
  refine flatten_join_congr ?_
  rw [List.map_cons, hflat, hflats]
  rfl

theorem exists_reads_join (c : Connective) {a : Criterion} {as : List Criterion}
    (h : ∀ x ∈ a :: as, ∃ b, Reads (negation disjunction) operandMarks (x.enclose x.spelling) b ∧
      b.flatten = x.textual.flatten) :
    ∃ b, Reads disjunction [')'] (spellOperands c (a :: as)) b ∧
      b.flatten = (join c (a :: as)).textual.flatten := by
  obtain ⟨b, bs, hb, hbs, hflat⟩ := exists_reads_operands (f := fun x => x.enclose x.spelling) h
  refine ⟨bs.foldl (combine c) b, ?_, hflat c⟩
  rw [spellOperands_cons]
  exact reads_operands c hb hbs

theorem reads_leaf {l : Leaf} (h : l.IsWritable) :
    Reads (negation disjunction) operandMarks l.spelling (leaf l.textual) := by
  obtain ⟨path, operator, _ | v⟩ := l
  · by_cases hneg : operator.isNegated = true
    · simpa [Leaf.spelling, Leaf.textual, hneg] using (reads_presence h.path).1
    · simpa [Leaf.spelling, Leaf.textual, hneg] using (reads_presence h.path).2
  · cases operator with
    | comparison c => exact reads_value h.path c v
    | connective c => cases h.operator rfl

theorem exists_reads_enclose {a : Criterion} (text : a.isHollow = false) (solid : a.IsSolid)
    (writable : ∀ l ∈ a.leaves, l.IsWritable) :
    ∃ b, Reads (negation disjunction) operandMarks (a.enclose a.spelling) b ∧
      b.flatten = a.textual.flatten := by
  induction a with
  | empty => cases text
  | leaf l => exact ⟨leaf l.textual, reads_leaf (writable l List.mem_cons_self), rfl⟩
  | join c cs ih =>
      have solid := isSolid_join.1 solid
      cases cs with
      | nil => cases text
      | cons a as =>
          have hops : ∀ x ∈ a :: as, ∃ b,
              Reads (negation disjunction) operandMarks (x.enclose x.spelling) b ∧
                b.flatten = x.textual.flatten := by
            intro x hx
            exact ih x hx (solid x hx).2 (solid x hx).1 fun l hl =>
              writable l (mem_leaves_join hx hl)
          obtain ⟨b, hb, hflat⟩ := exists_reads_join c hops
          exact ⟨b, reads_group hb, hflat⟩

/-- A criterion with text is read by the grammar as one with the same normal form. -/
theorem exists_reads_spelling {a : Criterion} (text : a.isHollow = false) (solid : a.IsSolid)
    (writable : ∀ l ∈ a.leaves, l.IsWritable) :
    ∃ b, Reads disjunction [')'] a.spelling b ∧ b.flatten = a.textual.flatten := by
  cases a with
  | empty => cases text
  | leaf l =>
      exact ⟨leaf l.textual, reads_operand (reads_leaf (writable l List.mem_cons_self)), rfl⟩
  | join c cs =>
      have solid := isSolid_join.1 solid
      cases cs with
      | nil => cases text
      | cons a as =>
          exact exists_reads_join c fun x hx =>
            exists_reads_enclose (solid x hx).2 (solid x hx).1 fun l hl =>
              writable l (mem_leaves_join hx hl)

/-- What the grammar reads from a text is parsed from it, up to normal form. -/
theorem parse_of_reads {t : List Char} {b : Criterion} (h : Reads disjunction [')'] t b) :
    Criterion.parse (String.ofList t) = .ok b.flatten := by
  have hread := h.read [] (follows_nil _)
  rw [List.append_nil] at hread
  refine parse_of_read_disjunction ?_ ?_
  · rw [String.toList_ofList]
    exact h.start
  · rw [String.toList_ofList]
    exact hread

theorem parse_text_of_reads {a b : Criterion} (h : Reads disjunction [')'] a.spelling b) :
    Criterion.parse a.text = .ok b.flatten := parse_of_reads h

end Reading

theorem isBlank_text_of_isHollow {a : Criterion} (h : a.isHollow = true) :
    Text.isBlank a.text = true ∧ a.textual.flatten = empty := by
  cases a with
  | empty => exact ⟨rfl, rfl⟩
  | leaf l => cases h
  | join c cs =>
      obtain rfl := List.isEmpty_iff.1 h
      exact ⟨rfl, rfl⟩

/-- The written form of a criterion is read back as its normal form, up to what text can say; and
fully where the criterion says no more than its text. -/
theorem parse_text_eq_flatten {a : Criterion} (solid : a.IsSolid)
    (writable : ∀ l ∈ a.leaves, l.IsWritable) :
    Criterion.parse a.text = .ok a.textual.flatten ∧
      ((∀ l ∈ a.leaves, l.IsTextual) → Criterion.parse a.text = .ok a.flatten) := by
  have hparse : Criterion.parse a.text = .ok a.textual.flatten := by
    by_cases hollow : a.isHollow = true
    · obtain ⟨hblank, hempty⟩ := isBlank_text_of_isHollow hollow
      rw [Criterion.parse, if_pos hblank, hempty]
    · obtain ⟨b, hb, hflat⟩ := exists_reads_spelling (Bool.eq_false_iff.2 hollow) solid writable
      rw [parse_text_of_reads hb, hflat]
  exact ⟨hparse, fun textual => by rw [hparse, textual_eq_self textual]⟩

/-- Joins in joins, with signs of the grammar in keys and values. -/
def awkward : Criterion :=
  let keyed : Path :=
    ⟨[⟨"source", some (.position Int64.minValue)⟩, ⟨"meta", some (.key "k\" \\)|")⟩], by simp⟩
  join .and
    [join .or
      [leaf ⟨keyed, .comparison (.relation .contains true true), some (.text "\\\" && (a\n) '")⟩,
        join .and [leaf (.absent (.single "x-1"))]],
      join .and
        [leaf (.present (.single "y")),
          leaf ⟨.single "z", .comparison (.order .less), some (.text "")⟩]]

theorem parse_text_eq_flatten_awkward :
    awkward.IsSolid ∧ (∀ l ∈ awkward.leaves, l.IsWritable ∧ l.IsTextual) ∧
      Criterion.parse awkward.text = .ok awkward.flatten := by
  have solid : awkward.IsSolid := by
    simp [awkward, isSolid_join, isHollow, IsSolid.leaf]
  have hleaves : ∀ l ∈ awkward.leaves, l.IsWritable ∧ l.IsTextual := by
    intro l hl
    simp only [awkward, leaves_join, leaves_leaf, List.flatMap_cons, List.flatMap_nil,
      List.append_nil, List.cons_append, List.nil_append, List.mem_cons, List.not_mem_nil,
      or_false] at hl
    rcases hl with rfl | rfl | rfl | rfl
    · exact ⟨by decide, _, rfl⟩
    · exact ⟨by decide, Or.inl rfl⟩
    · exact ⟨by decide, Or.inr rfl⟩
    · exact ⟨by decide, _, rfl⟩
  exact ⟨solid, hleaves, (parse_text_eq_flatten solid fun l hl => (hleaves l hl).1).2
    fun l hl => (hleaves l hl).2⟩

end Criterion

end EventQuery
