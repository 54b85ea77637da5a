import EventQuery.Backend.CriteriaText
import EventQuery.Proofs.Backend.Preparation
import EventQuery.Proofs.Criterion.RoundTrip
import EventQuery.Proofs.Errors

/-!
# Criteria compiled to text are read back

The text made of a prepared criterion is the written form of that criterion with full paths, in
parentheses if it is a join. So it is read back as that criterion, up to what text can say; and a
prepared criterion says no more than its text but for the kinds of its operands.
-/

namespace EventQuery

/-- The leaf with its full path. -/
def Leaf.qualify (entity : String) (l : Leaf) : Leaf := { l with path := l.path.qualify entity }

/-- The leaf with the text of its operand for an operand. -/
def Leaf.withPlainText (l : Leaf) : Leaf :=
  { l with operand := l.operand.map fun v => .text (String.ofList v.plainText) }

/-- The text of an operand says all but its kind. -/
theorem Leaf.textual_eq_withPlainText {l : Leaf}
    (h : l.operand = none → l.operator = .equal ∨ l.operator = .notEqual) :
    l.textual = l.withPlainText := by
  obtain ⟨path, operator, _ | v⟩ := l
  · rcases h rfl with rfl | rfl <;> rfl
  · rfl

namespace EntitySchema

variable {s : EntitySchema}

theorem lowerAll_of_lower {b : Backend ε} {text : Criterion → ε} {cs : List Criterion}
    (h : ∀ a ∈ cs, s.lower b a = .ok (some (text a))) : s.lowerAll b cs = .ok (cs.map text) := by
  induction cs with
  | nil => rfl
  | cons a as ih =>
      rw [lowerAll, h a List.mem_cons_self, ih fun x hx => h x (List.mem_cons_of_mem a hx)]
      rfl

/-- Lowered to text, a criterion in normal form is written as an operand with full paths. -/
theorem lower_criteriaText {r : Criterion} (flat : r.IsFlat) (ne : r ≠ .empty)
    (known : ∀ l ∈ r.leaves, ∃ f, s.resolve l.path = .ok f) :
    s.lower Backend.criteriaText r = .ok (some ((r.relabel (.qualify s.name)).enclose
      (r.relabel (.qualify s.name)).spelling)) := by
  induction flat with
  | empty => exact absurd rfl ne
  | leaf l =>
      obtain ⟨f, hf⟩ := known l (List.mem_singleton_self l)
      rw [lower, lowerLeaf, hf]
      rfl
  | @join c cs two flat proper ih =>
      rw [Criterion.leaves_join] at known
      have hall := lowerAll_of_lower (b := Backend.criteriaText) fun a ha =>
        ih a ha (proper a ha).1 fun l hl => known l (List.mem_flatMap_of_mem ha hl)
      have htext : (Criterion.join c (cs.map (Criterion.relabel (.qualify s.name)))).spelling =
          c.sign.intercalate (cs.map fun a => (a.relabel (.qualify s.name)).enclose
            (a.relabel (.qualify s.name)).spelling) := by
        rw [Criterion.spelling, Criterion.spellOperands_eq, List.map_map]
        rfl
      rw [lower, hall, Criterion.relabel_join, htext]
      match cs, two with
      | x :: y :: zs, _ => rfl

/-- A prepared leaf without an operand is one of the two tests for a value, and one with an operand
compares if the leaves of the criterion do. -/
theorem operator_of_prepare_ok {c r : Criterion} (h : s.prepare c = .ok r)
    (comparing : ∀ l ∈ c.leaves, l.operand.isSome → l.operator.isConnective = false) :
    ∀ l ∈ r.leaves, (l.operand = none → l.operator = .equal ∨ l.operator = .notEqual) ∧
      (l.operand.isSome → l.operator.isConnective = false) := by
  intro l hl
  obtain ⟨m, hm, hprepared, f, hf⟩ := s.exists_leaf_of_prepare_ok h hl
  rcases s.mem_preparedLeaves hprepared with rfl | ⟨-, rfl⟩
  · rw [isSome_operand_preparedLeaf, preparedLeaf_operator]
    refine ⟨fun hnone => ?_, comparing m hm⟩
    have haccepts := (s.checkLeaf_ok_iff.1 hf).2
    rw [← s.accepts_preparedLeaf, Field.accepts, hnone, preparedLeaf_operator] at haccepts
    simpa using haccepts
  · exact ⟨nofun, fun _ => rfl⟩

/-- The text of a compiled criterion is read back as the prepared criterion, with full paths and
with the text of its operands. -/
theorem parse_compiled_text (hentity : Grammar.IsFieldName s.name) {c : Criterion}
    (parsed : ∀ l ∈ c.leaves, ∃ text, Path.parse text = .ok l.path)
    (comparing : ∀ l ∈ c.leaves, l.operand.isSome → l.operator.isConnective = false)
    {t : List Char} (h : s.compile Backend.criteriaText c = .ok (some t)) :
    ∃ r, s.prepare c = .ok r ∧ Criterion.parse (String.ofList t) =
      .ok (r.relabel fun l => (l.qualify s.name).withPlainText) := by
  obtain ⟨r, hr, hlower⟩ := bind_eq_ok_iff.1 h
  have flat := s.isFlat_of_prepare_ok hr
  have named := s.hasFieldNames_of_prepare_ok hr parsed
  have hoperator := operator_of_prepare_ok hr comparing
  have ne : r ≠ .empty := by
    rintro rfl
    cases hlower
  have htext := lower_criteriaText flat ne (s.resolve_of_prepare_ok hr)
  cases hlower.symm.trans htext
  have writable : ∀ l ∈ (r.relabel (.qualify s.name)).leaves, l.IsWritable := by
    rw [Criterion.leaves_relabel]
    refine List.forall_mem_map.2 fun l hl => ⟨?_, (hoperator l hl).2⟩
    exact Path.hasFieldNames_qualify_iff.2 ⟨hentity, named l hl⟩
  have hflat := Criterion.isFlat_relabel (.qualify s.name) flat
  have hollow := Criterion.isHollow_of_isFlat hflat (Criterion.relabel_ne_empty _ ne)
  obtain ⟨b, hreads, hb⟩ :=
    Criterion.exists_reads_enclose hollow (Criterion.isSolid_of_isFlat hflat) writable
  have htextual : (r.relabel (.qualify s.name)).textual =
      r.relabel fun l => (l.qualify s.name).withPlainText := by
    rw [Criterion.textual, ← Criterion.relabel, Criterion.relabel_relabel]
    exact Criterion.relabel_congr _ fun l hl =>
      Leaf.textual_eq_withPlainText (hoperator l hl).1
  refine ⟨r, hr, ?_⟩
  rw [Criterion.parse_of_reads (Grammar.reads_operand hreads), hb, htextual,
    Criterion.flatten_of_isFlat (Criterion.isFlat_relabel _ flat)]

/-- Under an entity with a list: a list of alternatives within a conjunction, one of them an absence
test, and operands that are not text or hold signs of the grammar. -/
theorem parse_compiled_text_nested :
    let s := ((empty "event").declareField (.single "name") (.ofType .text)).declareField
      ((Path.single "source").child "port") (.ofType .integer) |>.declareList
        (.single "source") .last
    let c : Criterion := .join .and [.join .or [.leaf (.absent (.single "name")),
        .leaf ⟨.single "name", .comparison (.relation .contains false true), some (.text "a) \"")⟩],
      .leaf ⟨(Path.single "source").child "port", .notEqual, some (.int (-1))⟩]
    Grammar.IsFieldName s.name ∧ (∀ l ∈ c.leaves, ∃ text, Path.parse text = .ok l.path) ∧
      (∀ l ∈ c.leaves, l.operand.isSome → l.operator.isConnective = false) ∧
      ∃ t r, s.compile Backend.criteriaText c = .ok (some t) ∧
        String.ofList t = "((!event.name || event.name == \"\" || " ++
          "event.name <>* \"*a) \\\"*\") && event.source(-1).port != -1)" ∧
        s.prepare c = .ok r ∧ Criterion.parse (String.ofList t) =
          .ok (r.relabel fun l => (l.qualify s.name).withPlainText) := by
  intro s c
  have hentity : Grammar.IsFieldName s.name := by decide
  have parsed : ∀ l ∈ c.leaves, ∃ text, Path.parse text = .ok l.path := by
    have named : ∀ l ∈ c.leaves, l.path.HasFieldNames := by decide
    exact fun l hl => ⟨_, Path.parse_text (named l hl)⟩
  have comparing : ∀ l ∈ c.leaves, l.operand.isSome → l.operator.isConnective = false := by
    decide
  have hfacts : (s.compile Backend.criteriaText c).toOption.any (fun t? => t?.any fun t =>
      decide (String.ofList t = "((!event.name || event.name == \"\" || " ++
        "event.name <>* \"*a) \\\"*\") && event.source(-1).port != -1)")) = true := by
    decide +kernel
  obtain ⟨t?, hcompile, hfacts⟩ := exists_ok_of_any hfacts
  cases t? with
  | none => cases hfacts
  | some t =>
      obtain ⟨r, hr, hparse⟩ := parse_compiled_text hentity parsed comparing hcompile
      exact ⟨hentity, parsed, comparing, t, r, hcompile, of_decide_eq_true hfacts, hr, hparse⟩

end EntitySchema

end EventQuery
