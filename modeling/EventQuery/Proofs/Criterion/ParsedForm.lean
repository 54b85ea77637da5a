import EventQuery.Proofs.Criterion.RoundTrip

/-!
# What parsing produces

What is parsed is in normal form, and its leaves say no more than text can: their paths consist of
field names, they compare with text, and without an operand they ask for a value or its absence.
Nothing else restricts what can be parsed: every criterion of this form is, from its own text.
-/

namespace EventQuery

namespace Leaf

theorem IsWritable.negate {l : Leaf} (h : l.IsWritable) : l.negate.IsWritable where
  path := h.path
  operator hoperand := by
    have hcomparison := h.operator hoperand
    show l.operator.negate.isConnective = false
    cases hop : l.operator with
    | comparison c => rfl
    | connective c =>
        rw [hop] at hcomparison
        cases hcomparison

theorem IsTextual.negate {l : Leaf} (h : l.IsTextual) : l.negate.IsTextual := by
  obtain ⟨path, operator, _ | v⟩ := l
  · rcases h with rfl | rfl
    · exact Or.inr rfl
    · exact Or.inl rfl
  · exact h

end Leaf

namespace Criterion

/-- A normal form with leaves that text says in full. -/
structure IsParsed (a : Criterion) : Prop where
  flat : a.IsFlat
  writable : ∀ l ∈ a.leaves, l.IsWritable
  textual : ∀ l ∈ a.leaves, l.IsTextual

end Criterion

namespace Grammar

open Matcher

theorem yields_operand : operand.Yields fun v => ∃ s, v = .text s :=
  .bind_all fun s => .pure ⟨s, rfl⟩

/-- The leaves of the criterion are said in full by text. -/
def SaysLeaves (a : Criterion) : Prop := ∀ l ∈ a.leaves, l.IsWritable ∧ l.IsTextual

theorem saysLeaves_leaf {l : Leaf} (h : l.IsWritable ∧ l.IsTextual) : SaysLeaves (.leaf l) := by
  intro m hm
  rwa [List.mem_singleton.1 hm]

theorem yields_comparison : comparison.Yields SaysLeaves := by
  have htest : (do
      let c ← padded comparisonOperator
      let v ← operand
      return (c, v) : Matcher (Comparison × Value)).Yields fun t => ∃ s, t.2 = .text s :=
    .bind_all fun _ => .bind yields_operand fun _ hv => .pure hv
  refine .bind yields_path fun p hp => .bind (.optional htest) fun test ht => .pure ?_
  cases test with
  | none => exact saysLeaves_leaf ⟨⟨hp, nofun⟩, Or.inr rfl⟩
  | some t => exact saysLeaves_leaf ⟨⟨hp, fun _ => rfl⟩, ht t rfl⟩

theorem kept_saysLeaves : Kept SaysLeaves where
  comparison := yields_comparison
  combine c a b ha hb := by
    intro l hl
    rw [Criterion.leaves_combine] at hl
    exact (List.mem_append.1 hl).elim (ha l) (hb l)
  negate ha := by
    intro l hl
    rw [Criterion.leaves_negate] at hl
    obtain ⟨m, hm, rfl⟩ := List.mem_map.1 hl
    exact ⟨(ha m hm).1.negate, (ha m hm).2.negate⟩

end Grammar

namespace Criterion

variable {a : Criterion}

theorem IsParsed.textual_flatten (h : a.IsParsed) : a.textual.flatten = a := by
  rw [textual_eq_self h.textual, flatten_of_isFlat h.flat]

theorem isParsed_empty : empty.IsParsed := ⟨.empty, nofun, nofun⟩

theorem isParsed_of_parse_ok {text : String} (h : Criterion.parse text = .ok a) : a.IsParsed := by
  cases blank : Text.isBlank text with
  | true =>
      rw [parse_of_isBlank blank] at h
      cases h
      exact isParsed_empty
  | false =>
      obtain ⟨b, hread, rfl⟩ := (parse_eq_ok_iff blank).1 h
      have hleaves := Grammar.kept_saysLeaves.criteria _ b _ hread
      rw [Grammar.SaysLeaves, ← leaves_flatten] at hleaves
      exact ⟨isFlat_flatten b, fun l hl => (hleaves l hl).1, fun l hl => (hleaves l hl).2⟩

/-- Of a criterion in parsed form the text says everything. -/
theorem IsParsed.parse_text (h : a.IsParsed) : Criterion.parse a.text = .ok a := by
  by_cases ne : a = empty
  · rw [ne]
    rfl
  · obtain ⟨b, hb, hflat⟩ :=
      exists_reads_spelling (isHollow_of_isFlat h.flat ne) (isSolid_of_isFlat h.flat) h.writable
    rw [parse_text_of_reads hb, hflat, h.textual_flatten]

/-- Parsing produces the criteria in parsed form and no others, and the empty one from blank text
only. -/
theorem exists_parse_eq_ok_iff (a : Criterion) :
    ((∃ text, Criterion.parse text = .ok a) ↔ a.IsParsed) ∧
      ∀ text, Criterion.parse text = .ok empty ↔ Text.isBlank text = true := by
  constructor
  · constructor
    · rintro ⟨text, h⟩
      exact isParsed_of_parse_ok h
    · exact fun h => ⟨a.text, h.parse_text⟩
  · intro text
    exact ⟨fun h => (leaves_eq_nil_iff_of_parse_ok h).1 rfl, parse_of_isBlank⟩

end Criterion

end EventQuery
