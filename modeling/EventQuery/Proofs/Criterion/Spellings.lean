import EventQuery.Proofs.Grammar.Continuation
import EventQuery.Proofs.Selection.Paths

/-!
# Two ways to write an operand

A text may stand between quotation marks, where the mark and the backslash are escaped, or bare,
where the reserved characters are. Bare text has no white space and does not begin with a quotation
mark; every text like that can be written in both ways, and both are read as the text itself behind
every spelling of an operator. The operator needs a space behind it, since the text could begin with
a character that makes it a longer one.
-/

namespace EventQuery

namespace Grammar

open Matcher

/-! ## Bare text -/

/-- A text with a backslash before each reserved character. -/
def escapeReserved (s : List Char) : List Char :=
  s.flatMap fun c => if isReserved c then ['\\', c] else [c]

theorem escapeReserved_cons_of_reserved {c : Char} (h : isReserved c = true) (s : List Char) :
    escapeReserved (c :: s) = '\\' :: c :: escapeReserved s := by
  simp [escapeReserved, h]

theorem escapeReserved_cons_of_ordinary {c : Char} (h : isReserved c = false) (s : List Char) :
    escapeReserved (c :: s) = c :: escapeReserved s := by
  simp [escapeReserved, h]

/-- The text begins as before, unless that is a reserved character. -/
theorem head_escapeReserved (s : List Char) :
    ∀ d ∈ (escapeReserved s).head?, isReserved d = false ∧ (d = '\\' ∨ d ∈ s.head?) := by
  cases s with
  | nil => exact nofun
  | cons c s =>
      cases hc : isReserved c with
      | true =>
          rw [escapeReserved_cons_of_reserved hc]
          rintro d ⟨⟩
          exact ⟨by decide, Or.inl rfl⟩
      | false =>
          rw [escapeReserved_cons_of_ordinary hc]
          rintro d ⟨⟩
          exact ⟨hc, Or.inr rfl⟩

/-- No backslash of the text gets in front of a reserved character. -/
theorem bareBody_escapeReserved {s : List Char} (visible : ∀ c ∈ s, Text.isSpace c = false) :
    bareBody (escapeReserved s) = (s, []) := by
  induction s with
  | nil => rfl
  | cons c s ih =>
      obtain ⟨hspace, hrest⟩ := List.forall_mem_cons.1 visible
      cases hc : isReserved c with
      | true => rw [escapeReserved_cons_of_reserved hc, bareBody_escaped hc, ih hrest]
      | false =>
          have hplain : (isReserved c || Text.isSpace c) = false := by
            rw [hc, hspace, Bool.or_false]
          rw [escapeReserved_cons_of_ordinary hc,
            bareBody_of_plain hplain fun _ d hd => (head_escapeReserved s d hd).1, ih hrest]

theorem read_operand_escapeReserved {s : String} (ne : s ≠ "")
    (visible : ∀ c ∈ s.toList, Text.isSpace c = false)
    (unquoted : ∀ c ∈ s.toList.head?, c ≠ '"' ∧ c ≠ '\'') :
    operand.read (escapeReserved s.toList) = some (.text s, []) := by
  have nostring : quotedString.read (escapeReserved s.toList) = none := by
    refine read_quotedString_eq_none fun d hd => ?_
    rcases (head_escapeReserved s.toList d hd).2 with rfl | hd
    · decide
    · exact unquoted d hd
  have hne : s.toList ≠ [] := fun h => ne (String.toList_eq_nil_iff.1 h)
  rw [operand, read_bind, read_orElse, nostring, Option.none_or, read_bareValue,
    bareBody_escapeReserved visible, if_neg hne, String.ofList_toList]
  rfl

theorem read_operand_quote (s : String) :
    operand.read (Text.quote '"' s.toList) = some (.text s, []) := by
  have hread : operand.read (Text.quote '"' s.toList ++ []) =
      some (.text (String.ofList (Value.text s).plainText), []) := read_operand (.text s) nofun
  rwa [List.append_nil, Value.plainText_text, String.ofList_toList] at hread

end Grammar

namespace Criterion

open Grammar

/-- A path, an operator and an operand with spaces between them are a comparison. -/
theorem parse_comparison {path op : String} {p : Path} {c : Comparison} {v : List Char} {a : Value}
    (hpath : Path.parse path = .ok p) (hop : Comparison.ofToken? op = some c)
    (start : ∀ d ∈ v.head?, Text.isSpace d = false) (hoperand : operand.read v = some (a, [])) :
    Criterion.parse (path ++ " " ++ op ++ " " ++ String.ofList v) =
      .ok (.leaf ⟨p, .comparison c, some a⟩) := by
  have htext : (path ++ " " ++ op ++ " " ++ String.ofList v).toList =
      path.toList ++ ' ' :: (op.toList ++ ' ' :: v) := by simp
  have hcomparison : comparison.read (path ++ " " ++ op ++ " " ++ String.ofList v).toList =
      some (.leaf ⟨p, .comparison c, some a⟩, []) := by
    have hread := read_path_before (Path.parse_eq_ok_iff.1 hpath)
      (endsPath_space (op.toList ++ ' ' :: v))
    rw [htext]
    refine read_comparison_of_read hread hop ?_
    rw [Text.skipSpace_blank, Text.skipSpace_of_head start, hoperand]
  obtain ⟨d, hd, halpha⟩ := exists_head_of_read_comparison hcomparison
  exact parse_of_read_disjunction ⟨d, hd, Text.isSpace_of_isAlpha halpha⟩
    (read_disjunction_of_read_comparison hcomparison)

/-- A text without white space that does not begin with a quotation mark may be written bare, with
its reserved characters escaped, or quoted. -/
theorem parse_bare_and_quoted {path op s : String} {p : Path} {c : Comparison}
    (hpath : Path.parse path = .ok p) (hop : Comparison.ofToken? op = some c) (ne : s ≠ "")
    (visible : ∀ d ∈ s.toList, Text.isSpace d = false)
    (unquoted : ∀ d ∈ s.toList.head?, d ≠ '"' ∧ d ≠ '\'') :
    Criterion.parse (path ++ " " ++ op ++ " " ++ String.ofList (escapeReserved s.toList)) =
        .ok (.leaf ⟨p, .comparison c, some (.text s)⟩) ∧
      Criterion.parse (path ++ " " ++ op ++ " " ++ String.ofList (Text.quote '"' s.toList)) =
        .ok (.leaf ⟨p, .comparison c, some (.text s)⟩) := by
  constructor
  · refine parse_comparison hpath hop (fun d hd => ?_)
      (read_operand_escapeReserved ne visible unquoted)
    rcases (head_escapeReserved s.toList d hd).2 with rfl | hd
    · decide
    · exact visible d (List.mem_of_mem_head? hd)
  · refine parse_comparison hpath hop ?_ (read_operand_quote s)
    rintro d ⟨⟩
    decide

/-- A text that could make the operator longer, with backslashes before reserved characters, before
a quotation mark and at the end. -/
theorem parse_bare_and_quoted_marks :
    let s := "*\\(\\\\|'x\"\\"
    let l : Leaf := ⟨⟨[⟨"a", some (.key "k")⟩, .plain "b"], by simp⟩,
      .comparison (.relation .contains true false), some (.text s)⟩
    String.ofList (escapeReserved s.toList) = "*\\\\(\\\\\\|'x\"\\" ∧
      String.ofList (Text.quote '"' s.toList) = "\"*\\\\(\\\\\\\\|'x\\\"\\\\\"" ∧
      Criterion.parse ("a('k').b" ++ " " ++ "!<>" ++ " " ++ "*\\\\(\\\\\\|'x\"\\") = .ok (.leaf l) ∧
      Criterion.parse ("a('k').b" ++ " " ++ "!<>" ++ " " ++ "\"*\\\\(\\\\\\\\|'x\\\"\\\\\"") =
        .ok (.leaf l) := by
  intro s l
  have hpath : Path.parse "a('k').b" = .ok l.path := eq_ok_of_any_eq (by decide +kernel)
  have hbare : String.ofList (escapeReserved s.toList) = "*\\\\(\\\\\\|'x\"\\" := by decide
  have hquoted : String.ofList (Text.quote '"' s.toList) =
      "\"*\\\\(\\\\\\\\|'x\\\"\\\\\"" := by decide
  have hop : Comparison.ofToken? "!<>" = some (.relation .contains true false) := rfl
  have hspaces : s.toList.any Text.isSpace = false := by decide
  have hfirst : s.toList.head? = some '*' := by decide
  have hboth := parse_bare_and_quoted (s := s) hpath hop (by decide)
    (fun d hd => Bool.eq_false_iff.2 (List.any_eq_false.1 hspaces d hd))
    (by rw [hfirst]; rintro d ⟨⟩; decide)
  rw [hbare, hquoted] at hboth
  exact ⟨hbare, hquoted, hboth⟩

end Criterion

end EventQuery
