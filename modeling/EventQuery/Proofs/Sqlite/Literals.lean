import EventQuery.Proofs.Backend.Lowering
import EventQuery.Proofs.Sqlite.Condition
import EventQuery.Proofs.Sqlite.Placeholders

/-!
# Quotation marks in SQL

SQL text is read from left to right. A mark opens a quoted text, which goes on up to the next mark
of its kind; two of them in a row stand for one that belongs to the text.

The marks in a condition are balanced wherever the condition stands, and what is quoted is known: a
JSON path, or the backslash of a `LIKE` pattern. Names of fields have no marks, so nothing in a
criterion can close a literal before its end.
-/

namespace EventQuery.Sqlite

/-! ## Reading -/

inductive Lexeme where
  /-- A character that is not quoted. -/
  | char (c : Char)
  | quoted (mark : Char) (text : List Char)
  deriving DecidableEq

/-- Where the next character stands. -/
inductive Place where
  | outside
  | within (mark : Char) (text : List Char)
  /-- Behind a mark, which closes the text unless another one follows. -/
  | behind (mark : Char) (text : List Char)

/-- The lexemes from a place on. Apostrophes mark literals, quotation marks names. -/
def lexFrom? : Place → List Char → Option (List Lexeme)
  | .outside, [] => some []
  | .outside, c :: s =>
    if c = '\'' ∨ c = '"' then lexFrom? (.within c []) s
    else (lexFrom? .outside s).map (.char c :: ·)
  | .within _ _, [] => none
  | .within q t, c :: s =>
    if c = q then lexFrom? (.behind q t) s else lexFrom? (.within q (t ++ [c])) s
  | .behind q t, [] => some [.quoted q t]
  | .behind q t, c :: s =>
    -- a doubled mark belongs to the text
    if c = q then lexFrom? (.within q (t ++ [q])) s
    else if c = '\'' ∨ c = '"' then (lexFrom? (.within c []) s).map (.quoted q t :: ·)
    else (lexFrom? .outside s).map fun more => .quoted q t :: .char c :: more

/-- The lexemes of SQL text, unless a quoted text is left open. -/
def lex? (s : List Char) : Option (List Lexeme) := lexFrom? .outside s

/-- There are no marks in the text. -/
def Unmarked (t : List Char) : Prop := '\'' ∉ t ∧ '"' ∉ t

instance (t : List Char) : Decidable (Unmarked t) := inferInstanceAs (Decidable (_ ∧ _))

theorem unmarked_cons {c : Char} {t : List Char} :
    Unmarked (c :: t) ↔ ¬(c = '\'' ∨ c = '"') ∧ Unmarked t := by
  simp only [Unmarked, List.mem_cons, not_or, eq_comm (a := c)]
  tauto

theorem Unmarked.append {t u : List Char} (h : Unmarked t) (h' : Unmarked u) :
    Unmarked (t ++ u) :=
  ⟨List.not_mem_append h.1 h'.1, List.not_mem_append h.2 h'.2⟩

theorem lex?_unmarked_append {t : List Char} (h : Unmarked t) (s : List Char) :
    lex? (t ++ s) = (lex? s).map (t.map .char ++ ·) := by
  induction t with
  | nil => simp
  | cons c t ih =>
      obtain ⟨hc, h⟩ := unmarked_cons.1 h
      rw [List.cons_append, lex?, lexFrom?, if_neg hc]
      show (lex? (t ++ s)).map _ = _
      rw [ih h, Option.map_map]
      rfl

theorem lexFrom?_within {q : Char} {body : List Char} (hbody : q ∉ body) (t s : List Char) :
    lexFrom? (.within q t) (body ++ q :: s) = lexFrom? (.behind q (t ++ body)) s := by
  induction body generalizing t with
  | nil => rw [List.nil_append, lexFrom?, if_pos rfl, List.append_nil]
  | cons c body ih =>
      obtain ⟨hc, hbody⟩ := List.ne_and_not_mem_of_not_mem_cons hbody
      rw [List.cons_append, lexFrom?, if_neg hc.symm, ih hbody, List.append_assoc,
        List.singleton_append]

theorem lexFrom?_behind (q : Char) (t : List Char) {s : List Char} (stop : ∀ c ∈ s.head?, c ≠ q) :
    lexFrom? (.behind q t) s = (lex? s).map (.quoted q t :: ·) := by
  cases s with
  | nil => rfl
  | cons c s =>
      have hc : c ≠ q := stop c rfl
      rw [lexFrom?, if_neg hc, lex?, lexFrom?]
      split
      · rfl
      · rw [Option.map_map]
        rfl

theorem lex?_literal {body : List Char} (hbody : '\'' ∉ body) {s : List Char}
    (stop : ∀ c ∈ s.head?, c ≠ '\'') :
    lex? ('\'' :: (body ++ '\'' :: s)) = (lex? s).map (.quoted '\'' body :: ·) := by
  rw [lex?, lexFrom?, if_pos (Or.inl rfl), lexFrom?_within hbody, List.nil_append,
    lexFrom?_behind _ _ stop]

/-! ## Texts within SQL -/

/-- The text does not begin with an apostrophe, which could belong to a literal before it. -/
def StartsApart (s : List Char) : Prop := ∀ c ∈ s.head?, c ≠ '\''

theorem StartsApart.append {t s : List Char} (ht : StartsApart t) (hs : StartsApart s) :
    StartsApart (t ++ s) := by
  cases t with
  | nil => exact hs
  | cons c t => exact ht

/-- The text has these lexemes wherever it stands outside of quoted texts. -/
structure Lexes (t : List Char) (ts : List Lexeme) : Prop where
  start : StartsApart t
  read : ∀ s, StartsApart s → lex? (t ++ s) = (lex? s).map (ts ++ ·)

variable {t u : List Char} {ts us : List Lexeme}

theorem Lexes.lex?_eq (h : Lexes t ts) : lex? t = some ts := by
  have hread := h.read [] nofun
  rw [List.append_nil] at hread
  rw [hread]
  exact congrArg some ts.append_nil

theorem Lexes.append (h : Lexes t ts) (h' : Lexes u us) : Lexes (t ++ u) (ts ++ us) where
  start := h.start.append h'.start
  read s stop := by
    rw [List.append_assoc, h.read _ (h'.start.append stop), h'.read s stop, Option.map_map]
    congr 1
    funext more
    exact (List.append_assoc ts us more).symm

theorem Unmarked.startsApart (h : Unmarked t) : StartsApart t := by
  rintro c hc rfl
  exact h.1 (List.mem_of_mem_head? hc)

theorem Unmarked.lexes (h : Unmarked t) : Lexes t (t.map .char) :=
  ⟨h.startsApart, fun s _ => lex?_unmarked_append h s⟩

/-- A literal behind other text. -/
theorem lexes_literal {code body : List Char} (hcode : Unmarked code) (hne : code ≠ [])
    (hbody : '\'' ∉ body) :
    Lexes (code ++ '\'' :: (body ++ ['\''])) (code.map .char ++ [.quoted '\'' body]) where
  start := by
    cases code with
    | nil => exact absurd rfl hne
    | cons d code => exact hcode.startsApart
  read s stop := by
    have htext : code ++ '\'' :: (body ++ ['\'']) ++ s = code ++ '\'' :: (body ++ '\'' :: s) := by
      simp
    rw [htext, lex?_unmarked_append hcode, lex?_literal hbody stop, Option.map_map]
    congr 1
    funext more
    simp

example : lex? "x LIKE ? ESCAPE '\\'".toList =
    some ("x LIKE ? ESCAPE ".toList.map .char ++ [.quoted '\'' ['\\']]) := by decide

/-! ## JSON paths -/

/-- The text of a step in a JSON path: a member by its name, plain or between quotation marks, or a
position in brackets, which may be counted from the end. -/
inductive IsStepText : List Char → Prop
  | plain {name : String} (named : Grammar.IsFieldName name)
      (h : isPlainName name.toList = true) : IsStepText ('.' :: name.toList)
  | quoted {name : String} (named : Grammar.IsFieldName name) :
      IsStepText ('.' :: '"' :: (name.toList ++ ['"']))
  | position {digits : List Char} (hne : digits ≠ []) (h : ∀ c ∈ digits, c.isDigit = true) :
      IsStepText ('[' :: (digits ++ [']']))
  | fromEnd {digits : List Char} (hne : digits ≠ []) (h : ∀ c ∈ digits, c.isDigit = true) :
      IsStepText ('[' :: '#' :: '-' :: (digits ++ [']']))

/-- The text of a JSON path. -/
def IsPathText (t : List Char) : Prop :=
  ∃ steps : List (List Char), (∀ x ∈ steps, IsStepText x) ∧ t = '$' :: steps.flatten

theorem isStepText_spelling {x : Step} (named : x.HasFieldName) : IsStepText x.spelling := by
  cases x with
  | member name =>
      rw [Step.spelling]
      split
      · rename_i h
        exact .plain named h
      · exact .quoted named
  | element n =>
      have hdigits : ∀ c ∈ Digits.ofNat n.toInt.natAbs, c.isDigit = true :=
        fun _ => Digits.isDigit_of_mem_ofNat
      rw [Step.spelling, Digits.ofInt]
      by_cases h : 0 ≤ n.toInt
      · rw [if_pos h, if_neg (Int.not_lt.2 h)]
        exact .position (Digits.ofNat_ne_nil _) hdigits
      · rw [if_neg h, if_pos (Int.not_le.1 h)]
        exact .fromEnd (Digits.ofNat_ne_nil _) hdigits

theorem isPathText_spellPath {xs : List Step} (named : ∀ x ∈ xs, x.HasFieldName) :
    IsPathText (spellPath xs) := by
  refine ⟨xs.map Step.spelling, ?_, rfl⟩
  exact List.forall_mem_map.2 fun x hx => isStepText_spelling (named x hx)

/-! ## What is quoted -/

/-- Every literal is the text of a JSON path, or the backslash in the escape clause of `LIKE`. -/
def KnownLiterals (ts : List Lexeme) : Prop :=
  ∀ before text after, ts = before ++ .quoted '\'' text :: after →
    IsPathText text ∨ text = ['\\'] ∧ " LIKE ? ESCAPE ".toList.map Lexeme.char <:+ before

theorem KnownLiterals.append (h : KnownLiterals ts) (h' : KnownLiterals us) :
    KnownLiterals (ts ++ us) := by
  intro before text after hplace
  rcases append_eq_append_cons_iff.1 hplace with ⟨front, rfl, hus⟩ | ⟨back, hts, -⟩
  · refine (h' front text after hus).imp_right ?_
    rintro ⟨htext, hfront⟩
    exact ⟨htext, hfront.trans (List.suffix_append ts front)⟩
  · exact h before text back hts

theorem knownLiterals_map_char (t : List Char) : KnownLiterals (t.map .char) := by
  intro before text after hplace
  have hmem : Lexeme.quoted '\'' text ∈ t.map Lexeme.char := by
    rw [hplace]
    exact List.mem_append_right before List.mem_cons_self
  obtain ⟨c, -, hc⟩ := List.mem_map.1 hmem
  cases hc

theorem knownLiterals_literal {code body : List Char}
    (h : IsPathText body ∨ body = ['\\'] ∧ " LIKE ? ESCAPE ".toList <:+ code) :
    KnownLiterals (code.map .char ++ [.quoted '\'' body]) := by
  intro before text after hplace
  rcases append_eq_append_cons_iff.1 hplace with ⟨front, rfl, hfront⟩ | ⟨back, hcode, -⟩
  · rcases List.append_eq_singleton_iff.1 hfront.symm with ⟨rfl, hlast⟩ | ⟨-, hlast⟩
    · cases hlast
      refine h.imp_right ?_
      rintro ⟨hbody, hsuffix⟩
      rw [List.append_nil]
      exact ⟨hbody, hsuffix.map Lexeme.char⟩
    · cases hlast
  · exact knownLiterals_map_char code before text back hcode

/-- The marks in the text are balanced, and every literal is known. -/
def QuotesPaths (t : List Char) : Prop := ∃ ts, Lexes t ts ∧ KnownLiterals ts

theorem Unmarked.quotesPaths (h : Unmarked t) : QuotesPaths t :=
  ⟨_, h.lexes, knownLiterals_map_char t⟩

theorem quotesPaths_literal {code body : List Char} (hcode : Unmarked code) (hne : code ≠ [])
    (hbody : '\'' ∉ body)
    (h : IsPathText body ∨ body = ['\\'] ∧ " LIKE ? ESCAPE ".toList <:+ code) :
    QuotesPaths (code ++ '\'' :: (body ++ ['\''])) :=
  ⟨_, lexes_literal hcode hne hbody, knownLiterals_literal h⟩

theorem QuotesPaths.append (h : QuotesPaths t) (h' : QuotesPaths u) : QuotesPaths (t ++ u) := by
  obtain ⟨ts, hlexes, hknown⟩ := h
  obtain ⟨us, hlexes', hknown'⟩ := h'
  exact ⟨ts ++ us, hlexes.append hlexes', hknown.append hknown'⟩

theorem quotesPaths_intercalate {separator : List Char} (hseparator : Unmarked separator)
    {texts : List (List Char)} (h : ∀ t ∈ texts, QuotesPaths t) :
    QuotesPaths (separator.intercalate texts) :=
  intercalate_preserves (Unmarked.quotesPaths (by decide)) (fun _ _ => QuotesPaths.append)
    hseparator.quotesPaths h

/-! ## Conditions -/

section Conditions

variable {document : List Char} {a : Access}

theorem unmarked_spellStart (hdocument : Unmarked document) (source : Option Nat) :
    Unmarked (spellStart document source) :=
  ⟨not_mem_spellStart (by decide) hdocument.1 source,
    not_mem_spellStart (by decide) hdocument.2 source⟩

theorem unmarked_sourceName (n : Nat) : Unmarked (sourceName n) :=
  ⟨not_mem_sourceName (by decide) n, not_mem_sourceName (by decide) n⟩

theorem quotesPaths_spellCall (hdocument : Unmarked document) (named : a.HasFieldNames)
    {function : String} (hfunction : Unmarked function.toList) :
    QuotesPaths (spellCall function document a) := by
  have hcode : Unmarked (function.toList ++ '(' :: (spellStart document a.source ++ ", ".toList)) :=
    hfunction.append
      (unmarked_cons.2 ⟨by decide, (unmarked_spellStart hdocument a.source).append (by decide)⟩)
  have hliteral := quotesPaths_literal hcode (by simp) (not_mem_spellPath named (by decide))
    (Or.inl (isPathText_spellPath named))
  have hclose : QuotesPaths [')'] := Unmarked.quotesPaths (by decide)
  have hcall := hliteral.append hclose
  simpa [spellCall] using hcall

theorem quotesPaths_spellValue (hdocument : Unmarked document) (named : a.HasFieldNames) :
    QuotesPaths (spellValue document a) := by
  unfold spellValue
  split
  · exact (unmarked_spellStart hdocument a.source).quotesPaths
  · exact quotesPaths_spellCall hdocument named (by decide)

theorem quotesPaths_spellSource (hdocument : Unmarked document) (named : a.HasFieldNames)
    (n : Nat) : QuotesPaths (spellSource document a n) := by
  have hname : Unmarked (" AS ".toList ++ sourceName n) :=
    Unmarked.append (by decide) (unmarked_sourceName n)
  have hfunction : Unmarked "json_each".toList := by decide
  have hsource := (quotesPaths_spellCall hdocument named hfunction).append hname.quotesPaths
  rwa [← List.append_assoc] at hsource

/-- Only pattern matching without regard to case has a literal in its text. -/
theorem quotesPaths_of_comparison_ok {k : Comparison} {v : Value} {type : ValueType} {test : String}
    {param : Value} (h : comparison k v type = .ok (test, param)) : QuotesPaths test.toList := by
  have htest := test_of_comparison_ok (p := fun t => decide (Unmarked t.toList ∨
    t.toList = " LIKE ? ESCAPE ".toList ++ "'\\'".toList ∨
    t.toList = " NOT LIKE ? ESCAPE ".toList ++ "'\\'".toList)) (by decide) h
  have hescape (code : List Char) (hcode : Unmarked code)
      (hsuffix : " LIKE ? ESCAPE ".toList <:+ code) : QuotesPaths (code ++ "'\\'".toList) := by
    have hne : code ≠ [] := by
      rintro rfl
      simp at hsuffix
    exact quotesPaths_literal hcode hne (by decide) (Or.inr ⟨rfl, hsuffix⟩)
  rcases of_decide_eq_true htest with htest | htest | htest
  · exact htest.quotesPaths
  · rw [htest]
    exact hescape _ (by decide) (List.suffix_refl _)
  · rw [htest]
    exact hescape _ (by decide) ⟨" NOT".toList, by decide⟩

theorem quotesPaths_of_leafTest_ok {l : Leaf} {type : ValueType} {test : List Char}
    {params : List Value} (h : leafTest l type = .ok (test, params)) : QuotesPaths test := by
  rcases leafTest_cases h with ⟨-, -, rfl | rfl⟩ | ⟨k, v, text, param, -, -, htext, rfl, -⟩
  · exact Unmarked.quotesPaths (by decide)
  · exact Unmarked.quotesPaths (by decide)
  · exact quotesPaths_of_comparison_ok htext

theorem quotesPaths_overSources {sources : List (List Char)}
    (hsources : ∀ t ∈ sources, QuotesPaths t) {q : SqlCondition} (h : QuotesPaths q.sql) :
    QuotesPaths (overSources sources q).sql := by
  unfold overSources
  split
  · exact h
  · have hselect : QuotesPaths "EXISTS (SELECT 1 FROM ".toList := Unmarked.quotesPaths (by decide)
    have hwhere : QuotesPaths " WHERE ".toList := Unmarked.quotesPaths (by decide)
    have hclose : QuotesPaths [')'] := Unmarked.quotesPaths (by decide)
    have hcomma : Unmarked ", ".toList := by decide
    have hfrom := quotesPaths_intercalate hcomma hsources
    exact (((hselect.append hfrom).append hwhere).append h).append hclose

theorem quotesPaths_of_compileLeaf_ok (hdocument : Unmarked document) {l : Leaf}
    (named : l.path.HasFieldNames) {x : LeafContext} {q : SqlCondition}
    (h : compileLeaf document l x = .ok q) : QuotesPaths q.sql := by
  obtain ⟨c, test, hc, htest, hq⟩ := eq_overSources_of_compileLeaf_ok h
  have hnames : c.HasFieldNames := hasFieldNames_of_columnFrom hc named
  have hsources : ∀ t ∈ spellSources document c, QuotesPaths t :=
    forall_mem_spellSources fun a ha n => quotesPaths_spellSource hdocument (hnames.sources a ha) n
  rw [hq]
  exact quotesPaths_overSources hsources
    ((quotesPaths_spellValue hdocument hnames.value).append (quotesPaths_of_leafTest_ok htest))

theorem quotesPaths_joinConditions (c : Connective) {qs : List SqlCondition}
    (h : ∀ q ∈ qs, QuotesPaths q.sql) : QuotesPaths (joinConditions c qs).sql := by
  have hopen : QuotesPaths ['('] := Unmarked.quotesPaths (by decide)
  have hclose : QuotesPaths [')'] := Unmarked.quotesPaths (by decide)
  have hconnective : Unmarked (connectiveText c).toList := by cases c <;> decide
  have hjoined := quotesPaths_intercalate hconnective (List.forall_mem_map.2 h)
  exact hopen.append (hjoined.append hclose)

theorem quotesPaths_join? (c : Connective) {qs : List SqlCondition}
    (h : ∀ q ∈ qs, QuotesPaths q.sql) : ∀ q ∈ join? c qs, QuotesPaths q.sql := by
  match qs with
  | [] => exact nofun
  | [q] =>
      rintro _ ⟨⟩
      exact h q (List.mem_singleton_self q)
  | x :: y :: zs =>
      rintro _ ⟨⟩
      exact quotesPaths_joinConditions c h

end Conditions

end EventQuery.Sqlite

namespace EventQuery.EntitySchema

open Sqlite

variable {s : EntitySchema} {document : String}

theorem quotesPaths_of_lower_ok (hdocument : Unmarked document.toList) {r : Criterion}
    (named : ∀ l ∈ r.leaves, l.path.HasFieldNames) {e? : Option SqlCondition}
    (h : s.lower (Backend.sqlite document) r = .ok e?) : ∀ q ∈ e?, QuotesPaths q.sql := by
  revert named
  refine s.lower_induct (fun _ => nofun) (fun l e he named => ?_)
    (fun c cs es? e? hes hjoin named => ?_) h
  · obtain ⟨f, -, hcompile⟩ := lowerLeaf_sqlite_ok_iff.1 he
    rintro q ⟨⟩
    exact quotesPaths_of_compileLeaf_ok hdocument (named l (List.mem_singleton_self l)) hcompile
  · rw [Criterion.leaves_join] at named
    have hoperands : ∀ q ∈ es?.flatMap Option.toList, QuotesPaths q.sql := by
      clear hjoin
      induction hes with
      | nil => exact nofun
      | @cons a e? cs es? he hes ih =>
          rw [List.flatMap_cons, List.forall_mem_append] at named
          rw [List.flatMap_cons, List.forall_mem_append]
          exact ⟨fun q hq => he named.1 q (Option.mem_toList.1 hq), ih named.2⟩
    rw [lowerJoin_sqlite] at hjoin
    cases hjoin
    exact quotesPaths_join? c hoperands

end EventQuery.EntitySchema
