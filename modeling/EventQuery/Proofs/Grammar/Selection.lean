import EventQuery.Proofs.Grammar.Chains

/-!
# Selections are read back

The grammar of selections refers to itself behind a parenthesis only, so that `expression` is the
matcher it is defined by.

An expression is read back from its written form if what follows cannot continue it, which is so
before a comma, a closing parenthesis, a colon and a slash. An argument that is no star is an
expression, though it is looked for in another order, so that arguments are read back with it. The
other way around everything that is read is formed as written expressions are.
-/

namespace EventQuery

/-- The constants that are read back from their written form. A floating-point number may be
written without a point and is then an integer, and truth values are read as paths. -/
def Value.IsExact : Value → Prop
  | text _ => True
  | int _ => True
  | _ => False

/-- The constants that a selection can be written with. -/
def Value.IsLiteral : Value → Prop
  | bool _ => False
  | _ => True

namespace Selection

/-- Functions and segments are named by field names, a path of one segment has no index, and the
constants are of a kind. -/
inductive Expr.IsFormed (constants : Value → Prop) : Expr → Prop where
  | path (p : Path) (names : p.HasFieldNames) (lone : p.HasNoLoneIndex) :
      IsFormed constants (.path p)
  | call (function : String) (args : List Expr) (name : Grammar.IsFieldName function)
      (formed : ∀ e ∈ args, IsFormed constants e) : IsFormed constants (.call function args)
  | constant (v : Value) (kind : constants v) : IsFormed constants (.constant v)

/-- Functions, segments, the extracted component and commands are named by field names. -/
structure IsFormed (constants : Value → Prop) (s : Selection) : Prop where
  expr : s.expr.IsFormed constants
  extract : ∀ word ∈ s.extract, Grammar.IsFieldName word
  commands : ∀ word ∈ s.commands, Grammar.IsFieldName word

/-- The argument that an expression is read as. -/
def Expr.toArgument : Expr → Grammar.Argument
  | constant v => .constant v
  | e => .expr e

theorem Expr.toExpr_toArgument (e : Expr) : e.toArgument.toExpr = .ok e := by
  cases e <;> rfl

theorem Expr.mapM_toExpr_map_toArgument (es : List Expr) :
    (es.map toArgument).mapM Grammar.Argument.toExpr = .ok es := by
  rw [mapM_eq_ok_iff, List.forall₂_map_left_iff, List.forall₂_same]
  exact fun e _ => e.toExpr_toArgument

theorem Expr.spellArgs_cons (e : Expr) (es : List Expr) :
    Expr.spellArgs (e :: es) =
      e.spelling ++ es.flatMap fun e => ',' :: (' ' :: e.spelling) := by
  induction es generalizing e with
  | nil => simp [spellArgs]
  | cons e' es ih =>
      rw [spellArgs, ih, List.flatMap_cons]
      · simp
      · exact nofun

/-- The extracted component behind an expression. -/
def spellExtract : Option String → List Char
  | none => []
  | some word => ':' :: word.toList

/-- The commands at the end. -/
def spellCommands : List String → List Char
  | [] => []
  | ws => '/' :: spellWords ws

theorem spelling_eq (s : Selection) :
    s.spelling = s.expr.spelling ++ (spellExtract s.extract ++ spellCommands s.commands) := by
  obtain ⟨e, extract, commands⟩ := s
  rw [← List.append_assoc]
  cases extract <;> cases commands <;> rfl

theorem spellWords_cons (w : String) (ws : List String) :
    spellWords (w :: ws) = w.toList ++ ws.flatMap fun w => ',' :: w.toList := by
  induction ws generalizing w with
  | nil => simp [spellWords]
  | cons w' ws ih =>
      rw [spellWords, ih, List.flatMap_cons]
      · simp
      · exact nofun

end Selection

namespace Grammar

open Matcher

/-! ## Recursion -/

section Recursion

variable {n : Nat} {k k' : Matcher Selection.Expr}

theorem agree_argument (h : AgreeBelow n k k') : AgreeBelow n (argument k) (argument k') :=
  .padded (.orElse (.of_shrinks (.bind shrinks_quotedString fun _ => .pure _) n)
    (.orElse (.of_shrinks (.bind shrinks_number fun _ => .pure _) n)
      (.orElse (.of_shrinks (.bind (.oneOf _) fun _ => .pure _) n)
        (.bind h fun _ => .of_shrinks (.pure _) n))))

theorem agree_arguments (h : AgreeBelow n k k') :
    AgreeBelow (n + 1) (arguments k) (arguments k') := by
  have hseparated : AgreeBelow n (separated (argument k) (char ','))
      (separated (argument k') (char ',')) :=
    .bind (agree_argument h) fun _ =>
      .bind (.many (.bind (.of_shrinks (.oneOf _) n) fun _ => agree_argument h)) fun _ =>
        .of_shrinks (.pure _) n
  exact .bind_advance (.oneOf _) (.oneOf _) fun _ =>
    .bind (.optional hseparated) fun _ => .of_shrinks (.bind (.oneOf _) fun _ => .pure _) n

theorem agree_chain (h : AgreeBelow n k k') : AgreeBelow (n + 1) (chain k) (chain k') := by
  have hterm : AgreeBelow (n + 1) (term k) (term k') :=
    .bind (.of_shrinks shrinks_fieldName _) fun _ =>
      .bind (.optional (agree_arguments h)) fun _ => .of_shrinks (.pure _) _
  exact .checked (.bind hterm fun _ =>
    .bind (.many (.bind (.of_shrinks (.oneOf _) _) fun _ => hterm)) fun _ =>
      .of_shrinks (.pure _) _) _

end Recursion

theorem guarded_expression : Guarded fun inner =>
    padded ((do return .constant (.text (← quotedString))) <|>
      (do return .constant (← number)) <|> chain inner) :=
  fun _ _ _ h => .padded (.orElse
    (.of_shrinks (.bind shrinks_quotedString fun _ => .pure _) _)
    (.orElse (.of_shrinks (.bind shrinks_number fun _ => .pure _) _) (agree_chain h)))

theorem read_expression_eq {s t : List Char} (start : Text.skipSpace s = t) :
    expression.read s =
      (((quotedString.read t).map fun p => (Selection.Expr.constant (.text p.1), p.2)).or
        (((number.read t).map fun p => (Selection.Expr.constant p.1, p.2)).or
          ((chain expression).read t))).map fun p => (p.1, Text.skipSpace p.2) := by
  have hunfold : expression = padded ((do return .constant (.text (← quotedString))) <|>
      (do return .constant (← number)) <|> chain expression) := guarded_expression.recursive_eq
  rw [hunfold, read_padded, start, read_orElse, read_bind_pure, read_orElse, read_bind_pure,
    ← hunfold]

theorem read_expression_skipSpace (s : List Char) :
    expression.read (Text.skipSpace s) = expression.read s := by
  rw [read_expression_eq (Text.skipSpace_skipSpace s), read_expression_eq rfl]

/-! ## What expressions begin with -/

theorem exists_head_of_read_chain {inner : Matcher Selection.Expr} {s : List Char}
    {q : Selection.Expr × List Char} (h : (chain inner).read s = some q) :
    ∃ c ∈ s.head?, c.isAlpha = true := by
  obtain ⟨first, more, t, hfirst, -, -⟩ := read_chain_eq_some_iff.1 h
  obtain ⟨name, as?, u, hname, -, -⟩ := read_bind_bind_pure_eq_some_iff.1 hfirst
  exact exists_head_of_read_fieldName hname

/-- A text that begins with a letter is neither a string nor a number nor a star. -/
theorem read_constant_of_isAlpha {s : List Char} (h : ∃ c ∈ s.head?, c.isAlpha = true) :
    quotedString.read s = none ∧ number.read s = none ∧ (char '*').read s = none := by
  have hhead := Text.forall_head_of_exists h
  have hne : ∀ c ∈ s.head?, ∀ d, d.isAlpha = false → c ≠ d := by
    rintro c hc d hd rfl
    rw [hhead c hc] at hd
    cases hd
  refine ⟨read_quotedString_eq_none ?_, read_number_eq_none ?_, read_char_of_ne ?_⟩
  · exact fun c hc => ⟨hne c hc _ (by decide), hne c hc _ (by decide)⟩
  · exact fun c hc => ⟨hne c hc _ (by decide), Text.isDigit_of_isAlpha (hhead c hc)⟩
  · exact fun c hc => hne c hc _ (by decide)

theorem read_expression_of_read_chain {s rest : List Char} {e : Selection.Expr}
    (h : (chain expression).read s = some (e, rest)) :
    expression.read s = some (e, Text.skipSpace rest) := by
  have hhead := exists_head_of_read_chain h
  obtain ⟨nostring, nonumber, -⟩ := read_constant_of_isAlpha hhead
  have hstart : Text.skipSpace s = s := Text.skipSpace_of_head fun c hc =>
    Text.isSpace_of_isAlpha (Text.forall_head_of_exists hhead c hc)
  rw [read_expression_eq hstart, nostring, nonumber, h]
  rfl

/-- An expression is read as an argument. -/
theorem read_argument_of_read_expression {s rest : List Char} {e : Selection.Expr}
    (h : expression.read s = some (e, rest)) :
    (argument expression).read s = some (e.toArgument, rest) := by
  have hskip := h
  rw [← read_expression_skipSpace] at hskip
  rw [read_expression_eq rfl] at h
  obtain ⟨⟨e, t⟩, hread, heq⟩ := Option.map_eq_some_iff.1 h
  cases heq
  rw [read_argument_eq expression rfl]
  rw [Option.or_eq_some_iff, Option.or_eq_some_iff] at hread
  rcases hread with hread | ⟨nostring, hread | ⟨-, hread⟩⟩
  · obtain ⟨p, hstring, heq⟩ := Option.map_eq_some_iff.1 hread
    cases heq
    rw [hstring]
    rfl
  · obtain ⟨p, hnumber, heq⟩ := Option.map_eq_some_iff.1 hread
    cases heq
    rw [Option.map_eq_none_iff.1 nostring, hnumber]
    rfl
  · obtain ⟨nostring, nonumber, nostar⟩ :=
      read_constant_of_isAlpha (exists_head_of_read_chain hread)
    obtain ⟨first, more, u, -, -, hexpr⟩ := read_chain_eq_some_iff.1 hread
    rw [nostring, nonumber, nostar, hskip]
    obtain ⟨p, rfl⟩ | ⟨args, es, -, -, rfl⟩ := chainExpr_cases hexpr
    · simp [Selection.Expr.toArgument]
    · simp [Selection.Expr.toArgument]

/-- Only a star is an argument and no expression. -/
theorem read_argument_eq_map {s : List Char} (nostar : ∀ c ∈ (Text.skipSpace s).head?, c ≠ '*') :
    (argument expression).read s = (expression.read s).map fun p => (p.1.toArgument, p.2) := by
  cases h : expression.read s with
  | some p => exact read_argument_of_read_expression h
  | none =>
      have hskip := h
      rw [← read_expression_skipSpace] at hskip
      rw [read_expression_eq rfl, Option.map_eq_none_iff, Option.or_eq_none_iff,
        Option.or_eq_none_iff] at h
      obtain ⟨nostring, nonumber, -⟩ := h
      rw [read_argument_eq expression rfl, Option.map_eq_none_iff.1 nostring,
        Option.map_eq_none_iff.1 nonumber, read_char_of_ne nostar, hskip]
      rfl

theorem read_expression_eq_none {s : List Char}
    (h : ∀ c ∈ s.head?, Text.isSpace c = false ∧ c ≠ '"' ∧ c ≠ '\'' ∧ c ≠ '-' ∧
      c.isDigit = false ∧ c.isAlpha = false) : expression.read s = none := by
  have nochain : (chain expression).read s = none := by
    apply Option.eq_none_iff_forall_not_mem.2
    intro q hq
    obtain ⟨c, hc, halpha⟩ := exists_head_of_read_chain hq
    rw [(h c hc).2.2.2.2.2] at halpha
    cases halpha
  rw [read_expression_eq (Text.skipSpace_of_head fun c hc => (h c hc).1),
    read_quotedString_eq_none fun c hc => ⟨(h c hc).2.1, (h c hc).2.2.1⟩,
    read_number_eq_none fun c hc => ⟨(h c hc).2.2.2.1, (h c hc).2.2.2.2.1⟩, nochain]
  rfl

/-! ## Expressions -/

/-- The text does not go on with an expression. -/
def EndsExpression (rest : List Char) : Prop :=
  ∀ c ∈ rest.head?, c = ',' ∨ c = ')' ∨ c = ':' ∨ c = '/'

/-- What is so of each of the four characters. -/
theorem EndsExpression.forall_head {rest : List Char} (h : EndsExpression rest) (P : Char → Prop)
    (comma : P ',') (parenthesis : P ')') (colon : P ':') (slash : P '/') :
    ∀ c ∈ rest.head?, P c := by
  intro c hc
  obtain rfl | rfl | rfl | rfl := h c hc
  · exact comma
  · exact parenthesis
  · exact colon
  · exact slash

theorem EndsExpression.skipSpace_eq {rest : List Char} (h : EndsExpression rest) :
    Text.skipSpace rest = rest :=
  Text.skipSpace_of_head (h.forall_head _ rfl rfl rfl rfl)

theorem EndsExpression.endsPath {rest : List Char} (h : EndsExpression rest) : EndsPath rest := by
  constructor
  · exact h.forall_head (fun c => isNameChar c = false ∧ c ≠ '(') (by decide) (by decide)
      (by decide) (by decide)
  · exact h.forall_head (· ≠ '.') (by decide) (by decide) (by decide) (by decide)

/-- What begins with a digit or a minus sign is a number, if anything. -/
theorem read_expression_of_digit {s : List Char}
    (h : ∃ c ∈ s.head?, c = '-' ∨ c.isDigit = true) :
    expression.read s = (number.read s).map fun p => (.constant p.1, Text.skipSpace p.2) := by
  have hplain : ∀ c ∈ s.head?,
      Text.isSpace c = false ∧ (c ≠ '"' ∧ c ≠ '\'') ∧ c.isAlpha = false := by
    intro c hc
    rcases Text.forall_head_of_exists h c hc with rfl | hdigit
    · decide
    · refine ⟨Text.isSpace_of_isDigit hdigit, ?_, ?_⟩
      · constructor <;> exact fun heq => absurd hdigit (by rw [heq]; decide)
      · rw [Bool.eq_false_iff]
        intro halpha
        rw [Text.isDigit_of_isAlpha halpha] at hdigit
        cases hdigit
  have nochain : (chain expression).read s = none := by
    refine Option.eq_none_iff_forall_not_mem.2 fun q hq => ?_
    obtain ⟨c, hc, halpha⟩ := exists_head_of_read_chain hq
    rw [(hplain c hc).2.2] at halpha
    cases halpha
  rw [read_expression_eq (Text.skipSpace_of_head fun c hc => (hplain c hc).1),
    read_quotedString_eq_none fun c hc => (hplain c hc).2.1, nochain]
  cases number.read s <;> rfl

theorem read_expression_constant {v : Value} (h : v.IsExact) {rest : List Char}
    (stop : EndsExpression rest) :
    expression.read (v.spelling ++ rest) = some (.constant v, rest) := by
  cases v with
  | bool b => exact h.elim
  | float x => exact h.elim
  | text s =>
      have hstart : Text.skipSpace (Value.spelling (.text s) ++ rest) =
          Text.quote '"' s.toList ++ rest := Text.skipSpace_cons_self (by decide) _
      rw [read_expression_eq hstart, read_quotedString, Option.map_some, Option.some_or,
        Option.map_some, stop.skipSpace_eq]
  | int n =>
      have hinteger : integer.read (Digits.ofInt n.toInt ++ rest) = some (n, rest) :=
        read_integer n (stop.forall_head _ rfl rfl rfl rfl)
      have hnumber : number.read (Digits.ofInt n.toInt ++ rest) = some (.int n, rest) :=
        read_number_int_iff.2 ⟨hinteger, read_fractionDigits_of_ne stop.endsPath.2⟩
      show expression.read (Digits.ofInt n.toInt ++ rest) = _
      rw [read_expression_of_digit (exists_head_of_read_integer hinteger), hnumber,
        Option.map_some, stop.skipSpace_eq]

theorem read_expression_path {p : Path} (names : p.HasFieldNames) (lone : p.HasNoLoneIndex)
    {rest : List Char} (stop : EndsExpression rest) :
    expression.read (p.spelling ++ rest) = some (.path p, rest) := by
  have hpath := read_path names stop.endsPath
  have hchain := read_chain_of_read_path expression hpath
    (fun c hc => (stop.endsPath.1 c hc).2) lone
  rw [read_expression_of_read_chain hchain, stop.skipSpace_eq]

/-- Behind an argument there is the next one or the end. -/
theorem endsExpression_moreArguments (es : List Selection.Expr) (rest : List Char) :
    EndsExpression (es.flatMap (fun e => ',' :: (' ' :: e.spelling)) ++ ')' :: rest) := by
  cases es with
  | nil =>
      rintro c ⟨⟩
      decide
  | cons e es =>
      rintro c ⟨⟩
      decide

/-- An argument may stand behind a blank. -/
theorem read_argument_blank (inner : Matcher Selection.Expr) (s : List Char) :
    (argument inner).read (' ' :: s) = (argument inner).read s := by
  rw [argument, read_padded, read_padded, Text.skipSpace_blank]

/-- No argument begins with the parenthesis that closes the call. -/
theorem read_argument_close (rest : List Char) :
    (argument expression).read (')' :: rest) = none := by
  have noexpression : expression.read (')' :: rest) = none := by
    apply read_expression_eq_none
    rintro c ⟨⟩
    decide
  rw [read_argument_eq expression (Text.skipSpace_cons_self (by decide) rest),
    noexpression, read_quotedString_eq_none (by rintro c ⟨⟩; decide),
    read_number_eq_none (by rintro c ⟨⟩; decide),
    read_char_of_ne (by rintro c ⟨⟩; decide)]
  rfl

/-- Arguments are read back when each of them is as an expression. -/
theorem read_arguments_spelling {es : List Selection.Expr}
    (h : ∀ e ∈ es, ∀ rest, EndsExpression rest →
      expression.read (e.spelling ++ rest) = some (e, rest)) (rest : List Char) :
    (arguments expression).read ('(' :: (Selection.Expr.spellArgs es ++ ')' :: rest)) =
      some (es.map Selection.Expr.toArgument, rest) := by
  have hclose : EndsExpression (')' :: rest) := by
    rintro c ⟨⟩
    decide
  have hcomma : ∀ s, EndsExpression (',' :: s) := by
    rintro s c ⟨⟩
    decide
  cases es with
  | nil =>
      refine read_arguments_eq_some_iff.2 ⟨_, rfl, none, ?_, rfl⟩
      rw [Selection.Expr.spellArgs, List.nil_append, read_optional, read_separated_eq,
        read_argument_close]
      rfl
  | cons e es =>
      have hround : ∀ e ∈ es, ∀ rest, EndsExpression rest →
          (do let _ ← char ','; argument expression : Matcher Argument).read
            (',' :: (' ' :: e.spelling ++ rest)) = some (e.toArgument, rest) := by
        intro a ha rest hrest
        refine read_char_bind_eq_some_iff.2 ⟨_, rfl, ?_⟩
        rw [List.cons_append, read_argument_blank]
        exact read_argument_of_read_expression (h a (List.mem_cons_of_mem _ ha) rest hrest)
      have hstop : (do let _ ← char ','; argument expression : Matcher Argument).read
          (')' :: rest) = none := read_char_bind_of_ne (by rintro c ⟨⟩; decide)
      have hmore := read_many_marked EndsExpression hcomma hround hclose hstop
      have hfirst := read_argument_of_read_expression
        (h e List.mem_cons_self _ (endsExpression_moreArguments es rest))
      refine read_arguments_eq_some_iff.2 ⟨_, rfl, some _, ?_, rfl⟩
      rw [read_optional, Selection.Expr.spellArgs_cons, List.append_assoc, read_separated_eq,
        hfirst, Option.bind_some, hmore]
      rfl

theorem read_fieldName_call {f : String} (name : IsFieldName f) (es : List Selection.Expr)
    (rest : List Char) :
    fieldName.read ((Selection.Expr.call f es).spelling ++ rest) =
      some (f, '(' :: (Selection.Expr.spellArgs es ++ ')' :: rest)) := by
  have hspelling : (Selection.Expr.call f es).spelling ++ rest =
      f.toList ++ '(' :: (Selection.Expr.spellArgs es ++ ')' :: rest) := by
    simp [Selection.Expr.spelling]
  rw [hspelling]
  exact read_fieldName name (by rintro c ⟨⟩; decide)

/-- A call is read with the arguments that are read in its parentheses. -/
theorem read_expression_of_read_arguments {f : String} {es ts : List Selection.Expr}
    (name : IsFieldName f) {rest : List Char} (stop : EndsExpression rest)
    (h : (arguments expression).read ('(' :: (Selection.Expr.spellArgs es ++ ')' :: rest)) =
      some (ts.map Selection.Expr.toArgument, rest)) :
    expression.read ((Selection.Expr.call f es).spelling ++ rest) = some (.call f ts, rest) := by
  have hterm : (term expression).read ((Selection.Expr.call f es).spelling ++ rest) =
      some (⟨f, some (ts.map Selection.Expr.toArgument)⟩, rest) := by
    refine read_bind_bind_pure_eq_some_iff.2
      ⟨f, some _, _, read_fieldName_call name es rest, ?_, rfl⟩
    rw [read_optional, h]
  have hmore := read_moreTerms_of_ne expression stop.endsPath.2
  have hexpr : chainExpr ⟨f, some (ts.map Selection.Expr.toArgument)⟩ [] = .ok (.call f ts) :=
    map_eq_ok_iff.2 ⟨ts, Selection.Expr.mapM_toExpr_map_toArgument ts, rfl⟩
  rw [read_expression_of_read_chain (read_chain_eq_some_iff.2 ⟨_, _, _, hterm, hmore, hexpr⟩),
    stop.skipSpace_eq]

/-- Expressions are read back if their constants are. -/
theorem read_expression_of_constants {constants : Value → Prop}
    (hconstants : ∀ v, constants v → ∀ rest, EndsExpression rest →
      expression.read (v.spelling ++ rest) = some (.constant v, rest))
    {e : Selection.Expr} (h : e.IsFormed constants) {rest : List Char}
    (stop : EndsExpression rest) : expression.read (e.spelling ++ rest) = some (e, rest) := by
  induction h generalizing rest with
  | path p names lone => exact read_expression_path names lone stop
  | call f es name _ ih =>
      exact read_expression_of_read_arguments name stop
        (read_arguments_spelling (fun e he _ => ih e he) _)
  | constant v kind => exact hconstants v kind rest stop

/-! ## Selections -/

theorem read_commands {ws : List String} (h : ∀ w ∈ ws, IsFieldName w) (hne : ws ≠ []) :
    (separated fieldName (padded (char ','))).read (Selection.spellWords ws) = some (ws, []) := by
  have hends : ∀ s, (∀ c ∈ (',' :: s).head?, isNameChar c = false) := by
    rintro s c ⟨⟩
    decide
  cases ws with
  | nil => exact absurd rfl hne
  | cons w ws =>
      have hround : ∀ w ∈ ws, ∀ rest : List Char, (∀ c ∈ rest.head?, isNameChar c = false) →
          (do let _ ← padded (char ','); fieldName : Matcher String).read
            (',' :: (w.toList ++ rest)) = some (w, rest) := by
        intro w hw rest hrest
        have hname := read_fieldName (h w (List.mem_cons_of_mem _ hw)) hrest
        have hhead := Text.forall_head_of_exists (exists_head_of_read_fieldName hname)
        have hspace : Text.skipSpace (w.toList ++ rest) = w.toList ++ rest :=
          Text.skipSpace_of_head fun c hc => Text.isSpace_of_isAlpha (hhead c hc)
        rw [read_bind, read_padded_char (by decide), Option.bind_some, hspace, hname]
      have hmore : Matcher.read (many (do let _ ← padded (char ','); fieldName))
          (ws.flatMap (fun w => ',' :: w.toList) ++ []) = some (ws.map fun w => w, []) :=
        read_many_marked (fun rest => ∀ c ∈ rest.head?, isNameChar c = false) hends hround nofun rfl
      have hstop : ∀ c ∈ (ws.flatMap fun w => ',' :: w.toList).head?, isNameChar c = false := by
        cases ws with
        | nil => exact nofun
        | cons w ws => exact hends _
      rw [List.append_nil, List.map_id'] at hmore
      rw [Selection.spellWords_cons, read_separated_eq,
        read_fieldName (h w List.mem_cons_self) hstop, Option.bind_some, hmore]
      rfl

theorem read_extract {word? : Option String} (h : ∀ word ∈ word?, IsFieldName word)
    {rest : List Char} (stop : ∀ c ∈ rest.head?, c = '/') :
    (optional (do let _ ← char ':'; fieldName)).read (Selection.spellExtract word? ++ rest) =
      some (word?, rest) := by
  rw [read_optional]
  cases word? with
  | none =>
      have nocolon : ∀ c ∈ rest.head?, c ≠ ':' := by
        intro c hc
        rw [stop c hc]
        decide
      rw [Selection.spellExtract, List.nil_append, read_char_bind_of_ne nocolon]
  | some word =>
      have hname : fieldName.read (word.toList ++ rest) = some (word, rest) := by
        apply read_fieldName (h word rfl)
        intro c hc
        rw [stop c hc]
        decide
      rw [Selection.spellExtract, List.cons_append,
        read_char_bind_eq_some_iff.2 ⟨_, rfl, hname⟩]

/-- Without commands there is nothing to read, and no commands are read. -/
theorem read_optional_commands {ws : List String} (h : ∀ w ∈ ws, IsFieldName w) :
    ∃ ws?, ws?.getD [] = ws ∧
      (optional (do let _ ← char '/'; separated fieldName (padded (char ',')))).read
        (Selection.spellCommands ws) = some (ws?, []) := by
  rw [read_optional]
  cases ws with
  | nil => exact ⟨none, rfl, rfl⟩
  | cons w ws =>
      refine ⟨some (w :: ws), rfl, ?_⟩
      rw [Selection.spellCommands, read_char_bind_eq_some_iff.2
        ⟨_, rfl, read_commands h (List.cons_ne_nil w ws)⟩]
      exact nofun

/-- What stands behind the expression of a selection does not continue it. -/
theorem endsExpression_suffix (s : Selection) :
    EndsExpression (Selection.spellExtract s.extract ++ Selection.spellCommands s.commands) := by
  cases s.extract with
  | none =>
      cases s.commands with
      | nil => exact nofun
      | cons w ws =>
          rintro c ⟨⟩
          decide
  | some word =>
      rintro c ⟨⟩
      decide

/-- Selections are read back if their constants are. -/
theorem read_selection_of_constants {constants : Value → Prop}
    (hconstants : ∀ v, constants v → ∀ rest, EndsExpression rest →
      expression.read (v.spelling ++ rest) = some (.constant v, rest))
    {s : Selection} (h : s.IsFormed constants) : selection.read s.spelling = some (s, []) := by
  have hslash : ∀ c ∈ (Selection.spellCommands s.commands).head?, c = '/' := by
    intro c hc
    cases hcommands : s.commands with
    | nil =>
        rw [hcommands] at hc
        cases hc
    | cons w ws =>
        rw [hcommands] at hc
        cases hc
        rfl
  obtain ⟨ws?, hws, hcommands⟩ := read_optional_commands h.commands
  rw [s.spelling_eq, selection, read_padded, read_bind, read_expression_skipSpace,
    read_expression_of_constants hconstants h.expr (endsExpression_suffix s), Option.bind_some,
    read_bind, read_extract h.extract hslash, Option.bind_some, read_bind, hcommands,
    Option.bind_some, read_pure, hws]
  rfl

theorem read_selection {s : Selection} (h : s.IsFormed Value.IsExact) :
    selection.read s.spelling = some (s, []) :=
  read_selection_of_constants (fun _ hv _ => read_expression_constant hv) h

/-- The parts of a selection are read one after the other. -/
theorem exists_of_read_selection {s rest : List Char} {σ : Selection}
    (h : selection.read s = some (σ, rest)) :
    ∃ t u v words?, expression.read s = some (σ.expr, t) ∧
      (optional (do let _ ← char ':'; fieldName)).read t = some (σ.extract, u) ∧
      (optional (do let _ ← char '/'; separated fieldName (padded (char ',')))).read u =
        some (words?, v) ∧
      words?.getD [] = σ.commands ∧ Text.skipSpace v = rest := by
  rw [selection, read_padded, read_bind, read_expression_skipSpace] at h
  obtain ⟨⟨σ', v⟩, hparts, heq⟩ := Option.map_eq_some_iff.1 h
  cases heq
  obtain ⟨⟨e, t⟩, hexpr, hsuffix⟩ := Option.bind_eq_some_iff.1 hparts
  obtain ⟨extract, words?, u, hextract, hcommands, rfl⟩ :=
    read_bind_bind_pure_eq_some_iff.1 hsuffix
  exact ⟨t, u, v, words?, hexpr, hextract, hcommands, rfl, rfl⟩

/-! ## What is read -/

/-- What is read for an argument. -/
def Argument.IsFormed (constants : Value → Prop) : Argument → Prop
  | expr e => e.IsFormed constants
  | constant v => constants v
  | star => True

/-- What is read for a term. -/
structure Term.IsFormed (constants : Value → Prop) (t : Term) : Prop where
  name : IsFieldName t.name
  args : ∀ as ∈ t.args, ∀ a ∈ as, a.IsFormed constants

/-- A chain of formed terms is a formed expression. -/
theorem isFormed_of_chainExpr {constants : Value → Prop} {first : Term} {more : List Term}
    {e : Selection.Expr} (hterms : ∀ t ∈ first :: more, t.IsFormed constants)
    (h : chainExpr first more = .ok e) : e.IsFormed constants := by
  obtain ⟨p, rfl⟩ | ⟨args, es, hargs, hes, rfl⟩ := chainExpr_cases h
  · obtain ⟨hsegments, lone⟩ := chainExpr_eq_path_iff.1 h
    refine .path p (fun x hx => ?_) lone
    have hx' : x.toTerm ∈ first :: more := by
      rw [hsegments]
      exact List.mem_map_of_mem hx
    exact (hterms _ hx').name
  · have hfirst := hterms first List.mem_cons_self
    refine .call first.name es hfirst.name (forall_mem_of_mapM_eq_ok hes fun a ha e he => ?_)
    have hformed := hfirst.args args hargs a ha
    cases a with
    | expr e' =>
        cases he
        exact hformed
    | constant v =>
        cases he
        exact .constant v hformed
    | star => cases he

theorem yields_expression : expression.Yields (·.IsFormed Value.IsLiteral) := by
  apply Yields.recursive
  intro inner hinner
  have hstring : (do return .constant (.text (← quotedString)) : Matcher Selection.Expr).Yields
      (·.IsFormed Value.IsLiteral) :=
    .bind_all fun s => .pure (.constant (.text s) trivial)
  have hnumber : number.Yields Value.IsLiteral := by
    intro s v rest h
    obtain ⟨n, rfl⟩ | ⟨x, rfl⟩ := yields_number s v rest h
    · exact trivial
    · exact trivial
  have hargument : (argument inner).Yields (Argument.IsFormed Value.IsLiteral) :=
    .padded (.orElse (.bind_all fun _ => .pure trivial)
      (.orElse (.bind hnumber fun _ hv => .pure hv)
        (.orElse (.bind_all fun _ => .pure trivial) (.bind hinner fun _ he => .pure he))))
  have harguments : (arguments inner).Yields (∀ a ∈ ·, a.IsFormed Value.IsLiteral) := by
    refine .bind_all fun _ => .bind (.optional (.separated hargument)) fun as has =>
      .bind_all fun _ => .pure ?_
    cases as with
    | none => exact nofun
    | some as => exact has as rfl
  have hterm : (term inner).Yields (Term.IsFormed Value.IsLiteral) :=
    .bind yields_fieldName fun _ hname => .bind (.optional harguments) fun _ has =>
      .pure ⟨hname, has⟩
  have hchain : (chain inner).Yields (·.IsFormed Value.IsLiteral) := by
    refine .checked (P := fun ts => ∀ t ∈ ts.1 :: ts.2, t.IsFormed Value.IsLiteral) ?_ ?_
    · exact .bind hterm fun _ hfirst => .bind (.many (.bind_all fun _ => hterm)) fun _ hmore =>
        .pure (List.forall_mem_cons.2 ⟨hfirst, hmore⟩)
    · exact fun ts e hts he => isFormed_of_chainExpr hts he
  exact .padded (.orElse hstring
    (.orElse (.bind hnumber fun v hv => .pure (.constant v hv)) hchain))

theorem yields_selection : selection.Yields (·.IsFormed Value.IsLiteral) := by
  refine .padded (.bind yields_expression fun e he =>
    .bind (.optional (.bind_all fun _ => yields_fieldName)) fun extract hextract =>
      .bind (.optional (.bind_all fun _ => .separated yields_fieldName)) fun commands hcommands =>
        .pure ⟨he, hextract, ?_⟩)
  cases commands with
  | none => exact nofun
  | some ws => exact hcommands ws rfl

end Grammar

end EventQuery
