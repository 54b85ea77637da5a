import EventQuery.Proofs.Decimal.Fractions
import EventQuery.Proofs.Grammar.Selection

/-!
# Numbers in selections are read back

A floating-point number is written with a point exactly if it is no whole number. What is written
without one is read as an integer, or as a path, or is no expression at all, so that the kind of the
number is lost.

Where an argument is no expression, the parenthesis before it ends what is read: the name in front
of it is then a path. So an expression is read to its end, and keeps the numbers with a fraction
where they are, or is read up to a parenthesis.
-/

namespace EventQuery

/-- The constants that are numbers. -/
def Value.IsNumber : Value → Prop
  | int _ => True
  | float _ => True
  | _ => False

/-- The constants that are read back from their written form: of the floating-point numbers those
with a fraction. -/
def Value.IsReread : Value → Prop
  | text _ => True
  | int _ => True
  | float x => x.hasFraction = true
  | bool _ => False

/-- What is found instead of a number: an integer or a number with a fraction itself, and for any
other floating-point number none at all. -/
def Value.IsKeptAs : Value → Option Value → Prop
  | int n, w? => w? = some (.int n)
  | float x, w? =>
    if x.hasFraction then w? = some (.float x) else ∀ y, w? ≠ some (.float y)
  | _, _ => True

namespace Selection.Expr

/-- The constant at a place. A place says for each call on the way which argument to go on with. -/
def constantAt? : Expr → List Nat → Option Value
  | constant v, [] => some v
  | call _ args, n :: place => args[n]?.bind fun e => e.constantAt? place
  | _, _ => none

/-- What the second expression has in the places of the numbers in the first. -/
def Keeps (e t : Expr) : Prop :=
  ∀ place v, e.constantAt? place = some v → v.IsKeptAs (t.constantAt? place)

theorem keeps_path (p : Path) (t : Expr) : (path p).Keeps t := by
  intro place v hv
  cases place <;> cases hv

theorem keeps_constant {v : Value} {t : Expr} (h : v.IsKeptAs (t.constantAt? [])) :
    (constant v).Keeps t := by
  intro place w hw
  cases place with
  | nil =>
      cases hw
      exact h
  | cons n place => cases hw

theorem keeps_call {es ts : List Expr} (h : List.Forall₂ Keeps es ts) (f g : String) :
    (call f es).Keeps (call g ts) := by
  obtain ⟨hlength, hkeeps⟩ := List.forall₂_iff_get.1 h
  intro place v hat
  cases place with
  | nil => cases hat
  | cons n place =>
      obtain ⟨e, he, hat⟩ := Option.bind_eq_some_iff.1 hat
      obtain ⟨hn, rfl⟩ := List.getElem?_eq_some_iff.1 he
      have hm : n < ts.length := hlength ▸ hn
      rw [constantAt?, List.getElem?_eq_getElem hm, Option.bind_some]
      exact hkeeps n hn hm place v hat

/-- What the constants are is seen from their places. -/
theorem IsFormed.of_constantAt? {constants constants' : Value → Prop} {e : Expr}
    (h : e.IsFormed constants)
    (hat : ∀ place v, constants v → e.constantAt? place = some v → constants' v) :
    e.IsFormed constants' := by
  induction h with
  | path p names lone => exact .path p names lone
  | constant v kind => exact .constant v (hat [] v kind rfl)
  | call f args name _ ih =>
      refine .call f args name fun e he => ih e he fun place v hv hplace => ?_
      obtain ⟨n, hn, rfl⟩ := List.getElem_of_mem he
      refine hat (n :: place) v hv ?_
      rw [constantAt?, List.getElem?_eq_getElem hn, Option.bind_some, hplace]

end Selection.Expr

namespace Grammar

open Matcher

variable {rest : List Char}

/-! ## Constants -/

theorem exists_head_withMinus {ds : List Char} (h : Digits.AreDigits ds) (negative : Bool)
    (s : List Char) : ∃ c ∈ (withMinus negative (ds ++ s)).head?, c = '-' ∨ c.isDigit = true := by
  obtain ⟨hne, digits⟩ := h
  cases negative with
  | true => exact ⟨'-', rfl, Or.inl rfl⟩
  | false =>
      cases ds with
      | nil => exact absurd rfl hne
      | cons d ds => exact ⟨d, rfl, Or.inr (digits d List.mem_cons_self)⟩

theorem spelling_finite (negative : Bool) (m : Binary64.Magnitude) :
    (Value.float (.finite negative m)).spelling =
      withMinus negative (Value.floatLayout.writeMagnitude m) := rfl

theorem hasFraction_finite (negative : Bool) {m : Binary64.Magnitude} :
    (Binary64.finite negative m).hasFraction = true ↔ ¬Binary64.unitsPerOne ∣ m.units := by
  rw [Binary64.hasFraction, decide_eq_true_iff, Nat.dvd_iff_mod_eq_zero]

/-- A number with a fraction is read back. -/
theorem read_expression_of_hasFraction {x : Binary64} (h : x.hasFraction = true)
    (stop : EndsExpression rest) :
    expression.read ((Value.float x).spelling ++ rest) = some (.constant (.float x), rest) := by
  cases x with
  | nan => cases h
  | infinite negative => cases h
  | finite negative m =>
      obtain ⟨whole, fraction, hwhole, hfraction, htext, hvalue⟩ :=
        Value.exists_point_of_writeMagnitude ((hasFraction_finite negative).1 h)
      have hnumber := read_number_point hwhole.1 hfraction.1
        (List.forall_mem_append.2 ⟨hwhole.2, hfraction.2⟩)
        (stop.forall_head (·.isDigit = false) rfl rfl rfl rfl) negative
      have hspelling : (Value.float (.finite negative m)).spelling ++ rest =
          withMinus negative (whole ++ '.' :: (fraction ++ rest)) := by
        rw [spelling_finite, htext, withMinus_append, List.append_assoc, List.cons_append]
      rw [hspelling, read_expression_of_digit (exists_head_withMinus hwhole negative _), hnumber,
        Option.map_some, stop.skipSpace_eq, hvalue]

theorem read_expression_word (word : String) (h : IsFieldName word) (stop : EndsExpression rest) :
    expression.read (word.toList ++ rest) = some (.path (.single word), rest) := by
  have hnames : (Path.single word).HasFieldNames := List.forall_mem_singleton.2 h
  have hlone : (Path.single word).HasNoLoneIndex := by
    rintro x ⟨⟩
    rfl
  exact read_expression_path hnames hlone stop

/-- A number without a fraction is read as something else, if at all. -/
theorem ne_float_of_read_expression {x : Binary64} (h : x.hasFraction = false)
    (stop : EndsExpression rest) {t : Selection.Expr} {u : List Char}
    (hread : expression.read ((Value.float x).spelling ++ rest) = some (t, u)) :
    u = rest ∧ ∀ y, t.constantAt? [] ≠ some (.float y) := by
  cases x with
  | nan =>
      cases (read_expression_word "NaN" (by decide) stop).symm.trans hread
      exact ⟨rfl, fun _ => nofun⟩
  | infinite negative =>
      cases negative with
      | false =>
          cases (read_expression_word "inf" (by decide) stop).symm.trans hread
          exact ⟨rfl, fun _ => nofun⟩
      | true =>
          have hnumber : number.read ('-' :: 'i' :: 'n' :: 'f' :: rest) = none := rfl
          have hdash := read_expression_of_digit ⟨'-', rfl, Or.inl rfl⟩
            (s := '-' :: 'i' :: 'n' :: 'f' :: rest)
          rw [hnumber] at hdash
          cases hdash.symm.trans hread
  | finite negative m =>
      have hm : Binary64.unitsPerOne ∣ m.units := by
        by_contra hm
        rw [(hasFraction_finite negative).2 hm] at h
        cases h
      have hdigits := Value.areDigits_writeMagnitude hm
      have hnumber := read_number_digits hdigits.1 hdigits.2
        (stop.forall_head (·.isDigit = false) rfl rfl rfl rfl) stop.endsPath.2 negative
      rw [spelling_finite, withMinus_append,
        read_expression_of_digit (exists_head_withMinus hdigits negative _), hnumber] at hread
      obtain ⟨⟨v, s⟩, hv, heq⟩ := Option.map_eq_some_iff.1 hread
      obtain ⟨n, -, hn⟩ := Option.map_eq_some_iff.1 hv
      cases hn
      cases heq
      exact ⟨stop.skipSpace_eq, fun _ => nofun⟩

theorem keeps_of_read_expression_constant {v : Value} (h : v.IsLiteral)
    (stop : EndsExpression rest) {t : Selection.Expr} {u : List Char}
    (hread : expression.read (v.spelling ++ rest) = some (t, u)) :
    u = rest ∧ (Selection.Expr.constant v).Keeps t := by
  have reread : expression.read (v.spelling ++ rest) = some (.constant v, rest) →
      u = rest ∧ t = .constant v := by
    intro hself
    cases hself.symm.trans hread
    exact ⟨rfl, rfl⟩
  cases v with
  | bool b => exact h.elim
  | text s =>
      obtain ⟨hu, -⟩ := reread (read_expression_constant (v := .text s) trivial stop)
      exact ⟨hu, Selection.Expr.keeps_constant trivial⟩
  | int n =>
      obtain ⟨hu, rfl⟩ := reread (read_expression_constant (v := .int n) trivial stop)
      exact ⟨hu, Selection.Expr.keeps_constant rfl⟩
  | float x =>
      cases hx : x.hasFraction with
      | true =>
          obtain ⟨hu, rfl⟩ := reread (read_expression_of_hasFraction hx stop)
          refine ⟨hu, Selection.Expr.keeps_constant ?_⟩
          rw [Value.IsKeptAs, if_pos hx]
          rfl
      | false =>
          obtain ⟨hu, hne⟩ := ne_float_of_read_expression hx stop hread
          refine ⟨hu, Selection.Expr.keeps_constant ?_⟩
          rw [Value.IsKeptAs, if_neg (by rw [hx]; decide)]
          exact hne

/-! ## Calls -/

/-- What an expression begins with is neither white space nor a star nor a closing parenthesis. -/
def BeginsExpression (s : List Char) : Prop :=
  ∃ c ∈ s.head?, Text.isSpace c = false ∧ c ≠ '*' ∧ c ≠ ')'

theorem beginsExpression_of_isAlpha {s : List Char} (h : ∃ c ∈ s.head?, c.isAlpha = true) :
    BeginsExpression s := by
  obtain ⟨c, hc, halpha⟩ := h
  refine ⟨c, hc, Text.isSpace_of_isAlpha halpha, ?_, ?_⟩
  · rintro rfl
    cases halpha
  · rintro rfl
    cases halpha

theorem beginsExpression_of_digit {s : List Char}
    (h : ∃ c ∈ s.head?, c = '-' ∨ c.isDigit = true) : BeginsExpression s := by
  obtain ⟨c, hc, rfl | hdigit⟩ := h
  · exact ⟨'-', hc, by decide⟩
  · refine ⟨c, hc, Text.isSpace_of_isDigit hdigit, ?_, ?_⟩
    · rintro rfl
      cases hdigit
    · rintro rfl
      cases hdigit

/-- Texts, integers and floating-point numbers of any kind begin in a way of their own. -/
theorem beginsExpression_constant {v : Value} (h : v.IsLiteral) (s : List Char) :
    BeginsExpression (v.spelling ++ s) := by
  cases v with
  | bool b => exact h.elim
  | text t => exact ⟨'"', rfl, by decide⟩
  | int n =>
      have hdigits : Digits.AreDigits (Digits.ofNat n.toInt.natAbs) :=
        ⟨Digits.ofNat_ne_nil _, fun _ => Digits.isDigit_of_mem_ofNat⟩
      have hspelling : (Value.int n).spelling = Digits.ofInt n.toInt := rfl
      rw [hspelling, ofInt_eq_withMinus, withMinus_append]
      exact beginsExpression_of_digit (exists_head_withMinus hdigits _ s)
  | float x =>
      cases x with
      | nan => exact ⟨'N', rfl, by decide⟩
      | infinite negative =>
          cases negative with
          | true => exact ⟨'-', rfl, by decide⟩
          | false => exact ⟨'i', rfl, by decide⟩
      | finite negative m =>
          refine beginsExpression_of_digit ?_
          rw [spelling_finite, withMinus_append]
          by_cases hm : Binary64.unitsPerOne ∣ m.units
          · exact exists_head_withMinus (Value.areDigits_writeMagnitude hm) negative s
          · obtain ⟨whole, fraction, hwhole, -, htext, -⟩ := Value.exists_point_of_writeMagnitude hm
            rw [htext, List.append_assoc]
            exact exists_head_withMinus hwhole negative _

/-- The expression is read to its end with the numbers kept, or up to a parenthesis. -/
structure Rereads (e : Selection.Expr) : Prop where
  begins : ∀ s, BeginsExpression (e.spelling ++ s)
  keeps : ∀ rest, EndsExpression rest → ∀ t u,
    expression.read (e.spelling ++ rest) = some (t, u) →
      (u = rest ∧ e.Keeps t) ∨ ∃ v, u = '(' :: v

/-- An argument is read like the expression. -/
theorem Rereads.of_read_argument {e : Selection.Expr} (h : Rereads e)
    (stop : EndsExpression rest) {a : Argument} {u : List Char}
    (hread : (argument expression).read (e.spelling ++ rest) = some (a, u)) :
    (u = rest ∧ ∃ t : Selection.Expr, a = t.toArgument ∧ e.Keeps t) ∨ ∃ v, u = '(' :: v := by
  have hhead := Text.forall_head_of_exists (h.begins rest)
  have hstart : Text.skipSpace (e.spelling ++ rest) = e.spelling ++ rest :=
    Text.skipSpace_of_head fun c hc => (hhead c hc).1
  have nostar : ∀ c ∈ (Text.skipSpace (e.spelling ++ rest)).head?, c ≠ '*' := by
    rw [hstart]
    exact fun c hc => (hhead c hc).2.1
  rw [read_argument_eq_map nostar] at hread
  obtain ⟨⟨t, v⟩, hexpr, heq⟩ := Option.map_eq_some_iff.1 hread
  cases heq
  exact (h.keeps rest stop t v hexpr).imp_left fun ⟨hv, hkeeps⟩ => ⟨hv, t, rfl, hkeeps⟩

section Arguments

variable {es : List Selection.Expr}

theorem read_moreArgument_of_ne {c : Char} (hc : c ≠ ',') (s : List Char) :
    (do let _ ← char ','; argument expression : Matcher Argument).read (c :: s) = none :=
  read_char_bind_of_ne (by rintro d ⟨⟩; exact hc)

/-- If a closing parenthesis is reached behind arguments, they are all read to their ends. -/
theorem keeps_of_read_moreArguments (h : ∀ e ∈ es, Rereads e) {as : List Argument}
    {u : List Char}
    (hread : Matcher.read (many (do let _ ← char ','; argument expression))
      (es.flatMap (fun e => ',' :: (' ' :: e.spelling)) ++ ')' :: rest) = some (as, ')' :: u)) :
    u = rest ∧ ∃ ts : List Selection.Expr, as = ts.map Selection.Expr.toArgument ∧
      List.Forall₂ Selection.Expr.Keeps es ts := by
  induction es generalizing as with
  | nil =>
      cases (read_many_of_none (read_moreArgument_of_ne (by decide) rest)).symm.trans hread
      exact ⟨rfl, [], rfl, .nil⟩
  | cons e es ih =>
      obtain ⟨he, hes⟩ := List.forall_mem_cons.1 h
      have hends := endsExpression_moreArguments es rest
      rw [List.flatMap_cons, List.append_assoc, List.cons_append, List.cons_append] at hread
      generalize es.flatMap (fun e => ',' :: (' ' :: e.spelling)) ++ ')' :: rest = more
        at ih hends hread
      have hround : (do let _ ← char ','; argument expression : Matcher Argument).read
          (',' :: ' ' :: (e.spelling ++ more)) =
            (argument expression).read (e.spelling ++ more) := by
        rw [read_bind, read_char_self, Option.bind_some, read_argument_blank]
      cases hargument : (argument expression).read (e.spelling ++ more) with
      | none => cases (read_many_of_none (hround.trans hargument)).symm.trans hread
      | some p =>
          obtain ⟨a, v⟩ := p
          rcases he.of_read_argument hends hargument with ⟨rfl, t, rfl, ht⟩ | ⟨w, rfl⟩
          · rw [read_many_of_some (hround.trans hargument)
              (by simp only [List.length_cons, List.length_append]; omega)] at hread
            obtain ⟨⟨as', w⟩, hmore, heq⟩ := Option.map_eq_some_iff.1 hread
            cases heq
            obtain ⟨hu, ts, rfl, hts⟩ := ih hes hmore
            exact ⟨hu, t :: ts, rfl, .cons ht hts⟩
          · -- what is left over begins with a parenthesis that opens, not with one that closes
            cases (read_many_of_once (hround.trans hargument)
              (read_moreArgument_of_ne (by decide) w)).symm.trans hread

/-- If arguments are read up to a closing parenthesis, it is the one behind them. -/
theorem keeps_of_read_arguments (h : ∀ e ∈ es, Rereads e) {as : List Argument} {u : List Char}
    (hread : (arguments expression).read ('(' :: (Selection.Expr.spellArgs es ++ ')' :: rest)) =
      some (as, u)) :
    u = rest ∧ ∃ ts : List Selection.Expr, as = ts.map Selection.Expr.toArgument ∧
      List.Forall₂ Selection.Expr.Keeps es ts := by
  cases es with
  | nil =>
      have hempty := @read_arguments_spelling [] nofun rest
      cases hempty.symm.trans hread
      exact ⟨rfl, [], rfl, .nil⟩
  | cons e es =>
      obtain ⟨he, hes⟩ := List.forall_mem_cons.1 h
      obtain ⟨s, hs, as?, hargs, has⟩ := read_arguments_eq_some_iff.1 hread
      cases hs
      rw [read_optional, Selection.Expr.spellArgs_cons, List.append_assoc,
        read_separated_eq] at hargs
      have hends := endsExpression_moreArguments es rest
      cases hargument : (argument expression).read (e.spelling ++
          (es.flatMap (fun e => ',' :: (' ' :: e.spelling)) ++ ')' :: rest)) with
      | none =>
          -- no argument is read where one stands, so that the parenthesis is not closed there
          rw [hargument, Option.bind_none] at hargs
          have hbegins := Text.forall_head_of_exists (he.begins
            (es.flatMap (fun e => ',' :: (' ' :: e.spelling)) ++ ')' :: rest))
          rw [(Prod.mk.inj (Option.some.inj hargs)).2] at hbegins
          exact absurd rfl (hbegins ')' rfl).2.2
      | some p =>
          obtain ⟨a, v⟩ := p
          rw [hargument, Option.bind_some] at hargs
          rcases he.of_read_argument hends hargument with ⟨rfl, t, rfl, ht⟩ | ⟨w, rfl⟩
          · obtain ⟨as', w, hmore⟩ := exists_read_many
              (do let _ ← char ','; argument expression : Matcher Argument)
              (es.flatMap (fun e => ',' :: (' ' :: e.spelling)) ++ ')' :: rest)
            rw [hmore] at hargs
            cases hargs
            obtain ⟨hu, ts, rfl, hts⟩ := keeps_of_read_moreArguments hes hmore
            exact ⟨hu, t :: ts, has.symm, .cons ht hts⟩
          · rw [read_many_of_none (read_moreArgument_of_ne (by decide) w)] at hargs
            cases hargs

end Arguments

/-! ## Expressions -/

theorem rereads_path {p : Path} (names : p.HasFieldNames) (lone : p.HasNoLoneIndex) :
    Rereads (.path p) := by
  constructor
  · intro s
    obtain ⟨c, cs, hspelling, halpha⟩ := exists_spelling_eq_cons names
    exact beginsExpression_of_isAlpha ⟨c, by rw [Selection.Expr.spelling, hspelling]; rfl, halpha⟩
  · intro rest stop t u hread
    cases (read_expression_path names lone stop).symm.trans hread
    exact Or.inl ⟨rfl, Selection.Expr.keeps_path p _⟩

theorem rereads_constant {v : Value} (h : v.IsLiteral) : Rereads (.constant v) :=
  ⟨beginsExpression_constant h, fun _ stop _ _ hread =>
    Or.inl (keeps_of_read_expression_constant h stop hread)⟩

/-- A call whose arguments are not read is a path up to their parenthesis. -/
theorem rereads_call {f : String} {es : List Selection.Expr} (name : IsFieldName f)
    (h : ∀ e ∈ es, Rereads e) : Rereads (.call f es) := by
  constructor
  · exact fun s => beginsExpression_of_isAlpha
      (exists_head_of_read_fieldName (read_fieldName_call name es s))
  · intro rest stop t u hread
    cases hargs : (arguments expression).read
        ('(' :: (Selection.Expr.spellArgs es ++ ')' :: rest)) with
    | some p =>
        obtain ⟨as, v⟩ := p
        obtain ⟨rfl, ts, rfl, hts⟩ := keeps_of_read_arguments h hargs
        cases (read_expression_of_read_arguments name stop hargs).symm.trans hread
        exact Or.inl ⟨rfl, Selection.Expr.keeps_call hts f f⟩
    | none =>
        have hterm : (term expression).read ((Selection.Expr.call f es).spelling ++ rest) =
            some (⟨f, none⟩, '(' :: (Selection.Expr.spellArgs es ++ ')' :: rest)) := by
          refine read_bind_bind_pure_eq_some_iff.2
            ⟨f, none, _, read_fieldName_call name es rest, ?_, rfl⟩
          rw [read_optional, hargs]
        have hmore := read_moreTerms_of_ne expression
          (s := '(' :: (Selection.Expr.spellArgs es ++ ')' :: rest)) (by rintro c ⟨⟩; decide)
        have hchain := read_chain_eq_some_iff.2 ⟨_, _, _, hterm, hmore, rfl⟩
        cases (read_expression_of_read_chain hchain).symm.trans hread
        exact Or.inr ⟨_, rfl⟩

/-- Whatever can be written is read to its end with the numbers kept, or up to a parenthesis. -/
theorem rereads_of_isFormed {e : Selection.Expr} (h : e.IsFormed Value.IsLiteral) :
    Rereads e := by
  induction h with
  | path p names lone => exact rereads_path names lone
  | call f es name _ ih => exact rereads_call name ih
  | constant v kind => exact rereads_constant kind

end Grammar

end EventQuery
