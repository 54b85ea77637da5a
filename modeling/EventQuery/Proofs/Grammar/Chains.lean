import EventQuery.Grammar.Selection
import EventQuery.Proofs.Errors
import EventQuery.Proofs.Grammar.Paths

/-!
# Chains that are paths

The grammar of selections has no paths of its own. It reads chains of terms, whose arguments are
anything that a call may have, and looks afterwards whether a chain is a path.

A segment of a path stands for one term: the index is the only argument. What the grammar of paths
reads as segments is read as the terms they stand for, if no parenthesis is left over behind them.
The other way around white space makes a difference, which arguments may have around them and
indices may not: on text without it, terms that stand for segments are read as these.
-/

namespace EventQuery

/-- The argument that an index is read as. -/
def Index.toArgument : Index → Grammar.Argument
  | position n => .constant (.int n)
  | key s => .constant (.text s)
  | any => .star

/-- The term that a segment is read as. -/
def Segment.toTerm (x : Segment) : Grammar.Term :=
  ⟨x.name, x.index.map fun i => [i.toArgument]⟩

/-- A path of one segment has no index; with one it would be written like a call. -/
def Path.HasNoLoneIndex (p : Path) : Prop := ∀ x, p.segments = [x] → x.index = none

namespace Grammar

open Matcher

/-- The text has no white space. -/
def Unspaced (s : List Char) : Prop := ∀ c ∈ s, Text.isSpace c = false

theorem Unspaced.of_suffix {s t : List Char} (h : Unspaced s) (hts : t <:+ s) : Unspaced t :=
  fun c hc => h c (hts.mem hc)

theorem Unspaced.skipSpace_eq {s : List Char} (h : Unspaced s) : Text.skipSpace s = s := by
  apply Text.skipSpace_of_head
  intro c hc
  exact h c (List.mem_of_mem_head? hc)

/-! ## What chains stand for -/

theorem toSegment_eq_ok_iff {t : Term} {x : Segment} : t.toSegment = .ok x ↔ t = x.toTerm := by
  constructor
  · intro h
    obtain ⟨name, args⟩ := t
    unfold Term.toSegment at h
    split at h
    · rename_i hargs
      cases h
      exact congrArg (Term.mk name) hargs
    · rename_i n hargs
      cases h
      exact congrArg (Term.mk name) hargs
    · rename_i s hargs
      cases h
      exact congrArg (Term.mk name) hargs
    · rename_i hargs
      cases h
      exact congrArg (Term.mk name) hargs
    · cases h
  · intro h
    subst h
    obtain ⟨name, _ | i⟩ := x
    · rfl
    · cases i <;> rfl

theorem mapM_toSegment_eq_ok_iff {ts : List Term} {xs : List Segment} :
    ts.mapM Term.toSegment = .ok xs ↔ ts = xs.map Segment.toTerm := by
  have hsegment : (fun (t : Term) x => t.toSegment = .ok x) = fun t x => t = x.toTerm :=
    funext fun t => funext fun x => propext toSegment_eq_ok_iff
  rw [mapM_eq_ok_iff, hsegment, ← List.forall₂_map_right_iff, List.forall₂_eq_eq_eq]

/-- A chain is a path when its terms stand for the segments, unless it is a single term with
arguments. -/
theorem chainExpr_eq_path_iff {first : Term} {more : List Term} {p : Path} :
    chainExpr first more = .ok (.path p) ↔
      first :: more = p.segments.map Segment.toTerm ∧ p.HasNoLoneIndex := by
  have hpath : (do
      let s ← first.toSegment
      let ss ← more.mapM Term.toSegment
      return .path ⟨s :: ss, List.cons_ne_nil s ss⟩ : Except SyntaxFault Selection.Expr) =
        .ok (.path p) ↔ first :: more = p.segments.map Segment.toTerm := by
    rw [bind_eq_ok_iff]
    constructor
    · intro h
      obtain ⟨x, hx, h⟩ := h
      obtain ⟨xs, hxs, h⟩ := bind_eq_ok_iff.1 h
      cases h
      rw [toSegment_eq_ok_iff.1 hx, mapM_toSegment_eq_ok_iff.1 hxs, List.map_cons]
    · intro h
      obtain ⟨x, xs, hsegments, rfl, rfl⟩ := List.map_eq_cons_iff.1 h.symm
      refine ⟨x, toSegment_eq_ok_iff.2 rfl,
        bind_eq_ok_iff.2 ⟨xs, mapM_toSegment_eq_ok_iff.2 rfl, ?_⟩⟩
      exact congrArg (fun p => Except.ok (Selection.Expr.path p)) (Path.ext hsegments.symm)
  unfold chainExpr
  split
  · rename_i args hargs
    apply iff_of_false
    · intro h
      obtain ⟨es, -, h⟩ := map_eq_ok_iff.1 h
      cases h
    · intro h
      obtain ⟨x, xs, hsegments, rfl, hxs⟩ := List.map_eq_cons_iff.1 h.1.symm
      obtain rfl := List.map_eq_nil_iff.1 hxs
      rw [Segment.toTerm, h.2 x hsegments] at hargs
      cases hargs
  · rename_i hother
    rw [hpath, iff_self_and]
    intro h x hsegments
    rw [hsegments] at h
    obtain ⟨rfl, rfl⟩ := List.cons.inj h
    cases hindex : x.index with
    | none => rfl
    | some i => exact (hother [i.toArgument] rfl (by rw [Segment.toTerm, hindex]; rfl)).elim

/-- Any other chain is a call, and none is a constant. -/
theorem chainExpr_cases {first : Term} {more : List Term} {e : Selection.Expr}
    (h : chainExpr first more = .ok e) :
    (∃ p, e = .path p) ∨ ∃ args es, first.args = some args ∧
      args.mapM Argument.toExpr = .ok es ∧ e = .call first.name es := by
  unfold chainExpr at h
  split at h
  · rename_i args hargs
    obtain ⟨es, hes, rfl⟩ := map_eq_ok_iff.1 h
    exact Or.inr ⟨args, es, hargs, hes, rfl⟩
  · obtain ⟨x, -, h⟩ := bind_eq_ok_iff.1 h
    obtain ⟨xs, -, h⟩ := bind_eq_ok_iff.1 h
    cases h
    exact Or.inl ⟨_, rfl⟩

/-! ## Indices and arguments -/

theorem read_indexBody_eq (s : List Char) :
    indexBody.read s =
      ((integer.read s).map fun p => (Index.position p.1, p.2)).or
        (((quotedString.read s).map fun p => (Index.key p.1, p.2)).or
          (((char '*').read s).map fun p => (Index.any, p.2))) := by
  rw [indexBody, read_orElse, read_bind_pure, read_orElse, read_bind_pure, read_bind_pure]

theorem read_argument_eq (inner : Matcher Selection.Expr) {s t : List Char}
    (start : Text.skipSpace s = t) :
    (argument inner).read s =
      ((((quotedString.read t).map fun p => (Argument.constant (.text p.1), p.2)).or
        (((number.read t).map fun p => (Argument.constant p.1, p.2)).or
          ((((char '*').read t).map fun p => (Argument.star, p.2)).or
            ((inner.read t).map fun p => (Argument.expr p.1, p.2)))))).map
        fun p => (p.1, Text.skipSpace p.2) := by
  rw [argument, read_padded, start, read_orElse, read_bind_pure, read_orElse, read_bind_pure,
    read_orElse, read_bind_pure, read_bind_pure]

/-- An integer is no string. -/
theorem read_quotedString_of_read_integer {s : List Char} {p : Int64 × List Char}
    (h : integer.read s = some p) : quotedString.read s = none := by
  have hhead := Text.forall_head_of_exists (exists_head_of_read_integer h)
  apply read_quotedString_eq_none
  intro c hc
  constructor
  · rintro rfl
    exact absurd (hhead _ hc) (by decide)
  · rintro rfl
    exact absurd (hhead _ hc) (by decide)

theorem read_integer_of_read_quotedString {s : List Char} {p : String × List Char}
    (h : quotedString.read s = some p) : integer.read s = none := by
  cases hinteger : integer.read s with
  | none => rfl
  | some q =>
      rw [read_quotedString_of_read_integer hinteger] at h
      cases h

/-- Neither an integer nor a string nor a star begins with white space. -/
theorem skipSpace_of_read_indexBody {s : List Char} {p : Index × List Char}
    (h : indexBody.read s = some p) : Text.skipSpace s = s := by
  apply Text.skipSpace_of_head
  intro c hc
  rw [read_indexBody_eq, Option.or_eq_some_iff, Option.or_eq_some_iff] at h
  rcases h with h | ⟨-, h | ⟨-, h⟩⟩
  · obtain ⟨q, hq, -⟩ := Option.map_eq_some_iff.1 h
    cases Text.forall_head_of_exists (exists_head_of_read_integer hq) c hc with
    | inl h => subst h; decide
    | inr h => exact Text.isSpace_of_isDigit h
  · obtain ⟨q, hq, -⟩ := Option.map_eq_some_iff.1 h
    cases Text.forall_head_of_exists (exists_head_of_read_quotedString hq) c hc with
    | inl h => subst h; decide
    | inr h => subst h; decide
  · obtain ⟨q, hq, -⟩ := Option.map_eq_some_iff.1 h
    obtain ⟨hs, -⟩ := eq_cons_of_read_char hq
    rw [hs] at hc
    cases hc
    decide

/-- An index is read as an argument. -/
theorem read_argument_of_read_indexBody (inner : Matcher Selection.Expr) {s rest : List Char}
    {i : Index} (h : indexBody.read s = some (i, rest)) (stop : ∀ c ∈ rest.head?, c ≠ '.') :
    (argument inner).read s = some (i.toArgument, Text.skipSpace rest) := by
  rw [read_argument_eq inner (skipSpace_of_read_indexBody h)]
  rw [read_indexBody_eq, Option.or_eq_some_iff, Option.or_eq_some_iff] at h
  rcases h with h | ⟨-, h | ⟨-, h⟩⟩
  · obtain ⟨⟨n, rest'⟩, hinteger, heq⟩ := Option.map_eq_some_iff.1 h
    cases heq
    have hnumber := read_number_int_iff.2 ⟨hinteger, read_fractionDigits_of_ne stop⟩
    rw [read_quotedString_of_read_integer hinteger, hnumber]
    rfl
  · obtain ⟨⟨k, rest'⟩, hstring, heq⟩ := Option.map_eq_some_iff.1 h
    cases heq
    rw [hstring]
    rfl
  · obtain ⟨⟨c, rest'⟩, hchar, heq⟩ := Option.map_eq_some_iff.1 h
    cases heq
    obtain ⟨rfl, rfl⟩ := eq_cons_of_read_char hchar
    rw [read_quotedString_eq_none (by rintro c ⟨⟩; decide),
      read_number_eq_none (by rintro c ⟨⟩; decide), hchar]
    rfl

/-- An argument that is an index is read as one, up to the white space around it. -/
theorem read_indexBody_of_read_argument {inner : Matcher Selection.Expr} {s rest : List Char}
    {i : Index} (start : Text.skipSpace s = s)
    (h : (argument inner).read s = some (i.toArgument, rest)) :
    ∃ t, indexBody.read s = some (i, t) ∧ Text.skipSpace t = rest := by
  rw [read_argument_eq inner start] at h
  obtain ⟨⟨a, t⟩, harg, heq⟩ := Option.map_eq_some_iff.1 h
  obtain ⟨rfl, rfl⟩ := Prod.mk.inj heq
  refine ⟨t, ?_, rfl⟩
  rw [Option.or_eq_some_iff, Option.or_eq_some_iff, Option.or_eq_some_iff] at harg
  rw [read_indexBody_eq]
  rcases harg with h | ⟨-, h | ⟨-, h | ⟨-, h⟩⟩⟩
  · obtain ⟨⟨k, t'⟩, hstring, heq⟩ := Option.map_eq_some_iff.1 h
    cases i <;> cases heq
    rw [read_integer_of_read_quotedString hstring, hstring]
    rfl
  · obtain ⟨⟨v, t'⟩, hnumber, heq⟩ := Option.map_eq_some_iff.1 h
    cases i with
    | position n =>
        cases heq
        rw [(read_number_int_iff.1 hnumber).1]
        rfl
    | key k =>
        cases heq
        obtain ⟨n, hv⟩ | ⟨x, hv⟩ := yields_number _ _ _ hnumber
        · cases hv
        · cases hv
    | any => cases heq
  · obtain ⟨⟨c, t'⟩, hchar, heq⟩ := Option.map_eq_some_iff.1 h
    cases i <;> cases heq
    obtain ⟨rfl, rfl⟩ := eq_cons_of_read_char hchar
    rw [read_integer_eq_none (by rintro c ⟨⟩; decide),
      read_quotedString_eq_none (by rintro c ⟨⟩; decide), hchar]
    rfl
  · obtain ⟨⟨e, t'⟩, -, heq⟩ := Option.map_eq_some_iff.1 h
    cases i <;> cases heq

/-! ## Parentheses -/

theorem read_index_eq_some_iff {s rest : List Char} {i : Index} :
    index.read s = some (i, rest) ↔
      ∃ t, s = '(' :: t ∧ indexBody.read t = some (i, ')' :: rest) := by
  rw [index, read_char_bind_eq_some_iff]
  apply exists_congr
  intro t
  rw [read_bind_char_eq_some_iff, exists_eq_right]

theorem read_arguments_eq_some_iff {inner : Matcher Selection.Expr} {s rest : List Char}
    {as : List Argument} :
    (arguments inner).read s = some (as, rest) ↔
      ∃ t, s = '(' :: t ∧ ∃ as?,
        (optional (separated (argument inner) (char ','))).read t = some (as?, ')' :: rest) ∧
          as?.getD [] = as := by
  rw [arguments, read_char_bind_eq_some_iff]
  apply exists_congr
  intro t
  rw [read_bind_char_eq_some_iff]

/-- An index is read as the only argument. -/
theorem read_arguments_of_read_index (inner : Matcher Selection.Expr) {s rest : List Char}
    {i : Index} (h : index.read s = some (i, rest)) :
    (arguments inner).read s = some ([i.toArgument], rest) := by
  obtain ⟨t, rfl, hbody⟩ := read_index_eq_some_iff.1 h
  refine read_arguments_eq_some_iff.2 ⟨t, rfl, some [i.toArgument], ?_, rfl⟩
  have harg : (argument inner).read t = some (i.toArgument, ')' :: rest) :=
    read_argument_of_read_indexBody inner hbody (by rintro c ⟨⟩; decide)
  have hmore : Matcher.read (many (do let _ ← char ','; argument inner)) (')' :: rest) =
      some ([], ')' :: rest) :=
    read_many_of_none (read_char_bind_of_ne (by rintro c ⟨⟩; decide))
  rw [read_optional, read_separated_eq, harg, Option.bind_some, hmore]
  rfl

/-- Where there is no white space, an index that is the only argument is read as one. -/
theorem read_index_of_read_arguments {inner : Matcher Selection.Expr} {s rest : List Char}
    {i : Index} (unspaced : Unspaced s)
    (h : (arguments inner).read s = some ([i.toArgument], rest)) :
    index.read s = some (i, rest) := by
  obtain ⟨t, rfl, as?, hargs, has⟩ := read_arguments_eq_some_iff.1 h
  have ht : Unspaced t := unspaced.of_suffix (List.suffix_cons _ _)
  refine read_index_eq_some_iff.2 ⟨t, rfl, ?_⟩
  rw [read_optional] at hargs
  cases hseparated : (separated (argument inner) (char ',')).read t with
  | none =>
      rw [hseparated] at hargs
      cases hargs
      cases has
  | some p =>
      obtain ⟨as, u⟩ := p
      rw [hseparated] at hargs
      cases hargs
      obtain rfl : as = [i.toArgument] := has
      rw [read_separated_eq] at hseparated
      obtain ⟨⟨a, v⟩, harg, hseparated⟩ := Option.bind_eq_some_iff.1 hseparated
      obtain ⟨⟨as, w⟩, hmore, heq⟩ := Option.map_eq_some_iff.1 hseparated
      cases heq
      obtain rfl := eq_of_read_many_nil hmore
      obtain ⟨w, hbody, hw⟩ := read_indexBody_of_read_argument ht.skipSpace_eq harg
      rw [(ht.of_suffix (shrinks_indexBody t i w hbody)).skipSpace_eq] at hw
      rw [hbody, hw]

/-! ## Segments and terms -/

/-- Whatever may stand behind a name, only the name can be missing. -/
theorem read_named_eq_none_iff {m : Matcher α} {f : String → Option α → β} {s : List Char} :
    (do let name ← fieldName; let a? ← optional m; return f name a? : Matcher β).read s = none ↔
      fieldName.read s = none := by
  rw [read_bind]
  cases fieldName.read s with
  | none => exact iff_of_true rfl rfl
  | some p =>
      rw [Option.bind_some, read_bind_pure, read_optional]
      cases m.read p.2 <;> exact iff_of_false nofun nofun

/-- Where a segment is read, and no parenthesis is left over, so is the term it stands for. -/
theorem read_term_of_read_segment (inner : Matcher Selection.Expr) {s rest : List Char}
    {x : Segment} (h : segment.read s = some (x, rest)) (stop : ∀ c ∈ rest.head?, c ≠ '(') :
    (term inner).read s = some (x.toTerm, rest) := by
  obtain ⟨name, i?, t, hname, hindex, rfl⟩ := read_bind_bind_pure_eq_some_iff.1 h
  refine read_bind_bind_pure_eq_some_iff.2 ⟨name, i?.map fun i => [i.toArgument], t, hname, ?_, rfl⟩
  rw [read_optional] at hindex ⊢
  cases hread : index.read t with
  | none =>
      rw [hread] at hindex
      cases hindex
      have noargs : (arguments inner).read rest = none := read_char_bind_of_ne stop
      rw [noargs]
      rfl
  | some p =>
      obtain ⟨i, u⟩ := p
      rw [hread] at hindex
      cases hindex
      rw [read_arguments_of_read_index inner hread]
      rfl

/-- Where there is no white space, a term that stands for a segment is read as that. -/
theorem read_segment_of_read_term {inner : Matcher Selection.Expr} {s rest : List Char}
    {x : Segment} (unspaced : Unspaced s) (h : (term inner).read s = some (x.toTerm, rest)) :
    segment.read s = some (x, rest) := by
  obtain ⟨name, as?, t, hname, hargs, heq⟩ := read_bind_bind_pure_eq_some_iff.1 h
  obtain ⟨name', i?⟩ := x
  obtain ⟨rfl, rfl⟩ := Term.mk.inj heq
  have ht : Unspaced t := unspaced.of_suffix (shrinks_fieldName s name t hname)
  refine read_bind_bind_pure_eq_some_iff.2 ⟨name, i?, t, hname, ?_, rfl⟩
  rw [read_optional] at hargs ⊢
  cases i? with
  | none =>
      cases hread : index.read t with
      | none =>
          cases hnone : (arguments inner).read t with
          | none =>
              rw [hnone] at hargs
              cases hargs
              rfl
          | some p =>
              rw [hnone] at hargs
              cases hargs
      | some p =>
          rw [read_arguments_of_read_index inner hread] at hargs
          cases hargs
  | some i =>
      cases hsome : (arguments inner).read t with
      | none =>
          rw [hsome] at hargs
          cases hargs
      | some p =>
          obtain ⟨as, u⟩ := p
          rw [hsome] at hargs
          cases hargs
          rw [read_index_of_read_arguments ht hsome]

/-! ## Repetitions -/

/-- The segments of a path behind its first. -/
def moreSegments : Matcher (List Segment) := many (do let _ ← char '.'; segment)

/-- The terms of a chain behind its first. -/
def moreTerms (inner : Matcher Selection.Expr) : Matcher (List Term) :=
  many (do let _ ← char '.'; term inner)

theorem read_moreTerms_of_ne (inner : Matcher Selection.Expr) {s : List Char}
    (h : ∀ c ∈ s.head?, c ≠ '.') : (moreTerms inner).read s = some ([], s) :=
  read_many_of_none (read_char_bind_of_ne h)

theorem read_dotted_eq_none {m : Matcher α} {m' : Matcher β}
    (h : ∀ t, m.read t = none → m'.read t = none) {s : List Char}
    (hread : (do let _ ← char '.'; m : Matcher α).read s = none) :
    (do let _ ← char '.'; m' : Matcher β).read s = none := by
  rw [read_bind] at hread ⊢
  cases hchar : (char '.').read s with
  | none => rfl
  | some p =>
      rw [hchar] at hread
      exact h p.2 hread

/-- The terms that the segments stand for; before none and before a point there is no
parenthesis. -/
theorem read_moreTerms_of_read_moreSegments (inner : Matcher Selection.Expr)
    {s rest : List Char} {xs : List Segment} (h : moreSegments.read s = some (xs, rest))
    (stop : ∀ c ∈ rest.head?, c ≠ '(') :
    (moreTerms inner).read s = some (xs.map Segment.toTerm, rest) ∧ ∀ c ∈ s.head?, c ≠ '(' := by
  have hround : ∀ s x middle, (do let _ ← char '.'; segment : Matcher Segment).read s =
      some (x, middle) → (∀ c ∈ middle.head?, c ≠ '(') →
        (do let _ ← char '.'; term inner : Matcher Term).read s = some (x.toTerm, middle) ∧
          ∀ c ∈ s.head?, c ≠ '(' := by
    intro s x middle hread hmiddle
    obtain ⟨t, rfl, hsegment⟩ := read_char_bind_eq_some_iff.1 hread
    refine ⟨read_char_bind_eq_some_iff.2 ⟨t, rfl, ?_⟩, by rintro c ⟨⟩; decide⟩
    exact read_term_of_read_segment inner hsegment hmiddle
  refine many_induct (motive := fun s xs rest => (∀ c ∈ rest.head?, c ≠ '(') →
    (moreTerms inner).read s = some (xs.map Segment.toTerm, rest) ∧ ∀ c ∈ s.head?, c ≠ '(')
    ?_ ?_ ?_ h stop
  · intro s hread hs
    refine ⟨read_many_of_none (read_dotted_eq_none (fun t ht => ?_) hread), hs⟩
    exact read_named_eq_none_iff.2 (read_named_eq_none_iff.1 ht)
  · intro s x middle xs rest hread progress ih hrest
    obtain ⟨hmore, hmiddle⟩ := ih hrest
    obtain ⟨hterm, hs⟩ := hround s x middle hread hmiddle
    refine ⟨?_, hs⟩
    rw [moreTerms, read_many_of_some hterm progress, ← moreTerms, hmore]
    rfl
  · intro s x rest hread stuck hrest
    obtain ⟨hterm, hs⟩ := hround s x rest hread hrest
    exact ⟨read_many_of_not_lt hterm stuck, hs⟩

/-- Where there is no white space, terms that stand for segments are read as these. -/
theorem read_moreSegments_of_read_moreTerms {inner : Matcher Selection.Expr}
    {s rest : List Char} {xs : List Segment} (unspaced : Unspaced s)
    (h : (moreTerms inner).read s = some (xs.map Segment.toTerm, rest)) :
    moreSegments.read s = some (xs, rest) := by
  have hround : ∀ s x middle, Unspaced s →
      (do let _ ← char '.'; term inner : Matcher Term).read s = some (x.toTerm, middle) →
        (do let _ ← char '.'; segment : Matcher Segment).read s = some (x, middle) := by
    intro s x middle hs hread
    obtain ⟨t, rfl, hterm⟩ := read_char_bind_eq_some_iff.1 hread
    refine read_char_bind_eq_some_iff.2 ⟨t, rfl, ?_⟩
    exact read_segment_of_read_term (hs.of_suffix (List.suffix_cons _ _)) hterm
  generalize hts : xs.map Segment.toTerm = ts at h
  refine many_induct (motive := fun s ts rest => ∀ xs : List Segment,
    xs.map Segment.toTerm = ts → Unspaced s → moreSegments.read s = some (xs, rest))
    ?_ ?_ ?_ h xs hts unspaced
  · intro s hread xs hxs hs
    obtain rfl := List.map_eq_nil_iff.1 hxs
    refine read_many_of_none (read_dotted_eq_none (fun t ht => ?_) hread)
    exact read_named_eq_none_iff.2 (read_named_eq_none_iff.1 ht)
  · intro s t middle ts rest hread progress ih xs hxs hs
    obtain ⟨x, xs, rfl, rfl, rfl⟩ := List.map_eq_cons_iff.1 hxs
    have hsegment := hround s x middle hs hread
    have hmiddle : Unspaced middle :=
      hs.of_suffix (Shrinks.bind (.oneOf _) (fun _ => shrinks_segment) s x middle hsegment)
    rw [moreSegments, read_many_of_some hsegment progress, ← moreSegments, ih xs rfl hmiddle]
    rfl
  · intro s t rest hread stuck xs hxs hs
    obtain ⟨x, xs, rfl, rfl, htail⟩ := List.map_eq_cons_iff.1 hxs
    obtain rfl := List.map_eq_nil_iff.1 htail
    exact read_many_of_not_lt (hround s x rest hs hread) stuck

/-! ## Paths and chains -/

theorem read_path_eq_some_iff {s rest : List Char} {p : Path} :
    path.read s = some (p, rest) ↔
      ∃ x xs t, segment.read s = some (x, t) ∧ moreSegments.read t = some (xs, rest) ∧
        x :: xs = p.segments := by
  refine (read_bind_bind_pure_eq_some_iff (k := moreSegments)
    (f := fun x xs => (⟨x :: xs, List.cons_ne_nil x xs⟩ : Path))).trans ?_
  simp only [Path.ext_iff]

theorem read_chain_eq_some_iff {inner : Matcher Selection.Expr} {s rest : List Char}
    {e : Selection.Expr} :
    (chain inner).read s = some (e, rest) ↔
      ∃ first more t, (term inner).read s = some (first, t) ∧
        (moreTerms inner).read t = some (more, rest) ∧ chainExpr first more = .ok e := by
  refine read_checked_eq_some_iff.trans ?_
  constructor
  · intro h
    obtain ⟨ts, hterms, he⟩ := h
    obtain ⟨first, more, t, hfirst, hmore, rfl⟩ :=
      (read_bind_bind_pure_eq_some_iff (k := moreTerms inner)).1 hterms
    exact ⟨first, more, t, hfirst, hmore, he⟩
  · intro h
    obtain ⟨first, more, t, hfirst, hmore, he⟩ := h
    exact ⟨(first, more), (read_bind_bind_pure_eq_some_iff (k := moreTerms inner)).2
      ⟨first, more, t, hfirst, hmore, rfl⟩, he⟩

/-- What the grammar of paths reads is the same path as a chain. -/
theorem read_chain_of_read_path (inner : Matcher Selection.Expr) {s rest : List Char} {p : Path}
    (h : path.read s = some (p, rest)) (stop : ∀ c ∈ rest.head?, c ≠ '(')
    (lone : p.HasNoLoneIndex) : (chain inner).read s = some (.path p, rest) := by
  obtain ⟨x, xs, t, hfirst, hmore, hsegments⟩ := read_path_eq_some_iff.1 h
  obtain ⟨hterms, ht⟩ := read_moreTerms_of_read_moreSegments inner hmore stop
  refine read_chain_eq_some_iff.2
    ⟨x.toTerm, xs.map Segment.toTerm, t, read_term_of_read_segment inner hfirst ht, hterms, ?_⟩
  rw [chainExpr_eq_path_iff, ← hsegments]
  exact ⟨rfl, lone⟩

/-- Where there is no white space, a chain that is a path is read by the grammar of paths. -/
theorem read_path_of_read_chain {inner : Matcher Selection.Expr} {s rest : List Char} {p : Path}
    (unspaced : Unspaced s) (h : (chain inner).read s = some (.path p, rest)) :
    path.read s = some (p, rest) := by
  obtain ⟨first, more, t, hfirst, hmore, hexpr⟩ := read_chain_eq_some_iff.1 h
  obtain ⟨hterms, -⟩ := chainExpr_eq_path_iff.1 hexpr
  obtain ⟨x, xs, hsegments, rfl, rfl⟩ := List.map_eq_cons_iff.1 hterms.symm
  have hsegment := read_segment_of_read_term unspaced hfirst
  have ht : Unspaced t := unspaced.of_suffix (shrinks_segment s x t hsegment)
  exact read_path_eq_some_iff.2
    ⟨x, xs, t, hsegment, read_moreSegments_of_read_moreTerms ht hmore, hsegments.symm⟩

end Grammar

end EventQuery
