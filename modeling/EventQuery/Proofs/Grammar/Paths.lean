import EventQuery.Grammar.Path
import EventQuery.Proofs.Grammar.Lexemes

/-!
# Paths are read back

A path is read back from its written form when its segments are named by field names, whatever its
indices are, and the segments of every path that is read are. What follows a path must not go on
with the name, open an index or append a segment.
-/

namespace EventQuery

/-- The segments are named by field names. -/
def Path.HasFieldNames (p : Path) : Prop := ∀ s ∈ p.segments, Grammar.IsFieldName s.name

instance (p : Path) : Decidable p.HasFieldNames :=
  inferInstanceAs (Decidable (∀ s ∈ p.segments, Grammar.IsFieldName s.name))

theorem Path.hasFieldNames_canonical {p : Path} : p.canonical.HasFieldNames ↔ p.HasFieldNames := by
  simp [HasFieldNames, Segment.plain]

theorem Path.hasFieldNames_qualify_iff {p : Path} {entity : String} :
    (p.qualify entity).HasFieldNames ↔ Grammar.IsFieldName entity ∧ p.HasFieldNames := by
  simp [HasFieldNames, Segment.plain]

namespace Grammar

open Matcher

/-- The text does not go on with a segment. -/
def EndsSegment (rest : List Char) : Prop := ∀ c ∈ rest.head?, isNameChar c = false ∧ c ≠ '('

/-- The text does not go on with a path. -/
def EndsPath (rest : List Char) : Prop := EndsSegment rest ∧ ∀ c ∈ rest.head?, c ≠ '.'

theorem endsPath_nil : EndsPath [] := ⟨nofun, nofun⟩

theorem endsPath_space (s : List Char) : EndsPath (' ' :: s) := by
  constructor <;> (rintro c ⟨⟩; decide)

/-! ## Indices -/

theorem read_indexBody (i : Index) {rest : List Char}
    (stop : ∀ c ∈ rest.head?, c.isDigit = false) :
    indexBody.read (i.spelling ++ rest) = some (i, rest) := by
  cases i with
  | position n =>
      rw [indexBody, read_orElse, read_bind, Index.spelling, read_integer n stop]
      rfl
  | key s =>
      have nointeger : integer.read (Text.quote '"' s.toList ++ rest) = none := by
        refine read_integer_eq_none ?_
        rintro c ⟨⟩
        decide
      rw [indexBody, read_orElse, read_bind, Index.spelling, nointeger, Option.bind_none,
        Option.none_or, read_orElse, read_bind, read_quotedString]
      rfl
  | any =>
      have nointeger : integer.read ('*' :: rest) = none := by
        refine read_integer_eq_none ?_
        rintro c ⟨⟩
        decide
      have nostring : quotedString.read ('*' :: rest) = none := by
        refine read_quotedString_eq_none ?_
        rintro c ⟨⟩
        decide
      show indexBody.read ('*' :: rest) = _
      rw [indexBody, read_orElse, read_bind, nointeger, Option.bind_none, Option.none_or,
        read_orElse, read_bind, nostring, Option.bind_none, Option.none_or, read_bind,
        read_char_self]
      rfl

theorem read_index (i : Index) (rest : List Char) :
    index.read ('(' :: (i.spelling ++ ')' :: rest)) = some (i, rest) := by
  have hbody : indexBody.read (i.spelling ++ ')' :: rest) = some (i, ')' :: rest) := by
    refine read_indexBody i ?_
    rintro c ⟨⟩
    decide
  rw [index, read_bind, read_char_self, Option.bind_some, read_bind, hbody, Option.bind_some,
    read_bind, read_char_self, Option.bind_some, read_pure]

/-! ## Segments -/

theorem read_segment {s : Segment} (h : IsFieldName s.name) {rest : List Char}
    (stop : EndsSegment rest) : segment.read (s.spelling ++ rest) = some (s, rest) := by
  obtain ⟨name, _ | i⟩ := s
  · have noindex : index.read rest = none := read_char_bind_of_ne fun c hc => (stop c hc).2
    rw [segment, read_bind, Segment.spelling, read_fieldName h fun c hc => (stop c hc).1,
      Option.bind_some, read_bind, read_optional, noindex]
    rfl
  · have hname : fieldName.read (name.toList ++ '(' :: (i.spelling ++ ')' :: rest)) =
        some (name, '(' :: (i.spelling ++ ')' :: rest)) := by
      refine read_fieldName h ?_
      rintro c ⟨⟩
      decide
    have hspelling : Segment.spelling ⟨name, some i⟩ ++ rest =
        name.toList ++ '(' :: (i.spelling ++ ')' :: rest) := by
      simp [Segment.spelling]
    rw [hspelling, segment, read_bind, hname, Option.bind_some, read_bind, read_optional,
      read_index]
    rfl

theorem spellSegments_cons (s : Segment) (more : List Segment) :
    Path.spellSegments (s :: more) = s.spelling ++ more.flatMap fun t => '.' :: t.spelling := by
  induction more generalizing s with
  | nil => simp [Path.spellSegments]
  | cons t more ih => rw [Path.spellSegments, ih, List.flatMap_cons, List.cons_append]; simp

theorem endsSegment_of_endsPath (more : List Segment) {rest : List Char} (stop : EndsPath rest) :
    EndsSegment (more.flatMap (fun t => '.' :: t.spelling) ++ rest) := by
  cases more with
  | nil => exact stop.1
  | cons t more =>
      rintro c ⟨⟩
      decide

theorem read_moreSegments {more : List Segment} (h : ∀ s ∈ more, IsFieldName s.name)
    {rest : List Char} (stop : EndsPath rest) :
    Matcher.read (many (do let _ ← char '.'; segment))
      (more.flatMap (fun t => '.' :: t.spelling) ++ rest) = some (more, rest) := by
  have hmarks : ∀ s, EndsSegment ('.' :: s) := by
    rintro s c ⟨⟩
    decide
  have hround : ∀ s ∈ more, ∀ rest, EndsSegment rest →
      (do let _ ← char '.'; segment : Matcher Segment).read ('.' :: (s.spelling ++ rest)) =
        some (s, rest) := by
    intro s hs rest hrest
    exact read_char_bind_eq_some_iff.2 ⟨_, rfl, read_segment (h s hs) hrest⟩
  have hstop : (do let _ ← char '.'; segment : Matcher Segment).read rest = none :=
    read_char_bind_of_ne stop.2
  have hread := read_many_marked EndsSegment hmarks hround stop.1 hstop
  rwa [List.map_id'] at hread

theorem read_path {p : Path} (h : p.HasFieldNames) {rest : List Char} (stop : EndsPath rest) :
    path.read (p.spelling ++ rest) = some (p, rest) := by
  obtain ⟨_ | ⟨s, more⟩, hne⟩ := p
  · exact absurd rfl hne
  · have hfirst := read_segment (h s List.mem_cons_self) (endsSegment_of_endsPath more stop)
    have hmore := read_moreSegments (fun t ht => h t (List.mem_cons_of_mem _ ht)) stop
    rw [Path.spelling, spellSegments_cons, List.append_assoc, path, read_bind, hfirst,
      Option.bind_some]
    refine (read_bind (many (do let _ ← char '.'; segment)) _ _).trans ?_
    rw [hmore]
    rfl

/-- A path begins with a letter. -/
theorem exists_spelling_eq_cons {p : Path} (h : p.HasFieldNames) :
    ∃ c s, p.spelling = c :: s ∧ c.isAlpha = true := by
  obtain ⟨_ | ⟨s, more⟩, hne⟩ := p
  · exact absurd rfl hne
  · have hname := h s List.mem_cons_self
    rw [Path.spelling, spellSegments_cons]
    obtain ⟨name, i⟩ := s
    unfold IsFieldName at hname
    cases hcs : name.toList with
    | nil =>
        rw [hcs] at hname
        exact hname.elim
    | cons c cs =>
        rw [hcs] at hname
        cases i with
        | none => exact ⟨c, _, by rw [Segment.spelling, hcs]; rfl, hname.1⟩
        | some i => exact ⟨c, _, by rw [Segment.spelling, hcs]; rfl, hname.1⟩

theorem shrinks_indexBody : indexBody.Shrinks :=
  .orElse (.bind shrinks_integer fun _ => .pure _)
    (.orElse (.bind shrinks_quotedString fun _ => .pure _) (.bind (.oneOf _) fun _ => .pure _))

theorem shrinks_index : index.Shrinks :=
  .bind (.oneOf _) fun _ => .bind shrinks_indexBody fun _ => .bind (.oneOf _) fun _ => .pure _

theorem shrinks_segment : segment.Shrinks :=
  .bind shrinks_fieldName fun _ => .bind (.optional shrinks_index) fun _ => .pure _

theorem shrinks_path : path.Shrinks :=
  .bind shrinks_segment fun _ =>
    .bind (.many (.bind (.oneOf _) fun _ => shrinks_segment)) fun _ => .pure _

theorem yields_fieldName : fieldName.Yields IsFieldName := by
  refine .bind (.oneOf _) fun c hc => .bind (.run0 _) fun cs hcs => .pure ?_
  rw [IsFieldName, String.toList_ofList]
  exact ⟨hc, hcs⟩

theorem yields_path : path.Yields Path.HasFieldNames := by
  have hsegment : segment.Yields fun x => IsFieldName x.name :=
    .bind yields_fieldName fun _ h => .bind_all fun _ => .pure h
  refine .bind hsegment fun first hfirst =>
    .bind (.many (.bind_all fun _ => hsegment)) fun more hmore => .pure ?_
  intro x hx
  rcases List.mem_cons.1 hx with rfl | hx
  · exact hfirst
  · exact hmore x hx

end Grammar

theorem Path.parse_eq_ok_iff {text : String} {p : Path} :
    Path.parse text = .ok p ↔ Grammar.path.read text.toList = some (p, []) := by
  rw [← Grammar.Matcher.parse_eq_ok_iff, Path.parse]
  cases Grammar.path.parse text.toList <;> simp

/-- The segments of a path that was read are named by field names. -/
theorem Path.hasFieldNames_of_parse {text : String} {p : Path} (h : Path.parse text = .ok p) :
    p.HasFieldNames :=
  Grammar.yields_path _ p _ (Path.parse_eq_ok_iff.1 h)

theorem Path.parse_text {p : Path} (h : p.HasFieldNames) : Path.parse p.text = .ok p := by
  have hread := Grammar.read_path h Grammar.endsPath_nil
  rw [List.append_nil] at hread
  rw [Path.parse_eq_ok_iff, Path.text, String.toList_ofList, hread]

end EventQuery
