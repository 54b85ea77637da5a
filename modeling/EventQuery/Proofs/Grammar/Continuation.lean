import EventQuery.Proofs.Grammar.Chains
import EventQuery.Proofs.Grammar.ViableLexemes

/-!
# Texts that go on

A lexeme is as long as it can be, so a text may be read differently once more text stands behind it.
A matcher settles before certain texts when that does not happen: what it read it reads again from
the same characters, whichever of these texts follows them. As with contracts, there is a rule for
each way of composing matchers, and what is known of the text behind the first part of a sequence is
what the second part needs in front of it.

For a path, all that matters is that its last segment does not go on. Before a point it goes on as a
path, with the segments that are read there.
-/

namespace EventQuery.Grammar

namespace Matcher

variable {α β : Type} {F F' G E E' : List Char → Prop}

/-- What the matcher reads from a text it reads from the same characters before every text with `E`.
Together with such a text they have `F`. -/
def Settles (F E : List Char → Prop) (m : Matcher α) : Prop :=
  ∀ s a rest, m.read s = some (a, rest) →
    ∃ u, s = u ++ rest ∧ ∀ w, E w → F (u ++ w) ∧ m.read (u ++ w) = some (a, w)

/-- The text begins with a character of the class. -/
def Begins (P : Char → Prop) (s : List Char) : Prop := ∃ c ∈ s.head?, P c

theorem begins_cons {P : Char → Prop} {c : Char} (h : P c) (s : List Char) : Begins P (c :: s) :=
  ⟨c, rfl, h⟩

theorem Begins.forall_head {P : Char → Prop} {s : List Char} (h : Begins P s) :
    ∀ c ∈ s.head?, P c :=
  Text.forall_head_of_exists h

namespace Settles

section Composition

variable {m k : Matcher α} {f : α → Matcher β}

theorem mono (h : Settles F E m) (hF : ∀ s, F s → F' s) (hE : ∀ s, E' s → E s) :
    Settles F' E' m := by
  intro s a rest hread
  obtain ⟨u, hs, hu⟩ := h s a rest hread
  refine ⟨u, hs, fun w hw => ?_⟩
  obtain ⟨hbegin, hagain⟩ := hu w (hE w hw)
  exact ⟨hF _ hbegin, hagain⟩

theorem pure (a : α) : Settles E E (Pure.pure a : Matcher α) := by
  intro s b rest h
  cases h
  exact ⟨[], rfl, fun w hw => ⟨hw, rfl⟩⟩

theorem bind (hm : Settles F G m) (hf : ∀ a, Settles G E (f a)) : Settles F E (m >>= f) := by
  intro s b rest h
  rw [read_bind] at h
  obtain ⟨⟨a, middle⟩, ha, hb⟩ := Option.bind_eq_some_iff.1 h
  obtain ⟨u, rfl, hu⟩ := hm s a middle ha
  obtain ⟨v, rfl, hv⟩ := hf a middle b rest hb
  refine ⟨u ++ v, (List.append_assoc u v rest).symm, fun w hw => ?_⟩
  obtain ⟨hmiddle, hsecond⟩ := hv w hw
  obtain ⟨hbegin, hfirst⟩ := hu (v ++ w) hmiddle
  rw [List.append_assoc, read_bind, hfirst]
  exact ⟨hbegin, hsecond⟩

/-- The second alternative is read again because the first does not read what begins like it. -/
theorem orElse (hm : Settles F E m) (hk : Settles G E k) (apart : ∀ s, G s → m.read s = none) :
    Settles (fun s => F s ∨ G s) E (m <|> k) := by
  intro s a rest h
  rw [read_orElse, Option.or_eq_some_iff] at h
  rcases h with h | ⟨-, h⟩
  · obtain ⟨u, hs, hu⟩ := hm s a rest h
    refine ⟨u, hs, fun w hw => ?_⟩
    obtain ⟨hbegin, hread⟩ := hu w hw
    exact ⟨Or.inl hbegin, by rw [read_orElse, hread, Option.some_or]⟩
  · obtain ⟨u, hs, hu⟩ := hk s a rest h
    refine ⟨u, hs, fun w hw => ?_⟩
    obtain ⟨hbegin, hread⟩ := hu w hw
    exact ⟨Or.inr hbegin, by rw [read_orElse, apart _ hbegin, Option.none_or, hread]⟩

theorem optional (hm : Settles F E m) (stop : ∀ w, E w → F w ∧ m.read w = none) :
    Settles F E (optional m) := by
  intro s a? rest h
  cases a? with
  | none =>
      obtain ⟨-, rfl⟩ := read_optional_eq_some_none_iff.1 h
      refine ⟨[], rfl, fun w hw => ?_⟩
      obtain ⟨hbegin, hnone⟩ := stop w hw
      exact ⟨hbegin, read_optional_eq_some_none_iff.2 ⟨hnone, rfl⟩⟩
  | some a =>
      obtain ⟨u, hs, hu⟩ := hm s a rest (read_optional_eq_some_some_iff.1 h)
      refine ⟨u, hs, fun w hw => ?_⟩
      obtain ⟨hbegin, hread⟩ := hu w hw
      exact ⟨hbegin, read_optional_eq_some_some_iff.2 hread⟩

theorem checked (hm : Settles F E m) (check : α → Except SyntaxFault β) :
    Settles F E (checked m check) := by
  intro s b rest h
  obtain ⟨a, ha, hb⟩ := read_checked_eq_some_iff.1 h
  obtain ⟨u, hs, hu⟩ := hm s a rest ha
  refine ⟨u, hs, fun w hw => ?_⟩
  obtain ⟨hbegin, hread⟩ := hu w hw
  exact ⟨hbegin, read_checked_eq_some_iff.2 ⟨a, hread, hb⟩⟩

/-- A repetition does not stop where it stopped: it goes on with what it reads behind that place. -/
theorem many (hm : Settles E E m) (advances : m.Advances) {s rest : List Char} {as : List α}
    (h : Matcher.read (many m) s = some (as, rest)) :
    ∃ u, s = u ++ rest ∧ ∀ w, E w → E (u ++ w) ∧ ∀ bs left,
      Matcher.read (many m) w = some (bs, left) →
        Matcher.read (many m) (u ++ w) = some (as ++ bs, left) := by
  refine many_induct (motive := fun s as rest => ∃ u, s = u ++ rest ∧ ∀ w, E w → E (u ++ w) ∧
    ∀ bs left, Matcher.read (Matcher.many m) w = some (bs, left) →
      Matcher.read (Matcher.many m) (u ++ w) = some (as ++ bs, left)) ?_ ?_ ?_ h
  · intro s _
    exact ⟨[], rfl, fun w hw => ⟨hw, fun bs left hmore => hmore⟩⟩
  · intro s a middle as rest hread _ ih
    obtain ⟨v, rfl, hv⟩ := ih
    obtain ⟨u, rfl, hu⟩ := hm s a _ hread
    refine ⟨u ++ v, (List.append_assoc u v rest).symm, fun w hw => ?_⟩
    obtain ⟨hmiddle, hrounds⟩ := hv w hw
    obtain ⟨hbegin, hround⟩ := hu (v ++ w) hmiddle
    rw [List.append_assoc]
    refine ⟨hbegin, fun bs left hmore => ?_⟩
    rw [read_many_of_some hround (advances _ a _ hround), hrounds bs left hmore]
    rfl
  · intro s a rest hread stuck
    exact absurd (advances s a rest hread) stuck

end Composition

/-! ## Characters -/

theorem oneOf {p : Char → Bool} (h : ∀ c s, p c = true → F (c :: s)) :
    Settles F E (oneOf p) := by
  intro s c rest hread
  obtain ⟨rfl, hc⟩ := eq_cons_of_read_oneOf hread
  refine ⟨[c], rfl, fun w _ => ⟨h c w hc, ?_⟩⟩
  rw [List.singleton_append, read_oneOf_cons, if_pos hc]

theorem char {c : Char} (h : ∀ s, F (c :: s)) : Settles F E (char c) :=
  oneOf fun _ s hd => eq_of_beq hd ▸ h s

theorem char_begins (c : Char) : Settles (Begins (· = c)) E (Matcher.char c) :=
  char fun _ => ⟨c, rfl, rfl⟩

theorem run0 {p : Char → Bool} (stop : ∀ w, E w → ∀ c ∈ w.head?, p c = false) :
    Settles (fun _ => True) E (run0 p) := by
  intro s cs rest h
  cases h
  refine ⟨s.takeWhile p, List.takeWhile_append_dropWhile.symm, fun w hw => ⟨trivial, ?_⟩⟩
  exact read_run0_append (List.all_eq_true.1 List.all_takeWhile) (stop w hw)

theorem run1 {p : Char → Bool} (stop : ∀ w, E w → ∀ c ∈ w.head?, p c = false) :
    Settles (Begins (p · = true)) E (run1 p) :=
  .bind (.oneOf fun _ s hc => begins_cons hc s) fun _ => .bind (.run0 stop) fun _ => .pure _

end Settles

end Matcher

open Matcher

variable {E : List Char → Prop}

/-! ## Lexemes -/

theorem settles_fieldName :
    Settles (fun _ => True) (fun w => ∀ c ∈ w.head?, isNameChar c = false) fieldName :=
  .bind (.oneOf fun _ _ _ => trivial) fun _ => .bind (.run0 fun _ hw => hw) fun _ => .pure _

theorem settles_integer :
    Settles (Begins fun c => c = '-' ∨ c.isDigit = true)
      (fun w => ∀ c ∈ w.head?, c.isDigit = false) integer := by
  have hsign : Settles (Begins fun c => c = '-' ∨ c.isDigit = true)
      (Begins (Char.isDigit · = true)) (optional (char '-')) := by
    refine .optional (.char fun s => begins_cons (Or.inl rfl) s) fun w hw => ?_
    obtain ⟨c, hc, hdigit⟩ := id hw
    refine ⟨⟨c, hc, Or.inr hdigit⟩, read_char_of_ne fun d hd => ?_⟩
    rintro rfl
    exact absurd (hw.forall_head _ hd) (by decide)
  exact .checked (.bind hsign fun _ => .bind (.run1 fun _ hw => hw) fun _ => .pure _) _

theorem settles_quotedBy {q : Char} (hslash : q ≠ '\\') (hx : 'x' ≠ q) :
    Settles (Begins (· = q)) E (quotedBy q) := by
  have hbody : Settles (fun _ => True) E (quotedBody q : Matcher (List Char)) := by
    intro s body rest h
    obtain ⟨z, body', rest', rfl, hread⟩ | ⟨hnone, -⟩ := quotedBody_cases hslash hx s
    · have hbody := congrArg Outcome.result (hread rest')
      cases hbody.symm.trans h
      refine ⟨z ++ [q], List.append_cons z q rest, fun w _ => ⟨trivial, ?_⟩⟩
      rw [← List.append_cons]
      exact congrArg Outcome.result (hread w)
    · cases (congrArg Outcome.result hnone).symm.trans h
  exact .bind (.char_begins q) fun _ => .bind hbody fun _ => .pure _

theorem settles_quotedString :
    Settles (fun s => Begins (· = '"') s ∨ Begins (· = '\'') s) E quotedString := by
  refine .orElse (settles_quotedBy (by decide) (by decide))
    (settles_quotedBy (by decide) (by decide)) fun s hs => read_char_bind_of_ne fun c hc => ?_
  rw [hs.forall_head c hc]
  decide

/-! ## Paths -/

theorem settles_indexBody :
    Settles (fun _ => True) (fun w => ∀ c ∈ w.head?, c.isDigit = false) indexBody := by
  -- integers, strings and the star begin differently
  have hstar : ∀ s, Begins (· = '*') s → quotedString.read s = none := fun s hs =>
    read_quotedString_eq_none fun c hc => by rw [hs.forall_head c hc]; decide
  have hunsigned : ∀ s, ((Begins (· = '"') s ∨ Begins (· = '\'') s) ∨ Begins (· = '*') s) →
      integer.read s = none := by
    intro s hs
    refine read_integer_eq_none fun c hc => ?_
    rcases hs with (hs | hs) | hs <;> (rw [hs.forall_head c hc]; decide)
  refine .mono (.orElse (.bind settles_integer fun _ => .pure _)
    (.orElse (.bind settles_quotedString fun _ => .pure _)
      (.bind (.char_begins '*') fun _ => .pure _) ?_) ?_) (fun _ _ => trivial) fun _ hw => hw
  · intro s hs
    rw [read_bind, hstar s hs, Option.bind_none]
  · intro s hs
    rw [read_bind, hunsigned s hs, Option.bind_none]

theorem settles_index : Settles (Begins (· = '(')) E index := by
  refine .bind (.char_begins '(') fun _ => .bind settles_indexBody fun _ =>
    .bind (.char fun s => ?_) fun _ => .pure _
  rintro c ⟨⟩
  decide

theorem settles_segment : Settles (fun _ => True) EndsSegment segment := by
  have hindex : Settles (fun w => ∀ c ∈ w.head?, isNameChar c = false) EndsSegment
      (optional index) := by
    refine .optional (settles_index.mono (fun s hs c hc => ?_) fun _ hw => hw) fun w hw => ?_
    · rw [hs.forall_head c hc]
      decide
    · exact ⟨fun c hc => (hw c hc).1, read_char_bind_of_ne fun c hc => (hw c hc).2⟩
  exact .bind settles_fieldName fun _ => .bind hindex fun _ => .pure _

/-- Behind a path stands what reads as further segments of it. -/
theorem read_path_append {s rest : List Char} {p : Path} (h : path.read s = some (p, rest)) :
    ∃ u, s = u ++ rest ∧ ∀ w, EndsSegment w → ∀ xs left, moreSegments.read w = some (xs, left) →
      path.read (u ++ w) = some (⟨p.segments ++ xs, by simp [p.segments_ne_nil]⟩, left) := by
  have hdotted : Settles EndsSegment EndsSegment (do let _ ← char '.'; segment) := by
    refine .bind (.char fun s => ?_) fun _ => settles_segment
    rintro c ⟨⟩
    decide
  have advances : Advances (do let _ ← char '.'; segment) :=
    .bind (.oneOf _) fun _ => shrinks_segment
  obtain ⟨x, xs, t, hfirst, hmore, hsegments⟩ := read_path_eq_some_iff.1 h
  obtain ⟨v, rfl, hv⟩ := hdotted.many advances hmore
  obtain ⟨u, rfl, hu⟩ := settles_segment s x _ hfirst
  refine ⟨u ++ v, (List.append_assoc u v rest).symm, fun w hw ys left hys => ?_⟩
  obtain ⟨hmiddle, hrounds⟩ := hv w hw
  rw [List.append_assoc]
  refine read_path_eq_some_iff.2 ⟨x, xs ++ ys, v ++ w, (hu _ hmiddle).2, hrounds ys left hys, ?_⟩
  rw [← List.cons_append, hsegments]

/-- A path is read from its text before every text that does not go on with a path. -/
theorem read_path_before {s : List Char} {p : Path} (h : path.read s = some (p, []))
    {w : List Char} (stop : EndsPath w) : path.read (s ++ w) = some (p, w) := by
  obtain ⟨u, hs, hu⟩ := read_path_append h
  obtain rfl : u = s := by rw [hs, List.append_nil]
  have hmore : moreSegments.read w = some ([], w) :=
    read_many_of_none (read_char_bind_of_ne stop.2)
  rw [hu w stop.1 [] w hmore]
  simp

/-- Behind a point the segments of a path are read, if there is one. -/
theorem read_moreSegments_point (t : List Char) :
    moreSegments.read ('.' :: t) =
      some (((path.read t).map fun q => (q.1.segments, q.2)).getD ([], '.' :: t)) := by
  have hround : (do let _ ← char '.'; segment : Matcher Segment).read ('.' :: t) =
      segment.read t := by
    rw [read_bind, read_char_self, Option.bind_some]
  cases hsegment : segment.read t with
  | none =>
      have hpath : path.read t = none := by
        rw [path, read_bind, hsegment, Option.bind_none]
      rw [moreSegments, read_many_of_none (hround.trans hsegment), hpath]
      rfl
  | some p =>
      obtain ⟨x, u⟩ := p
      have progress : u.length < ('.' :: t).length :=
        Nat.lt_succ_of_le (shrinks_segment t x u hsegment).length_le
      obtain ⟨xs, rest, hmore⟩ := exists_read_many (do let _ ← char '.'; segment) u
      have hpath : path.read t = some (⟨x :: xs, List.cons_ne_nil x xs⟩, rest) :=
        read_path_eq_some_iff.2 ⟨x, xs, u, hsegment, hmore, rfl⟩
      rw [moreSegments, read_many_of_some (hround.trans hsegment) progress, hmore, hpath]
      rfl

/-- Behind a path and a point stands a path if and only if the whole is one, and then it is the one
below the other. -/
theorem read_path_point {s t : List Char} {p r : Path} (h : path.read s = some (p, [])) :
    path.read (s ++ '.' :: t) = some (r, []) ↔ ∃ q, path.read t = some (q, []) ∧ p ++ q = r := by
  obtain ⟨u, hs, hu⟩ := read_path_append h
  obtain rfl : u = s := by rw [hs, List.append_nil]
  have stop : EndsSegment ('.' :: t) := by
    rintro c ⟨⟩
    decide
  rw [hu _ stop _ _ (read_moreSegments_point t)]
  cases path.read t with
  | none => simp
  | some q =>
      obtain ⟨q, rest⟩ := q
      constructor
      · intro heq
        cases heq
        exact ⟨q, rfl, rfl⟩
      · rintro ⟨q', heq, rfl⟩
        cases heq
        rfl

end EventQuery.Grammar
