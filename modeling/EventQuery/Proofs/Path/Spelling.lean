import EventQuery.Proofs.Grammar.Continuation
import EventQuery.Proofs.Schema.PublicPaths

/-!
# Path text is a code

Schemas, saved filters and configurations know paths by their texts only. Nothing gets lost that
way: a path of field names is read back from its text, whatever its keys and positions are, and to
join texts with a point is to join the paths they are read as, even where they are not spelled as
these paths would be.
-/

namespace EventQuery.Path

/-- Behind a text that is a path and a point the texts that are paths again make up a path, which is
the one below the other. -/
theorem parse_point {s t : String} {p r : Path} (h : Path.parse s = .ok p) :
    Path.parse (s ++ "." ++ t) = .ok r ↔ ∃ q, Path.parse t = .ok q ∧ p ++ q = r := by
  have htext : (s ++ "." ++ t).toList = s.toList ++ '.' :: t.toList := by simp
  simp only [parse_eq_ok_iff, htext]
  exact Grammar.read_path_point (parse_eq_ok_iff.1 h)

theorem text_qualify (p : Path) (entity : String) :
    (p.qualify entity).text = entity ++ "." ++ p.text := by
  apply String.toList_inj.1
  simp [text, spelling_qualify]

/-- A path of field names is read back from its text, so that different ones have different texts.
Two texts with a point between them are a path, if the first is one, exactly when the second is, and
then it is the one path below the other. An entity type in front is split off again, and is written
in front of the path's text. -/
theorem parse_text_and_parse_point :
    (∀ p : Path, p.HasFieldNames → Path.parse p.text = .ok p) ∧
      (∀ p q : Path, p.HasFieldNames → q.HasFieldNames → p ≠ q → p.text ≠ q.text) ∧
      (∀ (s t : String) (p : Path), Path.parse s = .ok p →
        ∀ r, Path.parse (s ++ "." ++ t) = .ok r ↔ ∃ q, Path.parse t = .ok q ∧ p ++ q = r) ∧
      ∀ (entity t : String) (q : Path), Grammar.IsFieldName entity → Path.parse t = .ok q →
        Path.parse (entity ++ "." ++ t) = .ok (q.qualify entity) ∧
          (q.qualify entity).splitEntity? = some (entity, q) ∧
          (q.qualify entity).text = entity ++ "." ++ q.text := by
  refine ⟨fun p => parse_text, ?_, fun s t p h r => parse_point h, ?_⟩
  · intro p q hp hq hne heq
    exact hne (text_inj hp hq heq)
  · intro entity t q hentity h
    have hname : Path.parse entity = .ok (single entity) :=
      parse_eq_ok_iff.2 (Grammar.read_path_fieldName hentity)
    have hjoined : Path.parse (entity ++ "." ++ t) = .ok (q.qualify entity) :=
      (parse_point hname).2 ⟨q, h, rfl⟩
    exact ⟨hjoined, splitEntity?_qualify q entity, text_qualify q entity⟩

/-- A key with every mark that a path is made of and the least position, behind a text that spells
its path in another way. -/
theorem parse_text_and_parse_point_marks :
    let p : Path := ⟨[⟨"a-1", some (.key "x.y(*)\"'\\")⟩], by simp⟩
    let q : Path := ⟨[⟨"b", some (.position (-9223372036854775808))⟩, ⟨"c", some .any⟩], by simp⟩
    let s := "a-1('x.y(*)\"\\'\\\\')"
    let t := "b(-009223372036854775808).c(*)"
    Path.parse p.text = .ok p ∧ p.text ≠ q.text ∧
      Path.parse (s ++ "." ++ t) = .ok (p ++ q) ∧
      (∀ r, Path.parse (s ++ "." ++ "b(-9223372036854775809)") ≠ .ok r) ∧
      Path.parse ("alert" ++ "." ++ t) = .ok (q.qualify "alert") ∧
      (q.qualify "alert").splitEntity? = some ("alert", q) ∧
      (q.qualify "alert").text = "alert" ++ "." ++ q.text := by
  intro p q s t
  have hs : Path.parse s = .ok p := eq_ok_of_any_eq (by decide +kernel)
  have ht : Path.parse t = .ok q := eq_ok_of_any_eq (by decide +kernel)
  have hrange : (Path.parse "b(-9223372036854775809)").toOption = none := by decide +kernel
  obtain ⟨hparse, hdistinct, hpoint, hentity⟩ := parse_text_and_parse_point
  refine ⟨hparse p (by decide), hdistinct p q (by decide) (by decide) (by decide),
    (hpoint s t p hs _).2 ⟨q, ht, rfl⟩, fun r hr => ?_, hentity "alert" t q (by decide) ht⟩
  obtain ⟨r', hr', -⟩ := (hpoint s _ p hs r).1 hr
  rw [hr'] at hrange
  cases hrange

end EventQuery.Path
