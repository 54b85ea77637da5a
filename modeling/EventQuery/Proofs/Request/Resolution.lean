import EventQuery.Proofs.Backend.Preparation
import EventQuery.Proofs.Grammar.Selection
import EventQuery.Proofs.Request.Memory
import EventQuery.Proofs.Schema.Places

/-!
# What selections resolve to

A selection is resolved if its text can be read and each path in it leads to a field, however deep
in calls it stands. Otherwise the answer is about the text, or about the first path that leads
nowhere. Indices do not matter to where a path leads, and a path of an entity type and a field is
written like no call, so that the canonical path of an answer is a selection that resolves to
itself.
-/

namespace EventQuery

namespace Selection.Expr

/-- The path stands in the expression, at any depth. -/
inductive Mentions : Expr → Path → Prop
  | path (p : Path) : Mentions (.path p) p
  | call {function : String} {args : List Expr} {e : Expr} {p : Path} (he : e ∈ args)
      (h : Mentions e p) : Mentions (.call function args) p

theorem mem_pathsOfAll_iff {es : List Expr} {p : Path} :
    p ∈ pathsOfAll es ↔ ∃ e ∈ es, p ∈ e.paths := by
  induction es with
  | nil => simp [pathsOfAll]
  | cons e es ih => simp [pathsOfAll, ih]

theorem mentions_of_mem_paths {e : Expr} {p : Path} (h : p ∈ e.paths) : e.Mentions p :=
  match e with
  | .path q => by
      rw [paths, List.mem_singleton] at h
      exact h ▸ .path q
  | .constant v => by cases h
  | .call f args => by
      rw [paths, mem_pathsOfAll_iff] at h
      obtain ⟨e, he, hp⟩ := h
      exact .call he (mentions_of_mem_paths hp)

theorem mem_paths_iff {e : Expr} {p : Path} : p ∈ e.paths ↔ e.Mentions p := by
  refine ⟨mentions_of_mem_paths, fun h => ?_⟩
  induction h with
  | path p => exact List.mem_singleton_self p
  | call he _ ih => exact mem_pathsOfAll_iff.2 ⟨_, he, ih⟩

theorem IsFormed.hasFieldNames {constants : Value → Prop} {e : Expr} (h : e.IsFormed constants)
    {p : Path} (hp : e.Mentions p) : p.HasFieldNames := by
  induction hp with
  | path p =>
      cases h with
      | path _ names => exact names
  | call he _ ih =>
      cases h with
      | call _ _ _ formed => exact ih (formed _ he)

/-- Only calls of functions whose result has no fixed type leave the type to their paths. -/
theorem returnType_eq_none_iff {e : Expr} :
    e.returnType = none ↔ (∃ p, e = .path p) ∨
      ∃ f args, e = .call f args ∧ f ≠ "avg" ∧ f ≠ "count" ∧ f ≠ "timezone" := by
  cases e with
  | path p => simp [returnType]
  | constant v => simp [returnType]
  | call f args =>
      simp only [returnType]
      split_ifs <;> simp_all

end Selection.Expr

theorem Path.splitEntity?_canonical (p : Path) :
    p.canonical.splitEntity? = p.splitEntity?.map fun (entity, below) =>
      (entity, below.canonical) := by
  obtain ⟨_ | ⟨x, _ | ⟨y, xs⟩⟩, hne⟩ := p
  · exact absurd rfl hne
  · rfl
  · rfl

/-- A path with an entity type and a field is not one segment. -/
theorem Path.hasNoLoneIndex_of_splitEntity? {p below : Path} {entity : String}
    (h : p.splitEntity? = some (entity, below)) : p.HasNoLoneIndex := by
  intro x hx
  obtain ⟨index, hsegments⟩ := eq_of_splitEntity? h
  rw [hsegments] at hx
  exact absurd (List.cons.inj hx).2 below.segments_ne_nil

namespace Registry

variable {r : Registry} {p : Path} {f : Field}

/-- The full path leads to the field: its first segment names an entity type, and the schema has the
field at the path below. -/
def LeadsTo (r : Registry) (p : Path) (f : Field) : Prop :=
  ∃ entity below s, p.splitEntity? = some (entity, below) ∧ r.entities.get? entity = some s ∧
    s.field? below = some f

theorem leadsTo_canonical_iff : r.LeadsTo p.canonical f ↔ r.LeadsTo p f := by
  unfold LeadsTo
  simp only [Path.splitEntity?_canonical]
  constructor
  · rintro ⟨entity, below, s, hsplit, hs, hf⟩
    obtain ⟨⟨entity', below'⟩, hsplit', heq⟩ := Option.map_eq_some_iff.1 hsplit
    cases heq
    rw [s.field?_congr below'.canonical_canonical] at hf
    exact ⟨entity', below', s, hsplit', hs, hf⟩
  · rintro ⟨entity, below, s, hsplit, hs, hf⟩
    rw [← s.field?_congr below.canonical_canonical] at hf
    exact ⟨entity, below.canonical, s, by rw [hsplit]; rfl, hs, hf⟩

theorem typeOf_eq_ok_iff {t : ValueType} :
    r.typeOf p = .ok t ↔ ∃ f, r.LeadsTo p f ∧ f.type = t := by
  unfold typeOf
  cases hsplit : p.splitEntity? with
  | none => simp [LeadsTo, hsplit]
  | some parts =>
      obtain ⟨entity, below⟩ := parts
      have hleads : ∀ f, r.LeadsTo p f ↔ r.resolve entity below = .ok f := by
        intro f
        rw [resolve_eq_ok_iff]
        simp [LeadsTo, hsplit, schema_eq_ok_iff]
      simp only [hleads]
      cases r.resolve entity below <;> simp

/-- Whatever is missing, the error is about the full path. -/
theorem typeOf_eq_error_iff {e : QueryError} :
    r.typeOf p = .error e ↔ (¬∃ f, r.LeadsTo p f) ∧ e = .unknownPath p.text := by
  cases h : r.typeOf p with
  | ok t =>
      obtain ⟨f, hf, -⟩ := typeOf_eq_ok_iff.1 h
      exact ⟨nofun, fun hnone => absurd ⟨f, hf⟩ hnone.1⟩
  | error e' =>
      have hnone : ¬∃ f, r.LeadsTo p f := by
        rintro ⟨f, hf⟩
        cases h.symm.trans (typeOf_eq_ok_iff.2 ⟨f, hf, rfl⟩)
      have he' : e' = .unknownPath p.text := by
        unfold typeOf at h
        split at h
        · cases h
          rfl
        · split at h <;> cases h
          rfl
      rw [he']
      exact ⟨fun h => ⟨hnone, (Except.error.inj h).symm⟩, fun h => congrArg _ h.2.symm⟩

/-! ## Selections -/

/-- The type is the one the selection fixes, or else that of its first path. -/
theorem resolveSelection_eq_ok_iff {s : Selection} {x : ResolvedSelection} :
    r.resolveSelection s = .ok x ↔
      ∃ types, List.Forall₂ (fun p t => r.typeOf p = .ok t) s.paths types ∧
        x = ⟨s, s.declaredType.or types.head?, s.paths.head?.map Path.canonical⟩ := by
  rw [resolveSelection, bind_eq_ok_iff]
  constructor
  · rintro ⟨types, htypes, h⟩
    cases h
    exact ⟨types, mapM_eq_ok_iff.1 htypes, rfl⟩
  · rintro ⟨types, htypes, rfl⟩
    exact ⟨types, mapM_eq_ok_iff.2 htypes, rfl⟩

theorem exists_resolveSelection_ok_iff {s : Selection} :
    (∃ x, r.resolveSelection s = .ok x) ↔ ∀ p, s.expr.Mentions p → ∃ f, r.LeadsTo p f := by
  have hpaths : (∃ types, s.paths.mapM r.typeOf = .ok types) ↔
      ∀ p, s.expr.Mentions p → ∃ f, r.LeadsTo p f := by
    rw [exists_mapM_eq_ok_iff]
    simp only [Selection.paths, Selection.Expr.mem_paths_iff, typeOf_eq_ok_iff]
    exact forall₂_congr fun p _ => ⟨fun ⟨_, f, hf, _⟩ => ⟨f, hf⟩, fun ⟨f, hf⟩ => ⟨_, f, hf, rfl⟩⟩
  rw [← hpaths]
  simp only [resolveSelection_eq_ok_iff, mapM_eq_ok_iff]
  exact ⟨fun ⟨_, types, h, _⟩ => ⟨types, h⟩, fun ⟨types, h⟩ => ⟨_, types, h, rfl⟩⟩

theorem resolveSelection_eq_error_iff {s : Selection} {e : QueryError} :
    r.resolveSelection s = .error e ↔ ∃ before p after, s.paths = before ++ p :: after ∧
      (∀ q ∈ before, ∃ f, r.LeadsTo q f) ∧ (¬∃ f, r.LeadsTo p f) ∧ e = .unknownPath p.text := by
  have hknown : ∀ p, (∃ t, r.typeOf p = .ok t) ↔ ∃ f, r.LeadsTo p f := by
    intro p
    simp only [typeOf_eq_ok_iff]
    exact ⟨fun ⟨_, f, hf, _⟩ => ⟨f, hf⟩, fun ⟨f, hf⟩ => ⟨_, f, hf, rfl⟩⟩
  rw [resolveSelection, bind_eq_error_iff, mapM_eq_error_iff]
  simp only [hknown, typeOf_eq_error_iff]
  exact or_iff_left fun ⟨_, _, h⟩ => nomatch h

theorem readSelection_eq_ok_iff {text : String} {x : ResolvedSelection} :
    r.readSelection text = .ok x ↔
      ∃ s, Selection.parse text = .ok s ∧ r.resolveSelection s = .ok x := by
  simp only [readSelection, bind_eq_ok_iff, mapError_eq_ok_iff]

theorem readSelection_eq_error_iff {text : String} {e : QueryError} :
    r.readSelection text = .error e ↔
      (∃ d, Selection.parse text = .error d ∧ e = .malformedText d) ∨
        ∃ s, Selection.parse text = .ok s ∧ r.resolveSelection s = .error e := by
  simp only [readSelection, bind_eq_error_iff, mapError_eq_ok_iff, mapError_eq_error_iff,
    eq_comm (b := e)]

/-- A canonical path of field names resolves to itself and the type of its field. -/
theorem readSelection_text {p : Path} (canonical : p.canonical = p) (names : p.HasFieldNames)
    {f : Field} (hf : r.LeadsTo p f) :
    r.readSelection p.text = .ok ⟨⟨.path p, none, []⟩, some f.type, some p⟩ := by
  obtain ⟨entity, below, s, hsplit, hs, hbelow⟩ := hf
  have hformed : (⟨.path p, none, []⟩ : Selection).IsFormed Value.IsExact :=
    ⟨.path p names (Path.hasNoLoneIndex_of_splitEntity? hsplit), nofun, nofun⟩
  have hspelling : (⟨.path p, none, []⟩ : Selection).spelling = p.spelling := by
    simp [Selection.spelling, Selection.Expr.spelling]
  have hparse : Selection.parse p.text = .ok ⟨.path p, none, []⟩ := by
    rw [Selection.parse, Path.text, String.toList_ofList]
    exact Grammar.Matcher.parse_eq_ok_iff.2 (hspelling ▸ Grammar.read_selection hformed)
  have htype : r.typeOf p = .ok f.type :=
    typeOf_eq_ok_iff.2 ⟨f, ⟨entity, below, s, hsplit, hs, hbelow⟩, rfl⟩
  refine readSelection_eq_ok_iff.2 ⟨_, hparse, resolveSelection_eq_ok_iff.2 ⟨[f.type], ?_, ?_⟩⟩
  · exact .cons htype .nil
  · simp [Selection.paths, Selection.Expr.paths, Selection.declaredType,
      Selection.Expr.returnType, canonical]

/-- The path of an answer is the first of the selection, without indices. It resolves to itself. -/
theorem readSelection_canonical {text : String} {x : ResolvedSelection}
    (h : r.readSelection text = .ok x) {p : Path} (hp : x.canonical = some p) :
    ∃ f, r.LeadsTo p f ∧
      r.readSelection p.text = .ok ⟨⟨.path p, none, []⟩, some f.type, some p⟩ := by
  obtain ⟨s, hparse, hresolve⟩ := readSelection_eq_ok_iff.1 h
  obtain ⟨types, -, rfl⟩ := resolveSelection_eq_ok_iff.1 hresolve
  obtain ⟨first, hfirst, rfl⟩ := Option.map_eq_some_iff.1 hp
  have hmentions : s.expr.Mentions first :=
    Selection.Expr.mentions_of_mem_paths (List.mem_of_mem_head? hfirst)
  have hformed : s.IsFormed Value.IsLiteral :=
    Grammar.yields_selection _ s _ (Grammar.Matcher.parse_eq_ok_iff.1 hparse)
  have names := Path.hasFieldNames_canonical.2 (hformed.expr.hasFieldNames hmentions)
  obtain ⟨f, hf⟩ := exists_resolveSelection_ok_iff.1 ⟨_, hresolve⟩ first hmentions
  have hleads := leadsTo_canonical_iff.2 hf
  exact ⟨f, hleads, readSelection_text first.canonical_canonical names hleads⟩

/-- The type is left open only by a call that fixes none and reads no path, if nothing is extracted
from its result. -/
theorem type_eq_none_iff {text : String} {x : ResolvedSelection}
    (h : r.readSelection text = .ok x) :
    x.type = none ↔ x.selection.extract = none ∧ x.selection.paths = [] ∧
      ∃ f args, x.selection.expr = .call f args ∧ f ≠ "avg" ∧ f ≠ "count" ∧ f ≠ "timezone" := by
  obtain ⟨s, -, hresolve⟩ := readSelection_eq_ok_iff.1 h
  obtain ⟨types, htypes, rfl⟩ := resolveSelection_eq_ok_iff.1 hresolve
  have hnil : types = [] ↔ s.paths = [] := by
    rw [← List.length_eq_zero_iff, ← htypes.length_eq, List.length_eq_zero_iff]
  have hdeclared : s.declaredType = none ↔ s.extract = none ∧ s.expr.returnType = none := by
    unfold Selection.declaredType
    cases s.extract <;> simp
  rw [Option.or_eq_none_iff, List.head?_eq_none_iff, hnil, hdeclared,
    Selection.Expr.returnType_eq_none_iff]
  constructor
  · rintro ⟨⟨hextract, ⟨p, hp⟩ | hcall⟩, hpaths⟩
    · rw [Selection.paths, hp] at hpaths
      cases hpaths
    · exact ⟨hextract, hpaths, hcall⟩
  · rintro ⟨hextract, hpaths, hcall⟩
    exact ⟨⟨hextract, Or.inr hcall⟩, hpaths⟩

end Registry

namespace Request

variable {r : Registry} {options : CompileOptions} {q : Request}

/-- Whatever was asked before, a selection is resolved exactly if it can be read and all its paths
lead to fields, and otherwise the error is about the text or the first path that does not. The
canonical path of an answer is the first path without indices, and it resolves to itself with the
type of its field. The type is left open only for a call that fixes none, of which nothing is
extracted and which reads no path. -/
theorem resolve_complete_and_stable (h : Reachable r options q) (text : String) :
    ((∃ x, (q.resolve text).1 = .ok x) ↔ ∃ s, Selection.parse text = .ok s ∧
        ∀ p, s.expr.Mentions p → ∃ f, r.LeadsTo p f) ∧
      (∀ e, (q.resolve text).1 = .error e ↔
        (∃ d, Selection.parse text = .error d ∧ e = .malformedText d) ∨
          ∃ s before p after, Selection.parse text = .ok s ∧ s.paths = before ++ p :: after ∧
            (∀ p' ∈ before, ∃ f, r.LeadsTo p' f) ∧ (¬∃ f, r.LeadsTo p f) ∧
            e = .unknownPath p.text) ∧
      ∀ x, (q.resolve text).1 = .ok x →
        Selection.parse text = .ok x.selection ∧
        x.canonical = x.selection.paths.head?.map Path.canonical ∧
        (∀ p, x.canonical = some p → ∃ f, r.LeadsTo p f ∧ ∀ q', Reachable r options q' →
          (q'.resolve p.text).1 = .ok ⟨⟨.path p, none, []⟩, some f.type, some p⟩) ∧
        (x.type = none ↔ x.selection.extract = none ∧ x.selection.paths = [] ∧
          ∃ f args, x.selection.expr = .call f args ∧
            f ≠ "avg" ∧ f ≠ "count" ∧ f ≠ "timezone") := by
  have hanswer : ∀ q', Reachable r options q' → ∀ text,
      (q'.resolve text).1 = r.readSelection text :=
    fun q' hq' text => (hq'.remembers.resolve text).1
  rw [hanswer q h]
  refine ⟨?_, fun e => ?_, fun x hx => ⟨?_, ?_, fun p hp => ?_, Registry.type_eq_none_iff hx⟩⟩
  · simp only [Registry.readSelection_eq_ok_iff, ← Registry.exists_resolveSelection_ok_iff]
    exact ⟨fun ⟨x, s, hs, hx⟩ => ⟨s, hs, x, hx⟩, fun ⟨s, hs, x, hx⟩ => ⟨x, s, hs, hx⟩⟩
  · simp only [Registry.readSelection_eq_error_iff, Registry.resolveSelection_eq_error_iff,
      exists_and_left]
  · obtain ⟨s, hs, hresolve⟩ := Registry.readSelection_eq_ok_iff.1 hx
    obtain ⟨types, -, rfl⟩ := Registry.resolveSelection_eq_ok_iff.1 hresolve
    exact hs
  · obtain ⟨s, hs, hresolve⟩ := Registry.readSelection_eq_ok_iff.1 hx
    obtain ⟨types, -, rfl⟩ := Registry.resolveSelection_eq_ok_iff.1 hresolve
    rfl
  · obtain ⟨f, hf, hagain⟩ := Registry.readSelection_canonical hx hp
    exact ⟨f, hf, fun q' hq' => (hanswer q' hq' p.text).trans hagain⟩

/-- Calls in calls: the path of an element, which is resolved without its index, then an unknown
path behind a known one, then no path at all. -/
theorem resolve_complete_and_stable_nested :
    let s := ((EntitySchema.empty "event").declareField ((Path.single "source").child "port")
      (.ofType .integer)).declareList (.single "source") .first
    let r : Registry := ⟨(∅ : Table String EntitySchema).insert "event" s⟩
    let port := ((Path.single "event").child "source").child "port"
    let unknown : Path := ⟨[.plain "event", ⟨"source", some (.position 1)⟩, .plain "host"], by simp⟩
    let q := ((start r ⟨false⟩).resolve "now()").2
    Reachable r ⟨false⟩ q ∧
      (∃ x, (q.resolve "max(1, min(event.source(0).port))").1 = .ok x ∧ x.canonical = some port ∧
        (q.resolve port.text).1 = .ok ⟨⟨.path port, none, []⟩, some .integer, some port⟩) ∧
      (q.resolve "max(event.source.port, min(event.source(1).host))").1 =
        .error (.unknownPath unknown.text) ∧
      ∃ x, (q.resolve "now()").1 = .ok x ∧ x.type = none := by
  intro s r port unknown q
  have hq : Reachable r ⟨false⟩ q := .resolve (.start) "now()"
  have hport : (q.resolve "max(1, min(event.source(0).port))").1.toOption.any (fun x =>
      decide (x.canonical = some port)) = true := by
    decide +kernel
  have hunknown : (match (q.resolve "max(event.source.port, min(event.source(1).host))").1 with
      | .error e => decide (e = .unknownPath unknown.text)
      | .ok _ => false) = true := by
    decide +kernel
  have hopen : (q.resolve "now()").1.toOption.any (fun x => decide (x.type = none)) = true := by
    decide +kernel
  have htype : r.typeOf port = .ok .integer := by decide +kernel
  obtain ⟨x, hx, hcanonical⟩ := exists_ok_of_any hport
  replace hcanonical := of_decide_eq_true hcanonical
  obtain ⟨-, -, hagain, -⟩ :=
    (resolve_complete_and_stable hq "max(1, min(event.source(0).port))").2.2 x hx
  obtain ⟨f, hf, hagain⟩ := hagain port hcanonical
  have hf' : f.type = .integer :=
    Except.ok.inj ((Registry.typeOf_eq_ok_iff.2 ⟨f, hf, rfl⟩).symm.trans htype)
  rw [hf'] at hagain
  refine ⟨hq, ⟨x, hx, hcanonical, hagain q hq⟩, ?_, ?_⟩
  · split at hunknown
    · rename_i e he
      exact he.trans (congrArg _ (of_decide_eq_true hunknown))
    · cases hunknown
  · obtain ⟨y, hy, hnone⟩ := exists_ok_of_any hopen
    exact ⟨y, hy, of_decide_eq_true hnone⟩

end Request

end EventQuery
