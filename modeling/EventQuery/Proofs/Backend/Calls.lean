import EventQuery.Proofs.Backend.Lowering

/-!
# The calls that lowering makes

Lowering runs in any monad, and a backend can be made to keep a record of its calls and answers. On
such a backend lowering gives the result it gives anyway, and the record shows how: leaves are
compiled from left to right, each once; joins have at least two operands; and nothing is called
after the first error, which is the result.
-/

namespace EventQuery

/-- A call of a backend, with its answer. -/
inductive Call (ε : Type) where
  | leaf (l : Leaf) (x : LeafContext) (answer : Except QueryError ε)
  | join (c : Connective) (operands : List ε) (answer : Except QueryError ε)

namespace Call

def answer : Call ε → Except QueryError ε
  | leaf _ _ answer => answer
  | join _ _ answer => answer

/-- The leaf that is compiled. -/
def leaf? : Call ε → Option Leaf
  | leaf l _ _ => some l
  | join _ _ _ => none

/-- The call is one that `b` gets for the schema `s`, and its answer is that of `b`. -/
def IsGenuine (s : EntitySchema) (b : Backend ε) : Call ε → Prop
  | leaf l x answer =>
    s.resolve l.path = .ok x.field ∧ x.entity = s.name ∧ x.openLists = s.openLists l.path ∧
      answer = b.compileLeaf l x
  | join c operands answer => 2 ≤ operands.length ∧ answer = b.combine c operands

end Call

/-- Computations that record calls, also where they fail. -/
abbrev Recording (ε : Type) := ExceptT QueryError (StateM (List (Call ε)))

def Recording.call (k : Call ε) : Recording ε ε :=
  ExceptT.mk fun calls => (k.answer, calls ++ [k])

/-- The backend with a record of its calls. -/
def Backend.recording (b : Backend ε) : BackendM (Recording ε) ε where
  name := b.name
  compileLeaf l x := .call (.leaf l x (b.compileLeaf l x))
  combine c es := .call (.join c es (b.combine c es))

/-- The result of compiling a criterion with a recording backend, and the calls made. -/
def EntitySchema.recordedCompile (s : EntitySchema) (b : Backend ε) (c : Criterion) :
    Except QueryError (Option ε) × List (Call ε) :=
  (do s.lower b.recording (← s.prepare c) : Recording ε (Option ε)).run.run []

/-- Calls that compile the leaves `ls` in their order, up to the first error, which is then the
result. -/
structure CallsFor (s : EntitySchema) (b : Backend ε) (ls : List Leaf)
    (result : Except QueryError α) (calls : List (Call ε)) : Prop where
  genuine : ∀ k ∈ calls, k.IsGenuine s b
  ok : ∀ a, result = .ok a →
    calls.filterMap Call.leaf? = ls ∧ ∀ k ∈ calls, ∃ e, k.answer = .ok e
  error : ∀ e, result = .error e →
    calls.filterMap Call.leaf? <+: ls ∧ ∃ before last, calls = before ++ [last] ∧
      last.answer = .error e ∧ ∀ k ∈ before, ∃ e, k.answer = .ok e

namespace CallsFor

variable {s : EntitySchema} {b : Backend ε} {ls ms : List Leaf} {calls more : List (Call ε)}
variable {α β : Type}

theorem nil (a : α) : CallsFor s b [] (.ok a) ([] : List (Call ε)) where
  genuine := by simp
  ok := by simp
  error _ h := nomatch h

/-- Calls of a further computation follow those of one that succeeded. -/
theorem append {a : α} {result : Except QueryError β} (h : CallsFor s b ls (.ok a) calls)
    (h' : CallsFor s b ms result more) : CallsFor s b (ls ++ ms) result (calls ++ more) := by
  obtain ⟨hls, hok⟩ := h.ok a rfl
  refine ⟨?_, ?_, ?_⟩
  · intro k hk
    rcases List.mem_append.1 hk with hk | hk
    · exact h.genuine k hk
    · exact h'.genuine k hk
  · intro c hc
    obtain ⟨hms, hok'⟩ := h'.ok c hc
    refine ⟨by rw [List.filterMap_append, hls, hms], fun k hk => ?_⟩
    rcases List.mem_append.1 hk with hk | hk
    · exact hok k hk
    · exact hok' k hk
  · intro e he
    obtain ⟨hms, before, last, rfl, hlast, hbefore⟩ := h'.error e he
    refine ⟨?_, calls ++ before, last, (List.append_assoc ..).symm, hlast, fun k hk => ?_⟩
    · rw [List.filterMap_append, hls]
      exact (List.prefix_append_right_inj ls).2 hms
    · rcases List.mem_append.1 hk with hk | hk
      · exact hok k hk
      · exact hbefore k hk

/-- After an error the leaves that remain are not compiled. -/
theorem stop {e : QueryError} (h : CallsFor s b ls (.error e : Except QueryError α) calls)
    (ms : List Leaf) : CallsFor s b (ls ++ ms) (.error e : Except QueryError β) calls where
  genuine := h.genuine
  ok _ h := nomatch h
  error e' he := by
    cases he
    obtain ⟨hls, rest⟩ := h.error e rfl
    exact ⟨hls.trans (List.prefix_append ls ms), rest⟩

/-- One call, which is for the leaf it compiles, if any. -/
theorem single {k : Call ε} (h : k.IsGenuine s b) :
    CallsFor s b k.leaf?.toList k.answer [k] where
  genuine := by simpa using h
  ok e he := by
    refine ⟨?_, by simp [he]⟩
    cases k <;> rfl
  error e he := by
    refine ⟨?_, [], k, rfl, he, by simp⟩
    cases k <;> simp [Call.leaf?]

/-- The calls that compile leaves are for the leaves to be compiled. -/
theorem mem_of_leaf {result : Except QueryError α} (h : CallsFor s b ls result calls) {l : Leaf}
    {x : LeafContext} {answer : Except QueryError ε} (hl : .leaf l x answer ∈ calls) : l ∈ ls := by
  have hcompiled : l ∈ calls.filterMap Call.leaf? := List.mem_filterMap.2 ⟨_, hl, rfl⟩
  cases result with
  | ok a => exact (h.ok a rfl).1 ▸ hcompiled
  | error e => exact (h.error e rfl).1.subset hcompiled

end CallsFor

/-- The computation gives the result and records calls for the leaves. -/
def Traces (s : EntitySchema) (b : Backend ε) (ls : List Leaf) (x : Recording ε α)
    (result : Except QueryError α) : Prop :=
  ∃ calls, (∀ before, x.run.run before = (result, before ++ calls)) ∧ CallsFor s b ls result calls

namespace Traces

variable {s : EntitySchema} {b : Backend ε} {ls ms : List Leaf} {α β : Type}

theorem pure (a : α) : Traces s b [] (Pure.pure a : Recording ε α) (.ok a) :=
  ⟨[], fun before => by rw [List.append_nil]; rfl, .nil a⟩

theorem bind {x : Recording ε α} {result : Except QueryError α} {f : α → Recording ε β}
    {g : α → Except QueryError β} (h : Traces s b ls x result)
    (h' : ∀ a, result = .ok a → Traces s b ms (f a) (g a)) :
    Traces s b (ls ++ ms) (x >>= f) (result >>= g) := by
  obtain ⟨calls, hrun, hcalls⟩ := h
  cases result with
  | error e =>
      refine ⟨calls, fun before => ?_, hcalls.stop ms⟩
      rw [ExceptT.run_bind, StateT.run_bind, hrun]
      rfl
  | ok a =>
      obtain ⟨more, hrun', hmore⟩ := h' a rfl
      refine ⟨calls ++ more, fun before => ?_, hcalls.append hmore⟩
      rw [ExceptT.run_bind, StateT.run_bind, hrun, ← List.append_assoc]
      exact hrun' (before ++ calls)

theorem call {k : Call ε} (h : k.IsGenuine s b) :
    Traces s b k.leaf?.toList (Recording.call k) k.answer :=
  ⟨[k], fun _ => rfl, .single h⟩

/-- A last step without calls for leaves. -/
theorem bind_last {x : Recording ε α} {result : Except QueryError α} {f : α → Recording ε β}
    {g : α → Except QueryError β} (h : Traces s b ls x result)
    (h' : ∀ a, Traces s b [] (f a) (g a)) : Traces s b ls (x >>= f) (result >>= g) := by
  rw [← List.append_nil ls]
  exact h.bind fun a _ => h' a

theorem map {x : Recording ε α} {result : Except QueryError α} (h : Traces s b ls x result)
    (f : α → β) : Traces s b ls (f <$> x) (f <$> result) := by
  rw [map_eq_pure_bind, map_eq_pure_bind]
  exact h.bind_last fun a => pure (f a)

end Traces

namespace EntitySchema

variable {s : EntitySchema} {b : Backend ε}

theorem traces_lowerLeaf {l : Leaf} {f : Field} (hf : s.resolve l.path = .ok f) :
    Traces s b [l] (s.lowerLeaf b.recording l) (s.lowerLeaf b l) := by
  let x : LeafContext := { entity := s.name, field := f, openLists := s.openLists l.path }
  have genuine : (Call.leaf l x (b.compileLeaf l x)).IsGenuine s b := ⟨hf, rfl, rfl, rfl⟩
  have hrecord : s.lowerLeaf b.recording l = Recording.call (.leaf l x (b.compileLeaf l x)) := by
    rw [lowerLeaf, hf]
    rfl
  have hresult : s.lowerLeaf b l = b.compileLeaf l x := by
    rw [lowerLeaf, hf]
    rfl
  rw [hrecord, hresult]
  exact .call genuine

theorem traces_lowerJoin (c : Connective) (es : List ε) :
    Traces s b [] (lowerJoin b.recording c es) (lowerJoin b c es) := by
  match es with
  | [] => exact .pure none
  | [e] => exact .pure (some e)
  | x :: y :: zs =>
      have genuine : (Call.join c (x :: y :: zs) (b.combine c (x :: y :: zs))).IsGenuine s b :=
        ⟨by simp, rfl⟩
      exact (Traces.call genuine).map some

/-- Lowering a criterion calls the backend for its leaves. -/
theorem traces_lower {r : Criterion} (known : ∀ l ∈ r.leaves, ∃ f, s.resolve l.path = .ok f) :
    Traces s b r.leaves (s.lower b.recording r) (s.lower b r) := by
  induction r with
  | empty => exact .pure none
  | leaf l =>
      obtain ⟨f, hf⟩ := known l (List.mem_singleton_self l)
      exact (traces_lowerLeaf hf).map some
  | join c cs ih =>
      rw [Criterion.leaves_join] at known ⊢
      have hall : Traces s b (cs.flatMap Criterion.leaves) (s.lowerAll b.recording cs)
          (s.lowerAll b cs) := by
        induction cs with
        | nil => exact .pure []
        | cons a as ihas =>
            have ha := ih a List.mem_cons_self fun l hl =>
              known l (List.mem_flatMap_of_mem List.mem_cons_self hl)
            have has := ihas (fun x hx => ih x (List.mem_cons_of_mem a hx)) fun l hl =>
              known l (List.mem_append_right _ hl)
            rw [List.flatMap_cons]
            exact ha.bind fun e _ => has.bind_last fun es => .pure (e.toList ++ es)
      exact hall.bind_last fun es => traces_lowerJoin c es

/-- Compiling with a record gives the same result; a criterion that is refused in preparation makes
no calls, and any other makes those for its prepared leaves. -/
theorem recordedCompile_spec (s : EntitySchema) (b : Backend ε) (c : Criterion) :
    (s.recordedCompile b c).1 = s.compile b c ∧
      (∀ e, s.prepare c = .error e → (s.recordedCompile b c).2 = []) ∧
      ∀ r, s.prepare c = .ok r →
        CallsFor s b r.leaves (s.compile b c) (s.recordedCompile b c).2 := by
  cases h : s.prepare c with
  | error e =>
      have hrun : s.recordedCompile b c = (.error e, []) := by
        rw [recordedCompile, h]
        rfl
      have hcompile : s.compile b c = .error e := by
        rw [compile, h]
        rfl
      rw [hrun, hcompile]
      exact ⟨rfl, fun _ _ => rfl, fun _ h => (nomatch h)⟩
  | ok r =>
      obtain ⟨calls, hrun, hcalls⟩ := traces_lower (b := b) (s.resolve_of_prepare_ok h)
      have hrun : s.recordedCompile b c = (s.lower b r, calls) := by
        rw [recordedCompile, h]
        exact hrun []
      have hcompile : s.compile b c = s.lower b r := by
        rw [compile, h]
        rfl
      rw [hrun, hcompile]
      refine ⟨rfl, fun _ h => (nomatch h), fun r' h => ?_⟩
      cases h
      exact hcalls

/-! ## Compilation keeps the structure of criteria -/

/-- A compiled criterion is no restriction exactly where its normal form is empty, and otherwise
reads as the criterion's own connectives do over the predicates of its prepared leaves. The
predicates come from one call for each prepared leaf, in order, up to the first error, and joins are
never made of fewer than two operands. -/
theorem compile_keeps_structure (s : EntitySchema) (b : Backend ε) (c : Criterion) :
    (∀ e?, s.compile b c = .ok e? →
      (e? = none ↔ c.flatten = .empty) ∧
        ∀ holds, b.JoinsAs holds →
          e?.map holds = c.eval (s.readLeaf (s.leafHolds b holds))) ∧
      (s.recordedCompile b c).1 = s.compile b c ∧
      (∀ e, s.prepare c = .error e →
        s.compile b c = .error e ∧ (s.recordedCompile b c).2 = []) ∧
      ∀ r, s.prepare c = .ok r →
        CallsFor s b r.leaves (s.compile b c) (s.recordedCompile b c).2 := by
  obtain ⟨hresult, hrefused, hcalls⟩ := recordedCompile_spec s b c
  refine ⟨fun e? h => ⟨?_, fun holds hb => s.eval_of_compile_ok hb h⟩, hresult, ?_, hcalls⟩
  · rw [s.eq_none_iff_of_compile_ok h, Criterion.flatten_eq_empty_iff]
  · intro e he
    refine ⟨?_, hrefused e he⟩
    rw [compile, he]
    rfl

/-- An absence test on a text beside an empty operand and a join of one operand. -/
theorem compile_keeps_structure_polarity :
    let s := (empty "event").declareField (.single "name") (.ofType .text)
    let c : Criterion := .join .or [.leaf (.absent (.single "name")), .empty,
      .join .and [.leaf ⟨.single "name", .comparison (.relation .contains true false),
        some (.text "x")⟩]]
    s.compile .polarity c = .ok (some true) ∧ Backend.polarity.JoinsAs id ∧
      c.flatten ≠ .empty ∧
      (some true).map id = c.eval (s.readLeaf (s.leafHolds .polarity id)) ∧
      ∃ r, s.prepare c = .ok r ∧ r.leaves.length = 3 ∧
        CallsFor s .polarity r.leaves (s.compile .polarity c)
          (s.recordedCompile .polarity c).2 := by
  intro s c
  have hok : s.compile .polarity c = .ok (some true) := rfl
  have hb := Backend.joinsAs_polarity
  obtain ⟨hcompiled, -, -, hcalls⟩ := compile_keeps_structure s .polarity c
  obtain ⟨hnone, hreads⟩ := hcompiled _ hok
  refine ⟨hok, hb, fun h => (nomatch hnone.2 h), hreads id hb, _, rfl, rfl, hcalls _ rfl⟩

end EntitySchema

end EventQuery
