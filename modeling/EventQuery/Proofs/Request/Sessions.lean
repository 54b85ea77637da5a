import EventQuery.Proofs.Request.Memory

/-!
# Requests in the course of time

While a request asks its questions the shared registry may be replaced, and what the request asked
before fills its memory. Neither shows in an answer: each is the one that a new request on the
registry of the start would get. Only `hits` tells what was asked before, and it counts the lookups
of what had been answered already.

A lookup that fails leaves nothing behind, and a question for several selections looks up no more
of them once one has failed.
-/

namespace EventQuery

namespace Request

/-- What a request may be asked, by the type of the answer. -/
inductive Question : Type → Type 1
  | resolve (text : String) : Question ResolvedSelection
  | resolveAll (texts : List String) : Question (List ResolvedSelection)
  | readCriterion (entity text : String) : Question Criterion
  | compile {ε : Type} (b : Backend ε) (entity : String) (c : Criterion) : Question (Option ε)
  | compileText {ε : Type} (b : Backend ε) (entity text : String) : Question (Option ε)

/-- The answer to a question, and the request after it. -/
def ask (q : Request) : Question α → Except QueryError α × Request
  | .resolve text => q.resolve text
  | .resolveAll texts => q.resolveAll texts
  | .readCriterion entity text => q.readCriterion entity text
  | .compile b entity c => (q.compile b entity c, q)
  | .compileText b entity text => q.compileText b entity text

/-- What is looked up in the memory of a request. -/
inductive Key where
  | selection (text : String)
  | criterion (entity text : String)
  deriving DecidableEq

end Request

namespace Registry

open Request (Question Key)

variable (r : Registry) (options : CompileOptions)

/-- The answer to a question without a memory. -/
def answer : Question α → Except QueryError α
  | .resolve text => r.readSelection text
  | .resolveAll texts => texts.mapM r.readSelection
  | .readCriterion entity text => r.readCriterion options entity text
  | .compile b entity c => do (← r.schema entity).compile b c
  | .compileText b entity text => do
    let c ← r.readCriterion options entity text
    (← r.schema entity).compile b c

/-- A lookup of the key succeeds. -/
def answers : Key → Bool
  | .selection text => (r.readSelection text).isOk
  | .criterion entity text => (r.readCriterion options entity text).isOk

/-- Selections are looked up until one fails. -/
def selectionLookups : List String → List Key
  | [] => []
  | text :: texts =>
    .selection text :: if (r.readSelection text).isOk then selectionLookups texts else []

/-- The lookups that a question leads to, in their order. -/
def lookups : Question α → List Key
  | .resolve text => [.selection text]
  | .resolveAll texts => r.selectionLookups texts
  | .readCriterion entity text => [.criterion entity text]
  | .compile _ _ _ => []
  | .compileText _ entity text => [.criterion entity text]

/-- How many lookups are of a key that was looked up before, and with success. -/
def repeats (keys : List Key) : Nat :=
  keys.zipIdx.countP fun (k, n) => (keys.take n).contains k && r.answers options k

theorem repeats_append_singleton (keys : List Key) (k : Key) :
    r.repeats options (keys ++ [k]) =
      r.repeats options keys + if k ∈ keys ∧ r.answers options k then 1 else 0 := by
  have hbefore : ∀ x ∈ keys.zipIdx, (keys ++ [k]).take x.2 = keys.take x.2 := by
    intro x hx
    exact List.take_append_of_le_length (Nat.le_of_lt (List.snd_lt_of_mem_zipIdx hx))
  unfold repeats
  rw [List.zipIdx_append, List.countP_append]
  congr 1
  · exact List.countP_congr fun x hx => by simp only [hbefore x hx]
  · simp

end Registry

namespace Request

/-! ## Tables that remember -/

section Recalls

variable {κ α : Type} [DecidableEq κ] {t : Table κ α} {read : κ → Except QueryError α}
variable {asked : κ → Prop}

/-- The table holds the answers to all keys that were asked for with success. -/
def Recalls (t : Table κ α) (read : κ → Except QueryError α) (asked : κ → Prop) : Prop :=
  ∀ k a, t.get? k = some a ↔ asked k ∧ read k = .ok a

theorem Recalls.insert (h : Recalls t read asked) {k : κ} {a : α} (hread : read k = .ok a) :
    Recalls (t.insert k a) read fun l => asked l ∨ l = k := by
  intro l b
  rw [Table.get?_insert]
  by_cases hl : l = k
  · subst hl
    simp [hread]
  · simp [hl, h l b]

/-- Asking again for what is remembered, or cannot be, changes nothing. -/
theorem Recalls.again (h : Recalls t read asked) {k : κ} (settled : ∀ a, read k = .ok a → asked k) :
    Recalls t read fun l => asked l ∨ l = k := by
  intro l b
  rw [h l b]
  refine and_congr_left fun hread => ⟨Or.inl, ?_⟩
  rintro (hl | rfl)
  · exact hl
  · exact settled b hread

end Recalls

/-! ## What a request keeps track of -/

/-- The request belongs to the registry and remembers the answers to the lookups made so far. -/
structure Tracks (q : Request) (r : Registry) (options : CompileOptions) (keys : List Key) :
    Prop where
  registry_eq : q.registry = r
  options_eq : q.options = options
  selections : Recalls q.selections r.readSelection fun text => .selection text ∈ keys
  criteria : Recalls q.criteria (fun k => r.readCriterion options k.1 k.2)
    fun k => .criterion k.1 k.2 ∈ keys
  hits_eq : q.hits = r.repeats options keys

variable {q : Request} {r : Registry} {options : CompileOptions} {keys : List Key}

theorem tracks_start (r : Registry) (options : CompileOptions) :
    (start r options).Tracks r options [] :=
  ⟨rfl, rfl, fun _ _ => by simp [start], fun _ _ => by simp [start], rfl⟩

theorem Tracks.remembers (h : q.Tracks r options keys) : q.Remembers r options :=
  ⟨h.registry_eq, h.options_eq, fun text s hget => ((h.selections text s).1 hget).2,
    fun entity text c hget => ((h.criteria (entity, text) c).1 hget).2⟩

theorem Tracks.resolve (h : q.Tracks r options keys) (text : String) :
    (q.resolve text).2.Tracks r options (keys ++ [.selection text]) := by
  obtain ⟨rfl, rfl, hselections, hcriteria, hhits⟩ := h
  unfold Request.resolve
  cases hget : q.selections.get? text with
  | some found =>
      obtain ⟨hasked, hread⟩ := (hselections text found).1 hget
      refine ⟨rfl, rfl, ?_, by simpa using hcriteria, ?_⟩
      · simpa using hselections.again fun _ _ => hasked
      · simp [Registry.repeats_append_singleton, Registry.answers, hasked, hread, hhits,
          Except.isOk, Except.toBool]
  | none =>
      cases hread : q.registry.readSelection text with
      | ok s =>
          have hfresh : Key.selection text ∉ keys := by
            intro hasked
            cases hget.symm.trans ((hselections text s).2 ⟨hasked, hread⟩)
          refine ⟨rfl, rfl, ?_, by simpa using hcriteria, ?_⟩
          · simpa using hselections.insert hread
          · simp [Registry.repeats_append_singleton, hfresh, hhits]
      | error e =>
          refine ⟨rfl, rfl, ?_, by simpa using hcriteria, ?_⟩
          · simpa using hselections.again (k := text) fun s hs => nomatch hread.symm.trans hs
          · simp [Registry.repeats_append_singleton, Registry.answers, hread, hhits,
              Except.isOk, Except.toBool]

theorem Tracks.readCriterion (h : q.Tracks r options keys) (entity text : String) :
    (q.readCriterion entity text).2.Tracks r options (keys ++ [.criterion entity text]) := by
  obtain ⟨rfl, rfl, hselections, hcriteria, hhits⟩ := h
  unfold Request.readCriterion
  cases hget : q.criteria.get? (entity, text) with
  | some found =>
      obtain ⟨hasked, hread⟩ := (hcriteria (entity, text) found).1 hget
      refine ⟨rfl, rfl, by simpa using hselections, ?_, ?_⟩
      · simpa [Prod.ext_iff] using hcriteria.again fun _ _ => hasked
      · simp [Registry.repeats_append_singleton, Registry.answers, hasked, hread, hhits,
          Except.isOk, Except.toBool]
  | none =>
      cases hread : q.registry.readCriterion q.options entity text with
      | ok c =>
          have hfresh : Key.criterion entity text ∉ keys := by
            intro hasked
            cases hget.symm.trans ((hcriteria (entity, text) c).2 ⟨hasked, hread⟩)
          refine ⟨rfl, rfl, by simpa using hselections, ?_, ?_⟩
          · simpa [Prod.ext_iff] using hcriteria.insert hread
          · simp [Registry.repeats_append_singleton, hfresh, hhits]
      | error e =>
          refine ⟨rfl, rfl, by simpa using hselections, ?_, ?_⟩
          · simpa [Prod.ext_iff] using
              hcriteria.again (k := (entity, text)) fun c hc => nomatch hread.symm.trans hc
          · simp [Registry.repeats_append_singleton, Registry.answers, hread, hhits,
              Except.isOk, Except.toBool]

theorem Tracks.resolveAll (h : q.Tracks r options keys) (texts : List String) :
    (q.resolveAll texts).2.Tracks r options (keys ++ r.selectionLookups texts) := by
  induction texts generalizing q keys with
  | nil => simpa [Request.resolveAll, Registry.selectionLookups] using h
  | cons text texts ih =>
      have hanswer := (h.remembers.resolve text).1
      have hnext := h.resolve text
      rw [Request.resolveAll, Registry.selectionLookups, ← hanswer]
      cases hresolve : q.resolve text with
      | mk answer q' =>
          rw [hresolve] at hnext
          cases answer with
          | error e => exact hnext
          | ok s => simpa [Except.isOk, Except.toBool] using ih hnext

/-- A question leaves the traces of its lookups in a request, and no others. -/
theorem Tracks.ask (h : q.Tracks r options keys) (question : Question α) :
    (q.ask question).2.Tracks r options (keys ++ r.lookups question) := by
  cases question with
  | resolve text => exact h.resolve text
  | resolveAll texts => exact h.resolveAll texts
  | readCriterion entity text => exact h.readCriterion entity text
  | compile b entity c => simpa [Registry.lookups, Request.ask] using h
  | compileText b entity text => exact h.readCriterion entity text

/-! ## Answers -/

theorem Remembers.resolveAll_fst (h : q.Remembers r options) (texts : List String) :
    (q.resolveAll texts).1 = texts.mapM r.readSelection := by
  induction texts generalizing q with
  | nil => rfl
  | cons text texts ih =>
      obtain ⟨hanswer, hnext⟩ := h.resolve text
      rw [Request.resolveAll, List.mapM_cons, ← hanswer]
      cases hresolve : q.resolve text with
      | mk answer q' =>
          rw [hresolve] at hnext
          cases answer with
          | error e => rfl
          | ok s =>
              show ((q'.resolveAll texts).1.map (s :: ·)) = _
              rw [ih hnext]
              cases texts.mapM r.readSelection <;> rfl

/-- A request that remembers only answers of its registry gives those to every question. -/
theorem Remembers.ask_fst (h : q.Remembers r options) (question : Question α) :
    (q.ask question).1 = r.answer options question := by
  cases question with
  | resolve text => exact (h.resolve text).1
  | resolveAll texts => exact h.resolveAll_fst texts
  | readCriterion entity text => exact (h.readCriterion entity text).1
  | compile b entity c =>
      obtain ⟨rfl, -, -, -⟩ := h
      rfl
  | compileText b entity text => exact h.compileText_fst b entity text

end Request

/-! ## Sessions -/

/-- The registry that is shared and a request that started from what was shared then. -/
structure Session where
  shared : SharedRegistry
  request : Request

/-- What happens in a session. -/
inductive Event : Type 1
  | replace (r : Registry)
  | ask {α : Type} (question : Request.Question α)

/-- The lookups that an event leads to. -/
def Event.lookups (r : Registry) : Event → List Request.Key
  | replace _ => []
  | ask question => r.lookups question

namespace Session

/-- A request on what is shared. -/
def start (shared : SharedRegistry) (options : CompileOptions) : Session :=
  ⟨shared, .start shared.current options⟩

/-- Replacing the shared registry succeeds or not, and the request is asked something or not. -/
def after (x : Session) : Event → Session
  | .replace r => { x with shared := (x.shared.replace r).1 }
  | .ask question => { x with request := (x.request.ask question).2 }

def run (x : Session) (events : List Event) : Session := events.foldl after x

theorem tracks_run {x : Session} {r : Registry} {options : CompileOptions}
    {keys : List Request.Key} (h : x.request.Tracks r options keys) (events : List Event) :
    (x.run events).request.Tracks r options (keys ++ events.flatMap (·.lookups r)) := by
  induction events generalizing x keys with
  | nil => simpa [run] using h
  | cons event events ih =>
      rw [List.flatMap_cons, ← List.append_assoc]
      refine ih ?_
      cases event with
      | replace r' => simpa [after, Event.lookups] using h
      | ask question => exact h.ask question

/-- Whatever happened in a session, its request answers every question as a new request on the
registry of the start would, and `hits` counts the lookups of what had been answered before. -/
theorem answers_of_snapshot (shared : SharedRegistry) (options : CompileOptions)
    (events : List Event) :
    let x := (start shared options).run events
    (∀ {α : Type} (question : Request.Question α), (x.request.ask question).1 =
      ((Request.start shared.current options).ask question).1) ∧
      x.request.hits = shared.current.repeats options
        (events.flatMap (·.lookups shared.current)) := by
  have hstart := Request.tracks_start shared.current options
  have hend := tracks_run (x := start shared options) hstart events
  refine ⟨fun question => ?_, hend.hits_eq⟩
  rw [hend.remembers.ask_fst, hstart.remembers.ask_fst]

end Session

end EventQuery
