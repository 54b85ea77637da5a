import EventQuery.Proofs.Pipeline.Restriction
import EventQuery.Proofs.Schema.Coherence

/-!
# Registries and the declarations that led to them

A registry is filled by declarations in any number and order; one that fails changes nothing.
`Registry.AllSchemas.ofHistory` is the induction over them. Every schema that declarations lead to
is coherent, its list keys are marked as such where none was set by itself, and once the registry is
checked no question about a list or a logical field leads to a path that it does not know.
-/

namespace EventQuery

/-- A declaration, as it is made of a registry. -/
inductive Declaration where
  | field (path : String) (type : ValueType) (isPublic isKey : Bool)
  | list (path : String) (default : ListEnd)
  | listKey (path key : String)
  | operators (path : String) (operators : List Operator)
  | suggestions (path : String) (suggestions : List Suggestion)
  | expansion (entity field : String) (e : Expansion)
  | timeField (path : String)

namespace Declaration

/-- Makes the declaration. -/
def make (r : Registry) : Declaration → Except QueryError Registry
  | field path type isPublic isKey => r.declareField path type isPublic isKey
  | list path default => r.declareList path default
  | listKey path key => r.setListKey path key
  | operators path os => r.setOperators path os
  | suggestions path ss => r.setSuggestions path ss
  | expansion entity name e => .ok (r.declareExpansion entity name e)
  | timeField path => r.setTimeField path

/-- The declaration sets the key of a list by itself. -/
def isListKey : Declaration → Bool
  | listKey _ _ => true
  | _ => false

end Declaration

namespace Registry

/-- The registry after a declaration, if it can be made. -/
def after (r : Registry) (d : Declaration) : Registry :=
  match d.make r with
  | .ok r' => r'
  | .error _ => r

/-- The registry that declarations lead to. -/
def ofHistory (ds : List Declaration) : Registry := ds.foldl after ∅

variable {P : String → EntitySchema → Prop} {r r' : Registry} {ds : List Declaration}

/-! ## What all declarations keep -/

theorem AllSchemas.after (h : r.AllSchemas P) {d : Declaration}
    (step : ∀ r', d.make r = .ok r' → r'.AllSchemas P) : (r.after d).AllSchemas P := by
  unfold Registry.after
  split
  · rename_i r' hmake
    exact step r' hmake
  · exact h

/-- What every declaration keeps holds at the end of each history. -/
theorem AllSchemas.ofHistory
    (step : ∀ d ∈ ds, ∀ r r', r.AllSchemas P → d.make r = .ok r' → r'.AllSchemas P) :
    (Registry.ofHistory ds).AllSchemas P := by
  have hrun : ∀ r : Registry, r.AllSchemas P → (ds.foldl Registry.after r).AllSchemas P := by
    intro r hr
    induction ds generalizing r with
    | nil => exact hr
    | cons d ds ih =>
        refine ih (fun x hx => step x (List.mem_cons_of_mem d hx)) _ (hr.after fun r' hmake => ?_)
        exact step d List.mem_cons_self r r' hr hmake
  exact hrun ∅ allSchemas_empty

theorem AllSchemas.isCoherent_make (h : r.AllSchemas EntitySchema.IsCoherent) {d : Declaration}
    (hmake : d.make r = .ok r') : r'.AllSchemas EntitySchema.IsCoherent := by
  have empty := EntitySchema.isCoherent_empty
  cases d with
  | field path type isPublic isKey =>
      exact h.declareAt empty (fun _ _ hp _ hs => hs.declareField (isPlace_of_splitPath hp) _) hmake
  | list path default =>
      exact h.declareAt empty (fun _ _ hp _ hs => hs.declareList (isPlace_of_splitPath hp) _) hmake
  | listKey path key =>
      exact h.declareAt empty (fun _ _ hp _ hs => hs.setListKey (isPlace_of_splitPath hp) _) hmake
  | operators path operators =>
      exact h.modifyFieldAt (fun _ _ _ _ _ hs hs' => hs.modifyField? hs') hmake
  | suggestions path suggestions =>
      exact h.modifyFieldAt (fun _ _ _ _ _ hs hs' => hs.modifyField? hs') hmake
  | expansion entity field e =>
      cases hmake
      exact h.modifyEntity (empty entity) fun _ hs => hs.declareExpansion field e
  | timeField path =>
      exact h.declareAt empty (fun _ p _ _ hs => hs.setTimeField p) hmake

/-- Declarations lead to coherent schemas. -/
theorem isCoherent_ofHistory (ds : List Declaration) :
    (ofHistory ds).AllSchemas EntitySchema.IsCoherent :=
  .ofHistory fun _ _ _ _ hr hmake => hr.isCoherent_make hmake

theorem AllSchemas.keysMarked_make (h : r.AllSchemas fun _ s => s.KeysMarked) {d : Declaration}
    (other : d.isListKey = false) (hmake : d.make r = .ok r') :
    r'.AllSchemas fun _ s => s.KeysMarked := by
  have empty : ∀ entity, (EntitySchema.empty entity).KeysMarked := nofun
  cases d with
  | field path type isPublic isKey =>
      unfold Declaration.make declareField at hmake
      refine h.declareAt empty (fun _ _ hp _ hs => ?_) hmake
      exact hs.declareField (isPlace_of_splitPath hp).canonical _
  | list path default =>
      unfold Declaration.make declareList at hmake
      refine h.declareAt empty (fun _ _ hp _ hs => ?_) hmake
      exact hs.declareList (isPlace_of_splitPath hp).canonical _
  | listKey path key => cases other
  | operators path operators =>
      unfold Declaration.make setOperators at hmake
      refine h.modifyFieldAt (fun _ _ _ _ _ hs hs' => hs.modifyField? ?_ hs') hmake
      exact fun _ => rfl
  | suggestions path suggestions =>
      unfold Declaration.make setSuggestions at hmake
      refine h.modifyFieldAt (fun _ _ _ _ _ hs hs' => hs.modifyField? ?_ hs') hmake
      exact fun _ => rfl
  | expansion entity field e =>
      cases hmake
      exact h.modifyEntity (empty entity) fun _ hs => hs
  | timeField path =>
      unfold Declaration.make setTimeField at hmake
      refine h.declareAt empty ?_ hmake
      exact fun _ _ _ _ hs => hs

/-! ## Checked registries -/

/-- The path of a list key leads to a field, if the registry is coherent and checked. -/
theorem fieldAt_of_indexationKeyAt (h : r.AllSchemas EntitySchema.IsCoherent)
    (checked : r.check = .ok ()) {text : String} {key : Path}
    (hkey : r.indexationKeyAt text = .ok key) : ∃ f, r.fieldAt key.text = .ok f := by
  obtain ⟨entity, s, p, below, hlocate, hindex, rfl⟩ := indexationKeyAt_eq_ok_iff.1 hkey
  obtain ⟨-, -, -, hs⟩ := locate_eq_ok_iff.1 hlocate
  have hget := schema_eq_ok_iff.1 hs
  have hcheck := EntitySchema.check_eq_ok_iff.1 (check_eq_ok_iff.1 checked entity s hget)
  obtain ⟨container, hcontainer⟩ := EntitySchema.exists_keyOf?_of_indexationKey hindex
  have hdeclared := EntitySchema.contains_of_keyOf? hcheck.1 hcontainer
  obtain ⟨f, hf⟩ := Table.contains_iff.1 hdeclared
  exact ⟨f, fieldAt_text ((h entity s hget).field below hdeclared) hs hf⟩

end Registry

namespace EntitySchema

variable {s : EntitySchema}

@[simp] theorem adapt_path (lenient : Bool) (l : Leaf) : (s.adapt lenient l).path = l.path := by
  unfold adapt relax
  split
  · split
    · split <;> rfl
    · rfl
  · rfl

/-- The path of a leaf that a logical field of a checked schema stands for is known. -/
theorem resolve_of_mem_expandLeaf (checked : s.check = .ok ()) {l m : Leaf} {e : Expansion}
    (he : s.expansion? l.path.text = some e) {lenient : Bool}
    (hm : m ∈ (s.expandLeaf lenient l).leaves) : ∃ f, s.resolve m.path = .ok f := by
  rw [s.leaves_expandLeaf_of_some he] at hm
  obtain ⟨p, hp, rfl⟩ := List.mem_map.1 hm
  rw [adapt_path]
  exact (check_eq_ok_iff.1 checked).2.1 _ e he p hp

/-- A leaf on a known path may be refused for its operator only. -/
theorem checkLeaf_ne_unknownPath {l : Leaf} (known : ∃ f, s.resolve l.path = .ok f)
    (path : String) : s.checkLeaf l ≠ .error (.unknownPath path) := by
  obtain ⟨f, hf⟩ := known
  rw [checkLeaf, hf]
  simp only [bind, Except.bind]
  intro h
  split at h
  · cases h
  · cases h

end EntitySchema

namespace Registry

/-- What holds of every registry, whatever was declared and in whatever order: declared paths and
lists are canonical, and with a field all paths above it are declared. Without declarations that
only set a list key, the key of each list is declared as a key. If the registry is checked, each
list is a declared field, the path of a list key leads to a field, and each leaf that a logical
field stands for is on a known path. -/
theorem invariants_ofHistory (ds : List Declaration) :
    (∀ entity s, (ofHistory ds).schema entity = .ok s →
      (∀ p, s.fields.contains p = true →
        p.isCanonical = true ∧ ∀ q, q.IsAbove p → s.fields.contains q = true) ∧
      ∀ p, s.lists.contains p = true → p.isCanonical = true) ∧
    ((∀ d ∈ ds, d.isListKey = false) →
      ∀ entity s, (ofHistory ds).schema entity = .ok s → s.KeysMarked) ∧
    ((ofHistory ds).check = .ok () →
      (∀ entity s, (ofHistory ds).schema entity = .ok s →
        (∀ p, s.lists.contains p = true → s.fields.contains p = true) ∧
        ∀ l e, s.expansion? l.path.text = some e →
          ∀ lenient, ∀ m ∈ (s.expandLeaf lenient l).leaves,
            (∃ f, s.resolve m.path = .ok f) ∧
              ∀ path, s.checkLeaf m ≠ .error (.unknownPath path)) ∧
      ∀ text key, (ofHistory ds).indexationKeyAt text = .ok key →
        ∃ f, (ofHistory ds).fieldAt key.text = .ok f) := by
  have hcoherent := isCoherent_ofHistory ds
  refine ⟨fun entity s hs => ?_, fun unset entity s hs => ?_, fun checked => ⟨?_, ?_⟩⟩
  · have h := hcoherent entity s (schema_eq_ok_iff.1 hs)
    refine ⟨fun p hp => ⟨(h.field p hp).canonical, fun q hq => h.above p q hp hq⟩, ?_⟩
    exact fun p hp => (h.list p hp).canonical
  · have hmarked : (ofHistory ds).AllSchemas fun _ s => s.KeysMarked :=
      .ofHistory fun d hd _ _ hr hmake => hr.keysMarked_make (unset d hd) hmake
    exact hmarked entity s (schema_eq_ok_iff.1 hs)
  · intro entity s hs
    have hget := schema_eq_ok_iff.1 hs
    have hcheck := check_eq_ok_iff.1 checked entity s hget
    have hdeclared := (EntitySchema.check_eq_ok_iff.1 hcheck).1
    refine ⟨fun p hp => (hcoherent entity s hget).contains_of_list hdeclared hp, ?_⟩
    intro l e he lenient m hm
    have hknown := EntitySchema.resolve_of_mem_expandLeaf hcheck he hm
    exact ⟨hknown, EntitySchema.checkLeaf_ne_unknownPath hknown⟩
  · exact fun text key hkey => fieldAt_of_indexationKeyAt hcoherent checked hkey

/-- Sources whose identifier is declared twice, last as their key, with a logical field for it. One
of the declarations cannot be made. -/
def sourceHistory : List Declaration :=
  [.field "alert.source.ident" .text true false, .list "alert.source" .last,
    .operators "alert.target" [], .field "alert.source(0).ident" .text true true,
    .expansion "alert" "id" (.ofTargets [(Path.single "source").child "ident"])]

/-- The key of the sources is the identifier, and the logical field leads to it. -/
theorem invariants_ofHistory_sources :
    (∀ d ∈ sourceHistory, d.isListKey = false) ∧ (ofHistory sourceHistory).check = .ok () ∧
      ∃ s, (ofHistory sourceHistory).schema "alert" = .ok s ∧ s.KeysMarked ∧
        s.lists.contains (.single "source") = true ∧ s.fields.contains (.single "source") = true ∧
        (s.expansion? (Path.single "id").text).isSome = true ∧
        (∀ m ∈ (s.expandLeaf true (.present (.single "id"))).leaves,
          ∃ f, s.resolve m.path = .ok f) ∧
        ∃ key f, (ofHistory sourceHistory).indexationKeyAt "alert.source.node" = .ok key ∧
          (ofHistory sourceHistory).fieldAt key.text = .ok f := by
  have hunset : ∀ d ∈ sourceHistory, d.isListKey = false := by decide
  have hchecked : (ofHistory sourceHistory).check.toOption.any (fun _ => true) = true := by
    decide +kernel
  have hkey : ((ofHistory sourceHistory).indexationKeyAt "alert.source.node").toOption.any
      (fun _ => true) = true := by
    decide +kernel
  have hschema : ((ofHistory sourceHistory).schema "alert").toOption.any (fun s =>
      s.lists.contains (.single "source") &&
        (s.expansion? (Path.single "id").text).isSome) = true := by
    decide +kernel
  obtain ⟨⟨⟩, hchecked, -⟩ := exists_ok_of_any hchecked
  obtain ⟨key, hkey, -⟩ := exists_ok_of_any hkey
  obtain ⟨s, hs, hfacts⟩ := exists_ok_of_any hschema
  obtain ⟨hlist, hexpansion⟩ := Bool.and_eq_true_iff.1 hfacts
  obtain ⟨-, hmarked, hconsistent⟩ := invariants_ofHistory sourceHistory
  obtain ⟨hschemas, hkeys⟩ := hconsistent hchecked
  obtain ⟨hdeclared, hexpanded⟩ := hschemas "alert" s hs
  obtain ⟨e, he⟩ := Option.isSome_iff_exists.1 hexpansion
  obtain ⟨f, hf⟩ := hkeys _ key hkey
  exact ⟨hunset, hchecked, s, hs, hmarked hunset "alert" s hs, hlist, hdeclared _ hlist, hexpansion,
    fun m hm => (hexpanded (.present (.single "id")) e he true m hm).1, key, f, hkey, hf⟩

end Registry

end EventQuery
