import EventQuery.Proofs.Schema.Entries

/-!
# Fields as they are defined

Where a field of a definition is found in the registry that is built from it. A field stays as it
was declared unless another entry leads to the same place. It is found below the name of its block
where that name is a field name; a block of any other name declares its fields elsewhere, and none
is ever found below its name.
-/

namespace EventQuery

namespace EntityConfig

variable {e : EntityConfig} {x : Entry} {y : Change} {s : EntitySchema} {p : Path} {f : Field}

/-- A declared field stays as it is, unless an entry declares it again. -/
theorem fields_run_of_change (hy : e.change x = .ok y)
    (other : ∀ g, x = .field g → ¬ e.LeadsTo g.path y.entity p)
    (hs : s.fields.get? p = some f) : (y.run s).fields.get? p = some f := by
  cases x with
  | field g =>
      rw [change, changeAt_eq_ok_iff] at hy
      obtain ⟨q, hq, hrun⟩ := hy
      have hne : p ≠ q := by
        rintro rfl
        exact other g rfl hq
      rw [hrun, EntitySchema.fields_declareField, if_neg hne, hs, Option.some_or]
  | list l =>
      rw [change, changeAt_eq_ok_iff] at hy
      obtain ⟨q, -, hrun⟩ := hy
      have hlist : (s.declareList q l.default).fields.get? p = some f := by
        rw [EntitySchema.fields_declareList]
        split
        · exact hs
        · rename_i hq
          have hne : p ≠ q := by
            rintro rfl
            exact hq (Table.contains_iff.2 ⟨f, hs⟩)
          rw [EntitySchema.fields_declareField, if_neg hne, hs, Option.some_or]
      rw [hrun]
      cases l.key with
      | none => exact hlist
      | some key => exact hlist
  | expansion x =>
      obtain ⟨targets, -, hy⟩ := bind_eq_ok_iff.1 hy
      cases hy
      exact hs
  | timeField path =>
      rw [change, changeAt_eq_ok_iff] at hy
      obtain ⟨q, -, hrun⟩ := hy
      rw [hrun]
      exact hs

end EntityConfig

namespace Registry

variable {r : Registry} {entity : String} {p : Path} {f : Field}

/-- A declared field is found at every path of the same canonical path. -/
theorem resolve_of_fields (h : (r.schemaOf entity).fields.get? p.canonical = some f) :
    r.resolve entity p = .ok f := by
  cases hs : r.entities.get? entity with
  | none =>
      rw [schemaOf, hs] at h
      cases h
  | some s =>
      rw [schemaOf, hs, Option.getD_some] at h
      refine resolve_eq_ok_iff.2 ⟨s, schema_eq_ok_iff.2 hs, ?_⟩
      rw [EntitySchema.field?, h]

/-- Below a name that is none of a field nothing is found. -/
theorem resolve_ne_ok_of_not_isFieldName (h : r.AllSchemas EntitySchema.IsCoherent)
    (name : ¬ Grammar.IsFieldName entity) : r.resolve entity p ≠ .ok f := by
  intro hf
  obtain ⟨s, hs, hf⟩ := resolve_eq_ok_iff.1 hf
  have coherent := h entity s (schema_eq_ok_iff.1 hs)
  rw [EntitySchema.field?, coherent.static] at hf
  cases hget : s.fields.get? p.canonical with
  | none =>
      rw [hget] at hf
      cases hf
  | some g => exact name (coherent.field _ (Table.contains_iff.2 ⟨g, hget⟩)).entity

end Registry

/-- A declared field stays as it is through entries none of which declares it again. -/
theorem Registry.fields_of_foldlM_change? {r r' : Registry} {entity : String} {p : Path} {f : Field}
    {xs : List (EntityConfig × EntityConfig.Entry)}
    (other : ∀ x ∈ xs, ∀ g, x.2 = .field g → ¬ x.1.LeadsTo g.path entity p)
    (h : (r.schemaOf entity).fields.get? p = some f)
    (hr : (xs.map fun x => x.1.change x.2).foldlM change? r = .ok r') :
    (r'.schemaOf entity).fields.get? p = some f := by
  refine foldlM_preserves (P := fun r => (r.schemaOf entity).fields.get? p = some f) ?_ h hr
  intro z hz before after hbefore hafter
  obtain ⟨x, hx, rfl⟩ := List.mem_map.1 hz
  obtain ⟨y, hy, rfl⟩ := change?_eq_ok_iff.1 hafter
  rw [schemaOf_modifyEntity]
  split
  · rename_i heq
    subst heq
    exact EntityConfig.fields_run_of_change hy (other x hx) hbefore
  · exact hbefore

namespace SchemaConfig

variable {c : SchemaConfig} {r : Registry} {e : EntityConfig} {f : FieldConfig}
variable {xs ys : List (EntityConfig × FieldConfig)}

/-- The fields behind a field are those among the entries behind it. -/
theorem exists_of_fieldEntries_eq (h : c.fieldEntries = xs ++ (e, f) :: ys) :
    ∃ as bs, c.entries = as ++ (e, .field f) :: bs ∧
      ∀ x ∈ bs, ∀ g, x.2 = .field g → (x.1, g) ∈ ys := by
  rw [← filterMap_entries, List.filterMap_eq_append_iff] at h
  obtain ⟨as, rest, hentries, -, h⟩ := h
  obtain ⟨others, ⟨e', x⟩, bs, rfl, -, hx, hbs⟩ := List.filterMap_eq_cons_iff.1 h
  cases x with
  | field f' =>
      cases hx
      refine ⟨as ++ others, bs, by rw [hentries, List.append_assoc], ?_⟩
      rintro ⟨e'', x⟩ hmem g rfl
      exact hbs ▸ List.mem_filterMap.2 ⟨_, hmem, rfl⟩
  | _ => cases hx

/-- A field is found where its entry leads if no later entry leads there. -/
theorem exists_resolve_of_build (built : c.build = .ok r)
    (split : c.fieldEntries = xs ++ (e, f) :: ys) :
    ∃ entity p, e.LeadsTo f.path entity p ∧
      ((∀ y ∈ ys, ¬ y.1.LeadsTo y.2.path entity p) → r.resolve entity p = .ok f.toField) := by
  obtain ⟨hdeclared, -⟩ := build_eq_ok_iff.1 built
  obtain ⟨as, bs, hentries, hbs⟩ := exists_of_fieldEntries_eq split
  rw [changes, hentries, List.map_append, List.map_cons, List.foldlM_append] at hdeclared
  obtain ⟨before, -, hdeclared⟩ := bind_eq_ok_iff.1 hdeclared
  rw [List.foldlM_cons] at hdeclared
  obtain ⟨declared, hfield, hdeclared⟩ := bind_eq_ok_iff.1 hdeclared
  obtain ⟨⟨entity, run⟩, hy, rfl⟩ := Registry.change?_eq_ok_iff.1 hfield
  rw [EntityConfig.change, EntityConfig.changeAt_eq_ok_iff] at hy
  obtain ⟨p, hp, rfl⟩ := hy
  refine ⟨entity, p, hp, fun last => ?_⟩
  have others : ∀ x ∈ bs, ∀ g, x.2 = .field g → ¬ x.1.LeadsTo g.path entity p :=
    fun x hx g hg => last (x.1, g) (hbs x hx g hg)
  let declared := before.modifyEntity entity (·.declareField p f.toField)
  have hself : (declared.schemaOf entity).fields.get? p = some f.toField := by
    rw [Registry.schemaOf_modifyEntity, if_pos rfl, EntitySchema.fields_declareField, if_pos rfl]
  have hfound : (r.schemaOf entity).fields.get? p = some f.toField :=
    Registry.fields_of_foldlM_change? others hself hdeclared
  rw [← (Registry.isPlace_of_splitPath hp).canonical_eq] at hfound
  exact Registry.resolve_of_fields hfound

/-- In a registry that is built, a field of a block whose name is a field name is found there with
all that its entry says, unless a later entry of a block of that name has the same canonical path.
This asks that the names of the later blocks are field names too: a block of any other name has no
fields below its name, and declares its fields where its paths lead. -/
theorem resolve_of_build (built : c.build = .ok r) (split : c.fieldEntries = xs ++ (e, f) :: ys) :
    ((∀ y ∈ (e, f) :: ys, Grammar.IsFieldName y.1.name) →
      (∀ y ∈ ys, y.1.name = e.name → ∀ p q, Path.parse f.path = .ok p →
        Path.parse y.2.path = .ok q → q.canonical ≠ p.canonical) →
      ∃ p, Path.parse f.path = .ok p ∧ r.resolve e.name p = .ok f.toField) ∧
    (¬ Grammar.IsFieldName e.name → ∀ p g, r.resolve e.name p ≠ .ok g) ∧
    ∃ entity p, e.LeadsTo f.path entity p ∧
      ((∀ y ∈ ys, ¬ y.1.LeadsTo y.2.path entity p) → r.resolve entity p = .ok f.toField) := by
  obtain ⟨entity, p, hp, hfound⟩ := exists_resolve_of_build built split
  refine ⟨fun names last => ?_, fun name p g => ?_, entity, p, hp, hfound⟩
  · obtain ⟨hname, hnames⟩ := List.forall_mem_cons.1 names
    obtain ⟨rfl, q, hq, rfl⟩ := (EntityConfig.splitPath_qualify_iff hname).1 hp
    refine ⟨q, hq, ?_⟩
    have hlast : ∀ y ∈ ys, ¬ y.1.LeadsTo y.2.path e.name q.canonical := by
      intro y hy hleads
      obtain ⟨heq, q', hq', hcanonical⟩ :=
        (EntityConfig.splitPath_qualify_iff (hnames y hy)).1 hleads
      exact last y hy heq.symm q q' hq hq' hcanonical
    obtain ⟨s, hs, hf⟩ := Registry.resolve_eq_ok_iff.1 (hfound hlast)
    rw [EntitySchema.field?, Path.canonical_canonical] at hf
    exact Registry.resolve_eq_ok_iff.2 ⟨s, hs, hf⟩
  · exact Registry.resolve_ne_ok_of_not_isFieldName (c.keeps_isCoherent.of_build built) name

def nodeField : FieldConfig := ⟨"node", .object, false, false, none, none⟩

def identField : FieldConfig :=
  ⟨"source(0).ident", .text, true, true, some [.equal], some [⟨"hids", none, none⟩]⟩

/-- The node of a source is declared by a block that is named like the path above it. -/
def nodeBlock : EntityConfig := ⟨"alert.source", none, [nodeField], [], []⟩

def identBlock : EntityConfig := ⟨"alert", some "source.node", [identField], [], []⟩

def splitBlocks : SchemaConfig := ⟨[nodeBlock, identBlock]⟩

/-- The identifier is found below the name of its block, and nothing below that of the other. -/
theorem resolve_of_build_source :
    ∃ r, splitBlocks.build = .ok r ∧
      (∃ p, Path.parse "source(0).ident" = .ok p ∧ r.resolve "alert" p = .ok identField.toField) ∧
      ∀ p g, r.resolve "alert.source" p ≠ .ok g := by
  have hbuilt : splitBlocks.build.toOption.any (fun _ => true) = true := by
    decide +kernel
  obtain ⟨r, hbuilt, -⟩ := exists_ok_of_any hbuilt
  have hnode : splitBlocks.fieldEntries =
      [] ++ (nodeBlock, nodeField) :: [(identBlock, identField)] := rfl
  have hident : splitBlocks.fieldEntries =
      [(nodeBlock, nodeField)] ++ (identBlock, identField) :: [] := rfl
  have hname : ∀ y ∈ [(identBlock, identField)], Grammar.IsFieldName y.1.name :=
    List.forall_mem_singleton.2 (by decide)
  obtain ⟨-, hnone, -⟩ := resolve_of_build hbuilt hnode
  obtain ⟨hfound, -⟩ := resolve_of_build hbuilt hident
  exact ⟨r, hbuilt, hfound hname nofun, hnone (by decide)⟩

end SchemaConfig

end EventQuery
