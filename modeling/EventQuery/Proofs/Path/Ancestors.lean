import EventQuery.Proofs.Grammar.Paths

/-!
# Paths above a path

A path lies above another when it is a proper leading part of it. The parent of a path is the
longest path above it, and all the others lie above the parent. Where a path is canonical, so are
all paths above it, and it is the child of its parent that its name picks.
-/

namespace EventQuery.Path

variable {p q r : Path}

/-- The path is a proper leading part of the other. -/
def IsAbove (q p : Path) : Prop := q.segments <+: p.segments ∧ q ≠ p

instance (q p : Path) : Decidable (q.IsAbove p) :=
  inferInstanceAs (Decidable (q.segments <+: p.segments ∧ q ≠ p))

theorem IsAbove.length_lt (h : q.IsAbove p) : q.segments.length < p.segments.length := by
  obtain ⟨hleading, hne⟩ := h
  rcases Nat.lt_or_eq_of_le hleading.length_le with hlt | heq
  · exact hlt
  · exact absurd (Path.ext (hleading.eq_of_length heq)) hne

theorem IsAbove.trans (h : r.IsAbove q) (h' : q.IsAbove p) : r.IsAbove p := by
  refine ⟨h.1.trans h'.1, ?_⟩
  rintro rfl
  exact absurd h.length_lt (Nat.not_lt_of_gt h'.length_lt)

theorem IsAbove.isCanonical (h : q.IsAbove p) (hp : p.isCanonical = true) :
    q.isCanonical = true := by
  rw [Path.isCanonical, List.all_eq_true] at hp ⊢
  exact fun x hx => hp x (h.1.subset hx)

theorem IsAbove.hasFieldNames (h : q.IsAbove p) (hp : p.HasFieldNames) : q.HasFieldNames :=
  fun x hx => hp x (h.1.subset hx)

/-! ## Parents -/

theorem parent?_eq_some_iff : p.parent? = some q ↔ ∃ x, p.segments = q.segments ++ [x] := by
  rw [parent?, ofList?]
  constructor
  · intro h
    split at h
    · cases h
    · cases h
      exact ⟨_, (List.dropLast_concat_getLast p.segments_ne_nil).symm⟩
  · rintro ⟨x, hx⟩
    have hdrop : p.segments.dropLast = q.segments := by rw [hx, List.dropLast_concat]
    rw [dif_neg (hdrop ▸ q.segments_ne_nil)]
    exact congrArg some (Path.ext hdrop)

theorem parent?_child (p : Path) (name : String) : (p.child name).parent? = some p :=
  parent?_eq_some_iff.2 ⟨_, segments_child p name⟩

@[simp] theorem name_child (p : Path) (name : String) : (p.child name).name = name := by
  simp [Path.name, Segment.plain]

theorem child_inj {m n : String} : p.child m = q.child n ↔ p = q ∧ m = n := by
  constructor
  · intro h
    have hparent := congrArg parent? h
    rw [parent?_child, parent?_child] at hparent
    have hname := congrArg Path.name h
    rw [name_child, name_child] at hname
    exact ⟨Option.some.inj hparent, hname⟩
  · rintro ⟨rfl, rfl⟩
    rfl

/-- A canonical path is the child of its parent that its name picks. -/
theorem eq_child_of_parent? (hp : p.isCanonical = true) (h : p.parent? = some q) :
    p = q.child p.name := by
  obtain ⟨⟨name, index⟩, hx⟩ := parent?_eq_some_iff.1 h
  have hindex : index = none := by
    rw [Path.isCanonical, List.all_eq_true] at hp
    simpa using hp ⟨name, index⟩ (hx ▸ List.mem_append_right _ List.mem_cons_self)
  subst hindex
  ext1
  rw [segments_child, hx]
  simp [Path.name, hx, Segment.plain]

theorem isAbove_of_parent? (h : p.parent? = some q) : q.IsAbove p := by
  obtain ⟨x, hx⟩ := parent?_eq_some_iff.1 h
  refine ⟨⟨[x], hx.symm⟩, ?_⟩
  rintro rfl
  simp at hx

theorem isAbove_child (p : Path) (name : String) : p.IsAbove (p.child name) :=
  isAbove_of_parent? (parent?_child p name)

theorem mem_leadingParts_iff : q ∈ p.leadingParts ↔ q.segments <+: p.segments := by
  rw [leadingParts, List.mem_map]
  constructor
  · rintro ⟨n, -, rfl⟩
    exact List.take_prefix _ _
  · intro h
    have hpos : 0 < q.segments.length := List.length_pos_iff.2 q.segments_ne_nil
    refine ⟨q.segments.length - 1, ?_, ?_⟩
    · have hle := h.length_le
      rw [List.mem_range, Path.length]
      omega
    · ext1
      rw [segments_upTo, Nat.sub_add_cancel hpos]
      exact (List.prefix_iff_eq_take.1 h).symm

/-- The paths above a path are its parent and those above the parent. -/
theorem mem_leadingParts_parent? (h : p.parent? = some r) :
    q ∈ r.leadingParts ↔ q.IsAbove p := by
  obtain ⟨x, hx⟩ := parent?_eq_some_iff.1 h
  rw [mem_leadingParts_iff]
  constructor
  · intro hq
    refine ⟨hq.trans ⟨[x], hx.symm⟩, ?_⟩
    rintro rfl
    have hle := hq.length_le
    rw [hx, List.length_append, List.length_singleton] at hle
    omega
  · intro hq
    have hlt := hq.length_lt
    have hleading := hq.1
    rw [hx] at hlt hleading
    rw [List.length_append, List.length_singleton] at hlt
    exact List.prefix_of_prefix_length_le hleading ⟨[x], rfl⟩ (Nat.le_of_lt_succ hlt)

theorem not_isAbove_of_parent?_eq_none (h : p.parent? = none) : ¬ q.IsAbove p := by
  intro hq
  have hlt := hq.length_lt
  have hpos : 0 < q.segments.length := List.length_pos_iff.2 q.segments_ne_nil
  have hdrop : p.segments.dropLast = [] := by
    by_contra hne
    rw [parent?, ofList?, dif_neg hne] at h
    cases h
  have hlength := congrArg List.length hdrop
  rw [List.length_dropLast, List.length_nil] at hlength
  omega

end EventQuery.Path
