import Mathlib.Data.List.Forall2

/-!
# Results that may be errors

When a composed computation succeeds, where its error comes from, and what a fold keeps that
succeeds.
-/

namespace EventQuery

variable {ε α β : Type}

theorem bind_eq_ok_iff {x : Except ε α} {f : α → Except ε β} {b : β} :
    x >>= f = .ok b ↔ ∃ a, x = .ok a ∧ f a = .ok b := by
  cases x with
  | error e => simp [bind, Except.bind]
  | ok a => simp [bind, Except.bind]

theorem bind_eq_error_iff {x : Except ε α} {f : α → Except ε β} {e : ε} :
    x >>= f = .error e ↔ x = .error e ∨ ∃ a, x = .ok a ∧ f a = .error e := by
  cases x with
  | error e' => simp [bind, Except.bind]
  | ok a => simp [bind, Except.bind]

theorem bind_unit_eq_ok_iff {x : Except ε PUnit} {y : Except ε β} {b : β} :
    (x >>= fun _ => y) = .ok b ↔ x = .ok ⟨⟩ ∧ y = .ok b := by
  cases x <;> simp [bind, Except.bind]

theorem map_eq_ok_iff {x : Except ε α} {f : α → β} {b : β} :
    x.map f = .ok b ↔ ∃ a, x = .ok a ∧ f a = b := by
  cases x with
  | error e => simp [Except.map]
  | ok a => simp [Except.map]

theorem map_eq_error_iff {x : Except ε α} {f : α → β} {e : ε} :
    x.map f = .error e ↔ x = .error e := by
  cases x with
  | error e => simp [Except.map]
  | ok a => simp [Except.map]

theorem mapError_eq_ok_iff {ε' : Type} {x : Except ε α} {f : ε → ε'} {a : α} :
    x.mapError f = .ok a ↔ x = .ok a := by
  cases x with
  | error e => exact ⟨nofun, nofun⟩
  | ok b => exact ⟨fun h => by cases h; rfl, fun h => by cases h; rfl⟩

theorem mapError_eq_error_iff {ε' : Type} {x : Except ε α} {f : ε → ε'} {e : ε'} :
    x.mapError f = .error e ↔ ∃ d, x = .error d ∧ f d = e := by
  cases x with
  | error d => simp [Except.mapError]
  | ok a => simp [Except.mapError]

theorem discard_eq_ok_iff {x : Except ε α} :
    (do let _ ← x : Except ε Unit) = .ok () ↔ ∃ a, x = .ok a := by
  cases x <;> simp [bind, Except.bind, pure, Except.pure]

theorem exists_ok_of_any {x : Except ε α} {p : α → Bool} (h : x.toOption.any p = true) :
    ∃ a, x = .ok a ∧ p a = true := by
  cases x with
  | error e => cases h
  | ok a => exact ⟨a, rfl, h⟩

theorem eq_ok_of_any_eq [DecidableEq α] {x : Except ε α} {a : α}
    (h : x.toOption.any (fun b => decide (b = a)) = true) : x = .ok a := by
  obtain ⟨b, hb, heq⟩ := exists_ok_of_any h
  exact of_decide_eq_true heq ▸ hb

theorem mapM_eq_ok_iff {f : α → Except ε β} {xs : List α} {ys : List β} :
    xs.mapM f = .ok ys ↔ List.Forall₂ (fun x y => f x = .ok y) xs ys := by
  induction xs generalizing ys with
  | nil => cases ys <;> simp [pure, Except.pure]
  | cons x xs ih =>
      rw [List.mapM_cons, bind_eq_ok_iff]
      constructor
      · intro h
        obtain ⟨y, hy, h⟩ := h
        obtain ⟨ys, hys, h⟩ := bind_eq_ok_iff.1 h
        cases h
        exact .cons hy (ih.1 hys)
      · intro h
        cases h with
        | cons hy hys => exact ⟨_, hy, bind_eq_ok_iff.2 ⟨_, ih.2 hys, rfl⟩⟩

/-- What holds of every result of a step holds of all results. -/
theorem forall_mem_of_mapM_eq_ok {f : α → Except ε β} {P : β → Prop} {xs : List α} {ys : List β}
    (h : xs.mapM f = .ok ys) (step : ∀ x ∈ xs, ∀ y, f x = .ok y → P y) : ∀ y ∈ ys, P y := by
  induction mapM_eq_ok_iff.1 h with
  | nil => exact nofun
  | @cons x y xs ys hy hys ih =>
      refine List.forall_mem_cons.2 ⟨?_, ?_⟩
      · exact step x List.mem_cons_self y hy
      · exact ih (mapM_eq_ok_iff.2 hys) fun x hx => step x (List.mem_cons_of_mem _ hx)

theorem forM_eq_ok_iff {f : α → Except ε PUnit} {xs : List α} :
    xs.forM f = .ok ⟨⟩ ↔ ∀ x ∈ xs, f x = .ok ⟨⟩ := by
  rw [List.forM_eq_forM]
  induction xs with
  | nil => simp [pure, Except.pure]
  | cons x xs ih =>
      rw [List.forM_cons, List.forall_mem_cons, ← ih]
      cases f x <;> simp [bind, Except.bind]

/-- A loop that fails gives the error of the first step that does. -/
theorem forM_eq_error_iff {f : α → Except ε Unit} {xs : List α} {e : ε} :
    xs.forM f = .error e ↔ ∃ before x after, xs = before ++ x :: after ∧
      (∀ y ∈ before, f y = .ok ()) ∧ f x = .error e := by
  induction xs with
  | nil => exact ⟨nofun, fun ⟨before, x, after, h, _⟩ => by cases before <;> cases h⟩
  | cons x xs ih =>
      rw [List.forM_eq_forM] at ih ⊢
      rw [List.forM_cons, bind_eq_error_iff]
      constructor
      · rintro (hx | ⟨⟨⟩, hx, hxs⟩)
        · exact ⟨[], x, xs, rfl, nofun, hx⟩
        · obtain ⟨before, y, after, rfl, hbefore, hy⟩ := ih.1 hxs
          exact ⟨x :: before, y, after, rfl, List.forall_mem_cons.2 ⟨hx, hbefore⟩, hy⟩
      · rintro ⟨before, y, after, h, hbefore, hy⟩
        cases before with
        | nil =>
            cases h
            exact Or.inl hy
        | cons z before =>
            cases h
            obtain ⟨hz, hbefore⟩ := List.forall_mem_cons.1 hbefore
            exact Or.inr ⟨⟨⟩, hz, ih.2 ⟨before, y, after, rfl, hbefore, hy⟩⟩

theorem exists_mapM_eq_ok_iff {f : α → Except ε β} {xs : List α} :
    (∃ ys, xs.mapM f = .ok ys) ↔ ∀ x ∈ xs, ∃ y, f x = .ok y := by
  induction xs with
  | nil => exact ⟨fun _ => nofun, fun _ => ⟨[], rfl⟩⟩
  | cons x xs ih =>
      rw [List.forall_mem_cons, ← ih]
      simp only [mapM_eq_ok_iff]
      constructor
      · rintro ⟨ys, hys⟩
        cases hys with
        | cons hy hys => exact ⟨⟨_, hy⟩, _, hys⟩
      · rintro ⟨⟨y, hy⟩, ys, hys⟩
        exact ⟨y :: ys, .cons hy hys⟩

/-- Elements are taken in their order, up to the first that fails. -/
theorem mapM_eq_error_iff {f : α → Except ε β} {xs : List α} {e : ε} :
    xs.mapM f = .error e ↔ ∃ before x after, xs = before ++ x :: after ∧
      (∀ y ∈ before, ∃ b, f y = .ok b) ∧ f x = .error e := by
  have hmap : (xs.mapM f).map (fun _ => ()) = xs.forM fun x => (f x).map fun _ => () := by
    induction xs with
    | nil => rfl
    | cons x xs ih =>
        rw [List.forM_eq_forM] at ih ⊢
        rw [List.mapM_cons, List.forM_cons, ← ih]
        cases f x with
        | error e => rfl
        | ok y => cases xs.mapM f <;> rfl
  have hforM : (xs.mapM f).map (fun _ => ()) = .error e ↔ _ := hmap ▸ forM_eq_error_iff
  simpa only [map_eq_ok_iff, map_eq_error_iff, and_true] using hforM

theorem exists_of_forM_eq_error {f : α → Except ε Unit} {xs : List α} {e : ε}
    (h : xs.forM f = .error e) : ∃ x ∈ xs, f x = .error e := by
  obtain ⟨before, x, after, rfl, -, hx⟩ := forM_eq_error_iff.1 h
  exact ⟨x, List.mem_append_right before List.mem_cons_self, hx⟩

/-- What every step of a fold preserves, the whole fold preserves if it succeeds. -/
theorem foldlM_preserves {α σ ε : Type} {P : σ → Prop} {f : σ → α → Except ε σ} {xs : List α}
    (step : ∀ x ∈ xs, ∀ s s', P s → f s x = .ok s' → P s') {s s' : σ} (hs : P s)
    (h : xs.foldlM f s = .ok s') : P s' := by
  induction xs generalizing s with
  | nil =>
      cases h
      exact hs
  | cons x xs ih =>
      rw [List.foldlM_cons] at h
      obtain ⟨middle, hx, h⟩ := bind_eq_ok_iff.1 h
      exact ih (fun y hy => step y (List.mem_cons_of_mem x hy))
        (step x List.mem_cons_self s middle hs hx) h

/-! ## Folds that lead to related results -/

section Related

variable {σ : Type} {R : σ → σ → Prop} {f : σ → α → Except ε σ}

end Related

end EventQuery
