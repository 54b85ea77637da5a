/-!
# Tables

Finite maps that remember the order in which their keys came in. No key occurs twice; setting the
value of a known key keeps its place.
-/

namespace EventQuery

structure Table (κ α : Type) where
  entries : List (κ × α)
  nodup : (entries.map Prod.fst).Nodup

namespace Table

variable {κ α β : Type} [DecidableEq κ]

def empty : Table κ α := ⟨[], by simp⟩

instance : EmptyCollection (Table κ α) := ⟨empty⟩

def keys (t : Table κ α) : List κ := t.entries.map Prod.fst

def values (t : Table κ α) : List α := t.entries.map Prod.snd

/-- The value of a key. -/
def get? (t : Table κ α) (k : κ) : Option α := t.entries.lookup k

def contains (t : Table κ α) (k : κ) : Bool := (t.get? k).isSome

/-- The entries with the value of `k` set. -/
def setEntry (k : κ) (a : α) : List (κ × α) → List (κ × α)
  | [] => [(k, a)]
  | (k', a') :: es => if k' = k then (k, a) :: es else (k', a') :: setEntry k a es

theorem map_fst_setEntry (k : κ) (a : α) (es : List (κ × α)) :
    (setEntry k a es).map Prod.fst =
      if k ∈ es.map Prod.fst then es.map Prod.fst else es.map Prod.fst ++ [k] := by
  induction es with
  | nil => rfl
  | cons e es ih =>
    obtain ⟨k', a'⟩ := e
    by_cases h : k' = k
    · simp [setEntry, h]
    · have h' : k ≠ k' := fun e => h e.symm
      simp only [setEntry, h, if_false, List.map_cons, ih, List.mem_cons, h', false_or]
      split <;> rfl

/-- Sets the value of a key. -/
def insert (t : Table κ α) (k : κ) (a : α) : Table κ α where
  entries := setEntry k a t.entries
  nodup := by
    rw [map_fst_setEntry]
    split
    · exact t.nodup
    · rename_i h
      refine List.nodup_append.2 ⟨t.nodup, by simp, fun a ha b hb => ?_⟩
      rw [List.mem_singleton.1 hb]
      exact fun e => h (e ▸ ha)

/-- Sets the value of a key that has none. -/
def insertIfNew (t : Table κ α) (k : κ) (a : α) : Table κ α :=
  if t.contains k then t else t.insert k a

/-- Sets the value of a key from the value it has. -/
def alter (t : Table κ α) (k : κ) (f : Option α → α) : Table κ α := t.insert k (f (t.get? k))

theorem lookup_cons_eq (k l : κ) (a : α) (es : List (κ × α)) :
    ((k, a) :: es).lookup l = if l = k then some a else es.lookup l := by
  by_cases h : l = k
  · simp [h]
  · have hb : (l == k) = false := by simpa using h
    simp [List.lookup_cons, hb, h]

theorem lookup_setEntry (k l : κ) (a : α) (es : List (κ × α)) :
    (setEntry k a es).lookup l = if l = k then some a else es.lookup l := by
  induction es with
  | nil => rw [setEntry, lookup_cons_eq]
  | cons e es ih =>
    obtain ⟨k', a'⟩ := e
    by_cases h : k' = k
    · simp only [setEntry, h, if_true, lookup_cons_eq]
      split <;> rfl
    · simp only [setEntry, h, if_false, lookup_cons_eq, ih]
      by_cases hl : l = k'
      · have hk : l ≠ k := hl ▸ h
        simp [hl, h]
      · simp [hl]

theorem setEntry_setEntry (k : κ) (a b : α) (es : List (κ × α)) :
    setEntry k b (setEntry k a es) = setEntry k b es := by
  induction es with
  | nil => simp [setEntry]
  | cons e es ih =>
    obtain ⟨k', a'⟩ := e
    by_cases h : k' = k
    · simp [setEntry, h]
    · simp [setEntry, h, ih]

theorem lookup_eq_some_iff (k : κ) (a : α) {es : List (κ × α)} (nodup : (es.map Prod.fst).Nodup) :
    es.lookup k = some a ↔ (k, a) ∈ es := by
  induction es with
  | nil => simp
  | cons e es ih =>
    obtain ⟨k', a'⟩ := e
    rw [List.map_cons, List.nodup_cons] at nodup
    rw [lookup_cons_eq, List.mem_cons]
    split
    · rename_i h
      subst h
      constructor
      · rintro ⟨⟩
        exact Or.inl rfl
      · rintro (h | h)
        · cases h
          rfl
        · exact absurd (List.mem_map_of_mem h) nodup.1
    · rename_i h
      rw [ih nodup.2]
      constructor
      · exact Or.inr
      · rintro (h' | h')
        · cases h'
          exact absurd rfl h
        · exact h'

omit [DecidableEq κ] in
@[ext] theorem ext {t u : Table κ α} (h : t.entries = u.entries) : t = u := by
  cases t
  cases u
  simp_all

theorem mem_entries_iff (t : Table κ α) (k : κ) (a : α) :
    (k, a) ∈ t.entries ↔ t.get? k = some a :=
  (lookup_eq_some_iff k a t.nodup).symm

@[simp] theorem get?_empty (k : κ) : (∅ : Table κ α).get? k = none := rfl

theorem get?_insert (t : Table κ α) (k l : κ) (a : α) :
    (t.insert k a).get? l = if l = k then some a else t.get? l :=
  lookup_setEntry k l a t.entries

theorem get?_alter (t : Table κ α) (k l : κ) (f : Option α → α) :
    (t.alter k f).get? l = if l = k then some (f (t.get? k)) else t.get? l :=
  t.get?_insert k l _

theorem get?_insertIfNew (t : Table κ α) (k l : κ) (a : α) :
    (t.insertIfNew k a).get? l = (t.get? l).or (if l = k then some a else none) := by
  unfold insertIfNew contains
  cases h : t.get? k with
  | some b =>
    by_cases hl : l = k
    · subst hl
      simp [h]
    · simp [hl]
  | none =>
    by_cases hl : l = k
    · subst hl
      simp [get?_insert, h]
    · simp [get?_insert, hl]

@[simp] theorem insert_insert (t : Table κ α) (k : κ) (a b : α) :
    (t.insert k a).insert k b = t.insert k b :=
  ext (setEntry_setEntry k a b t.entries)

end Table

end EventQuery
