import EventQuery.Proofs.Grammar.Paths
import EventQuery.Proofs.Json.Meaning
import EventQuery.Saved.Criterion

/-!
# Values and paths in saved queries

The kinds of values have data of different kinds, so that a value is told by its data alone, and a
path is told by its text. The other way around, whole numbers beyond 64 bits with a sign become
floating-point numbers; these are finite like all others that are read.
-/

namespace EventQuery

namespace Value

/-- The value is no infinity and no NaN. -/
def IsFinite (v : Value) : Prop := ∀ x, v = .float x → x.isFinite = true

/-- A finite number is read back from its text. -/
def ReadsBack (v : Value) : Prop := ∀ x, v = .float x → x.isFinite = true → Json.ReadsBack x

theorem ofData?_toData (v : Value) : ofData? v.toData = .ok v := by
  cases v with
  | bool b => rfl
  | int n => rw [toData, ofData?, Digits.int64?_toInt]
  | float x => rfl
  | text s => rfl

theorem depth_toData (v : Value) : v.toData.depth = 0 := by
  cases v <;> rfl

theorem covers_toData {v : Value} (finite : v.IsFinite) (reads : v.ReadsBack) :
    Json.Covers Json.ReadsBack v.toData := by
  cases v with
  | bool b => exact .bool b
  | int n =>
      have lower := n.le_toInt
      have upper := n.toInt_lt
      exact .int n.toInt (by omega) (by omega)
  | float x => exact .float x (reads x rfl (finite x rfl))
  | text s => exact .text s

/-- Values that are read are finite. -/
theorem isFinite_of_ofData? {d : Data} {v : Value}
    (covers : Json.Covers (fun x => x.isFinite = true) d) (h : ofData? d = .ok v) :
    v.IsFinite := by
  rintro x rfl
  cases covers with
  | float y hy =>
      cases h
      exact hy
  | int n lower upper =>
      rw [ofData?] at h
      split at h
      · cases h
      · rw [← Value.float.inj (Except.ok.inj h)]
        exact (Binary64.within_of_lt_two_pow _ (k := 64) (by omega) (by decide)).isFinite
  | null => cases h
  | bool b => cases h
  | text s => cases h
  | array items => cases h
  | record members => cases h

end Value

namespace Path

theorem ofData?_toData {p : Path} (h : p.HasFieldNames) : ofData? p.toData = .ok p := by
  refine bind_eq_ok_iff.2 ⟨p.text, rfl, ?_⟩
  rw [Path.parse_text h]
  rfl

theorem hasFieldNames_of_ofData? {d : Data} {p : Path} (h : ofData? d = .ok p) :
    p.HasFieldNames := by
  obtain ⟨text, -, h⟩ := bind_eq_ok_iff.1 h
  split at h
  · rename_i q hq
    cases h
    exact Path.hasFieldNames_of_parse hq
  · cases h

end Path

/-! ## Operands -/

/-- The data of an operand that may be missing. -/
def operandData (operand : Option Value) : Data := (operand.map Value.toData).getD .null

section Operand

variable {operand : Option Value}

theorem nullable_operandData (operand : Option Value) :
    Data.nullable Value.ofData? (operandData operand) = .ok operand := by
  cases operand with
  | none => rfl
  | some v =>
      have hsome : Data.nullable Value.ofData? v.toData = (Value.ofData? v.toData).map some := by
        cases v <;> rfl
      rw [operandData, Option.map_some, Option.getD_some, hsome, Value.ofData?_toData]
      rfl

theorem depth_operandData (operand : Option Value) : (operandData operand).depth = 0 := by
  cases operand with
  | none => rfl
  | some v => exact v.depth_toData

theorem covers_operandData (finite : ∀ v ∈ operand, v.IsFinite)
    (reads : ∀ v ∈ operand, v.ReadsBack) :
    Json.Covers Json.ReadsBack (operandData operand) := by
  cases operand with
  | none => exact .null
  | some v => exact Value.covers_toData (finite v rfl) (reads v rfl)

/-- What is read where an operand may be missing. -/
theorem ofData?_of_nullable {d : Data} {v : Value}
    (h : Data.nullable Value.ofData? d = .ok (some v)) : Value.ofData? d = .ok v := by
  rw [Data.nullable.eq_def] at h
  split at h
  · cases h
  · obtain ⟨w, hw, h⟩ := map_eq_ok_iff.1 h
    cases h
    exact hw

end Operand

end EventQuery
