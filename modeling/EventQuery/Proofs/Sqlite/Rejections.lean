import EventQuery.Proofs.Backend.CriteriaText
import EventQuery.Proofs.Decimal.Literals
import EventQuery.Proofs.Sqlite.Placeholders

/-!
# What SQLite cannot express

A leaf is refused for a key in its path, for a regular expression, or for an operand that cannot be
bound to the type of the field; all other leaves are compiled. A criterion is refused for the first
leaf that is, since conditions can always be joined. What is bound is the operand itself, but the
number that it stands for when it is text compared with numbers.
-/

namespace EventQuery

namespace Sqlite

/-- What is bound for an operand that is compared with values of a type. -/
inductive BindsTo : Value → ValueType → Value → Prop
  | bool {b : Bool} {type : ValueType} : BindsTo (.bool b) type (.bool b)
  | int {n : Int64} {type : ValueType} : BindsTo (.int n) type (.int n)
  | float {x : Binary64} {type : ValueType} (finite : x.isFinite = true) :
      BindsTo (.float x) type (.float x)
  | text {t : String} {type : ValueType} (integer : type ≠ .integer) (float : type ≠ .float) :
      BindsTo (.text t) type (.text t)
  | integerText {t : String} {n : Int64} (h : Digits.IsInteger (Text.trim t.toList) n.toInt) :
      BindsTo (.text t) .integer (.int n)
  | floatText {t : String} {x : Binary64} (h : Binary64.IsNumeral (Text.trim t.toList) x)
      (finite : x.isFinite = true) : BindsTo (.text t) .float (.float x)

/-- Why nothing can be bound for an operand. -/
inductive Unbindable : Value → ValueType → Refusal → Prop
  | notAnInteger {t : String} (h : ∀ n : Int64, ¬Digits.IsInteger (Text.trim t.toList) n.toInt) :
      Unbindable (.text t) .integer .notAnInteger
  | notANumber {t : String} (h : ∀ x, ¬Binary64.IsNumeral (Text.trim t.toList) x) :
      Unbindable (.text t) .float .notANumber
  | notFiniteText {t : String} {x : Binary64} (h : Binary64.IsNumeral (Text.trim t.toList) x)
      (infinite : x.isFinite = false) : Unbindable (.text t) .float .notFinite
  | notFinite {x : Binary64} {type : ValueType} (infinite : x.isFinite = false) :
      Unbindable (.float x) type .notFinite

/-- The leaf can be compiled for a field of the type. -/
structure Supports (l : Leaf) (type : ValueType) : Prop where
  unkeyed : ∀ x ∈ l.path.segments, ∀ k, x.index ≠ some (.key k)
  plain : ∀ v ∈ l.operand, l.operator.isRegex = false
  bindable : ∀ v ∈ l.operand, l.operator.isContainment = false → ∃ w, BindsTo v type w

/-- Why the leaf cannot be compiled for a field of the type. A key in the path comes before all
else. -/
inductive Rejects (l : Leaf) (type : ValueType) : Refusal → Prop
  | keyIndex {x : Segment} {k : String} (hx : x ∈ l.path.segments)
      (keyed : x.index = some (.key k)) : Rejects l type .keyIndex
  | regex {v : Value} (unkeyed : ∀ x ∈ l.path.segments, ∀ k, x.index ≠ some (.key k))
      (operand : v ∈ l.operand) (operator : l.operator.isRegex = true) : Rejects l type .regex
  | operand {v : Value} {reason : Refusal}
      (unkeyed : ∀ x ∈ l.path.segments, ∀ k, x.index ≠ some (.key k)) (operand : v ∈ l.operand)
      (plain : l.operator.isRegex = false) (whole : l.operator.isContainment = false)
      (h : Unbindable v type reason) : Rejects l type reason

/-! ## Binding -/

theorem bindFloat_ok_iff {x : Binary64} {w : Value} :
    bindFloat x = .ok w ↔ x.isFinite = true ∧ w = .float x := by
  cases h : x.isFinite <;> simp [bindFloat, h, eq_comm]

theorem bindFloat_error_iff {x : Binary64} {reason : Refusal} :
    bindFloat x = .error reason ↔ x.isFinite = false ∧ reason = .notFinite := by
  cases h : x.isFinite <;> simp [bindFloat, h, eq_comm]

theorem elim_error_eq_ok_iff {α β : Type} {x? : Option α} {reason : Refusal}
    {f : α → Except Refusal β} {b : β} :
    x?.elim (.error reason) f = .ok b ↔ ∃ a, x? = some a ∧ f a = .ok b := by
  cases x? <;> simp

theorem elim_error_eq_error_iff {α β : Type} {x? : Option α} {reason reason' : Refusal}
    {f : α → Except Refusal β} :
    x?.elim (.error reason) f = .error reason' ↔
      (∀ a, x? ≠ some a) ∧ reason' = reason ∨ ∃ a, x? = some a ∧ f a = .error reason' := by
  cases x? <;> simp [eq_comm]

theorem bind_integer_text (t : String) :
    bind (.text t) .integer = (Digits.readInt64? (Text.trim t.toList)).elim (.error .notAnInteger)
      fun n => .ok (.int n) := by
  simp only [bind]
  cases Digits.readInt64? (Text.trim t.toList) <;> rfl

theorem bind_float_text (t : String) :
    bind (.text t) .float = (Binary64.read? (Text.trim t.toList)).elim (.error .notANumber)
      bindFloat := by
  simp only [bind]
  cases Binary64.read? (Text.trim t.toList) <;> rfl

theorem bind_ok_iff {v : Value} {type : ValueType} {w : Value} :
    bind v type = .ok w ↔ BindsTo v type w := by
  constructor
  · intro h
    cases v with
    | bool b =>
        cases h
        exact .bool
    | int n =>
        cases h
        exact .int
    | float x =>
        obtain ⟨hfinite, rfl⟩ := bindFloat_ok_iff.1 h
        exact .float hfinite
    | text t =>
        cases type with
        | integer =>
            rw [bind_integer_text, elim_error_eq_ok_iff] at h
            obtain ⟨n, hread, h⟩ := h
            cases h
            exact .integerText (Digits.readInt64?_eq_some_iff.1 hread)
        | float =>
            rw [bind_float_text, elim_error_eq_ok_iff] at h
            obtain ⟨x, hread, h⟩ := h
            obtain ⟨hfinite, rfl⟩ := bindFloat_ok_iff.1 h
            exact .floatText (Binary64.read?_eq_some_iff.1 hread) hfinite
        | _ =>
            cases h
            exact .text nofun nofun
  · intro h
    cases h with
    | bool => rfl
    | int => rfl
    | float finite => exact bindFloat_ok_iff.2 ⟨finite, rfl⟩
    | text integer float => cases type <;> first | rfl | contradiction
    | integerText h =>
        rw [bind_integer_text, elim_error_eq_ok_iff]
        exact ⟨_, Digits.readInt64?_eq_some_iff.2 h, rfl⟩
    | floatText h finite =>
        rw [bind_float_text, elim_error_eq_ok_iff]
        exact ⟨_, Binary64.read?_eq_some_iff.2 h, bindFloat_ok_iff.2 ⟨finite, rfl⟩⟩

theorem bind_error_iff {v : Value} {type : ValueType} {reason : Refusal} :
    bind v type = .error reason ↔ Unbindable v type reason := by
  constructor
  · intro h
    cases v with
    | bool b => cases h
    | int n => cases h
    | float x =>
        obtain ⟨hinfinite, rfl⟩ := bindFloat_error_iff.1 h
        exact .notFinite hinfinite
    | text t =>
        cases type with
        | integer =>
            rw [bind_integer_text, elim_error_eq_error_iff] at h
            rcases h with ⟨hread, rfl⟩ | ⟨n, -, h⟩
            · exact .notAnInteger fun n hn => hread n (Digits.readInt64?_eq_some_iff.2 hn)
            · cases h
        | float =>
            rw [bind_float_text, elim_error_eq_error_iff] at h
            rcases h with ⟨hread, rfl⟩ | ⟨x, hread, h⟩
            · exact .notANumber fun x hx => hread x (Binary64.read?_eq_some_iff.2 hx)
            · obtain ⟨hinfinite, rfl⟩ := bindFloat_error_iff.1 h
              exact .notFiniteText (Binary64.read?_eq_some_iff.1 hread) hinfinite
        | _ => cases h
  · intro h
    cases h with
    | notAnInteger h =>
        rw [bind_integer_text, elim_error_eq_error_iff]
        exact Or.inl ⟨fun n hn => h n (Digits.readInt64?_eq_some_iff.1 hn), rfl⟩
    | notANumber h =>
        rw [bind_float_text, elim_error_eq_error_iff]
        exact Or.inl ⟨fun x hx => h x (Binary64.read?_eq_some_iff.1 hx), rfl⟩
    | notFiniteText h infinite =>
        rw [bind_float_text, elim_error_eq_error_iff]
        exact Or.inr ⟨_, Binary64.read?_eq_some_iff.2 h, bindFloat_error_iff.2 ⟨infinite, rfl⟩⟩
    | notFinite infinite => exact bindFloat_error_iff.2 ⟨infinite, rfl⟩

theorem BindsTo.exists_int_of_text {t : String} {type : ValueType} {w : Value}
    (h : BindsTo (.text t) type w) (htype : type = .integer) : ∃ n, w = .int n := by
  cases h with
  | text hinteger => exact absurd htype hinteger
  | integerText => exact ⟨_, rfl⟩
  | floatText => cases htype

theorem BindsTo.exists_float_of_text {t : String} {type : ValueType} {w : Value}
    (h : BindsTo (.text t) type w) (htype : type = .float) : ∃ x, w = .float x := by
  cases h with
  | text _ hfloat => exact absurd htype hfloat
  | integerText => cases htype
  | floatText => exact ⟨_, rfl⟩

/-! ## Comparing -/

theorem comparison_of_isRegex {k : Comparison} (h : k.isRegex = true) (v : Value)
    (type : ValueType) : comparison k v type = .error .regex := by
  rcases k with ⟨r, negated, caseless⟩ | o
  · cases r with
    | regex => rfl
    | _ => cases h
  · cases h

theorem exists_comparison_of_isContainment {k : Comparison} (h : k.isContainment = true)
    (v : Value) (type : ValueType) : ∃ test param, comparison k v type = .ok (test, param) := by
  rcases k with ⟨r, negated, caseless⟩ | o
  · cases r with
    | contains => cases negated <;> cases caseless <;> exact ⟨_, _, rfl⟩
    | _ => cases h
  · cases h

/-- All other comparisons bind the operand. -/
theorem exists_comparison_eq_bind {k : Comparison} (plain : k.isRegex = false)
    (whole : k.isContainment = false) (v : Value) (type : ValueType) :
    ∃ test, comparison k v type = (bind v type).map fun w => (test, w) := by
  rcases k with ⟨r, negated, caseless⟩ | o
  · cases r with
    | equal => cases negated <;> cases caseless <;> exact ⟨_, rfl⟩
    | contains => cases whole
    | regex => cases plain
  · cases o <;> exact ⟨_, rfl⟩

/-! ## Leaves -/

section Leaves

variable {l : Leaf} {type : ValueType}

/-- A test for a value always succeeds, and a comparison if its operator and its operand do. -/
theorem exists_leafTest_ok_iff
    (hl : (l.operand = none → l.operator = .equal ∨ l.operator = .notEqual) ∧
      (l.operand.isSome → l.operator.isConnective = false)) :
    (∃ t, leafTest l type = .ok t) ↔ ∀ v ∈ l.operand, l.operator.isRegex = false ∧
      (l.operator.isContainment = false → ∃ w, BindsTo v type w) := by
  obtain ⟨path, operator, _ | v⟩ := l
  · refine ⟨fun _ => nofun, fun _ => ?_⟩
    rcases hl.1 rfl with rfl | rfl <;> exact ⟨_, rfl⟩
  cases operator with
  | connective j => cases hl.2 rfl
  | comparison k =>
      have htest : (∃ t, leafTest ⟨path, .comparison k, some v⟩ type = .ok t) ↔
          ∃ p, comparison k v type = .ok p := by
        constructor
        · rintro ⟨t, ht⟩
          obtain ⟨p, hp, -⟩ := map_eq_ok_iff.1 ht
          exact ⟨p, hp⟩
        · rintro ⟨p, hp⟩
          exact ⟨_, map_eq_ok_iff.2 ⟨p, hp, rfl⟩⟩
      simp only [htest, Option.mem_some, forall_eq']
      show _ ↔ k.isRegex = false ∧ (k.isContainment = false → _)
      cases hregex : k.isRegex with
      | true => simp [comparison_of_isRegex hregex]
      | false =>
          cases hcontains : k.isContainment with
          | true =>
              obtain ⟨test, param, hok⟩ := exists_comparison_of_isContainment hcontains v type
              simp [hok]
          | false =>
              obtain ⟨test, hbind⟩ := exists_comparison_eq_bind hregex hcontains v type
              simp [hbind, map_eq_ok_iff, bind_ok_iff]

/-- A comparison fails for its operator or for its operand. -/
theorem leafTest_error_iff
    (hl : (l.operand = none → l.operator = .equal ∨ l.operator = .notEqual) ∧
      (l.operand.isSome → l.operator.isConnective = false)) {reason : Refusal} :
    leafTest l type = .error reason ↔ ∃ v ∈ l.operand,
      l.operator.isRegex = true ∧ reason = .regex ∨
        l.operator.isRegex = false ∧ l.operator.isContainment = false ∧
          Unbindable v type reason := by
  obtain ⟨path, operator, _ | v⟩ := l
  · refine ⟨fun h => ?_, nofun⟩
    rcases hl.1 rfl with rfl | rfl <;> cases h
  cases operator with
  | connective j => cases hl.2 rfl
  | comparison k =>
      have htest : leafTest ⟨path, .comparison k, some v⟩ type = .error reason ↔
          comparison k v type = .error reason := map_eq_error_iff
      simp only [htest, Option.mem_some, exists_eq_left']
      show _ ↔ k.isRegex = true ∧ _ ∨ k.isRegex = false ∧ k.isContainment = false ∧ _
      cases hregex : k.isRegex with
      | true => simpa [comparison_of_isRegex hregex] using eq_comm
      | false =>
          cases hcontains : k.isContainment with
          | true =>
              obtain ⟨test, param, hok⟩ := exists_comparison_of_isContainment hcontains v type
              simp [hok]
          | false =>
              obtain ⟨test, hbind⟩ := exists_comparison_eq_bind hregex hcontains v type
              simp [hbind, map_eq_error_iff, bind_error_iff]

variable {document : List Char} {x : LeafContext}

theorem exists_column?_iff {p : Path} {openLists : List Nat} :
    (∃ c, column? p openLists = some c) ↔ ∀ x ∈ p.segments, ∀ k, x.index ≠ some (.key k) := by
  rw [← Option.isSome_iff_exists]
  exact isSome_columnFrom_iff

theorem exists_compileLeaf_ok_iff
    (hl : (l.operand = none → l.operator = .equal ∨ l.operator = .notEqual) ∧
      (l.operand.isSome → l.operator.isConnective = false)) :
    (∃ q, compileLeaf document l x = .ok q) ↔ Supports l x.field.type := by
  constructor
  · rintro ⟨q, hq⟩
    obtain ⟨c, test, hc, htest, -⟩ := eq_overSources_of_compileLeaf_ok hq
    have hcomparable := (exists_leafTest_ok_iff hl).1 ⟨_, htest⟩
    exact ⟨exists_column?_iff.1 ⟨c, hc⟩, fun v hv => (hcomparable v hv).1,
      fun v hv => (hcomparable v hv).2⟩
  · intro h
    obtain ⟨c, hc⟩ := exists_column?_iff.2 h.unkeyed
    obtain ⟨t, ht⟩ := (exists_leafTest_ok_iff hl).2 fun v hv => ⟨h.plain v hv, h.bindable v hv⟩
    rw [compileLeaf_of_column hc]
    exact ⟨_, map_eq_ok_iff.2 ⟨t, ht, rfl⟩⟩

/-- The column is looked for before the test. -/
theorem compileLeaf_error_iff
    (hl : (l.operand = none → l.operator = .equal ∨ l.operator = .notEqual) ∧
      (l.operand.isSome → l.operator.isConnective = false)) {reason : Refusal} :
    compileLeaf document l x = .error reason ↔ Rejects l x.field.type reason := by
  cases hc : column? l.path x.openLists with
  | none =>
      have hkeyed : ¬∀ y ∈ l.path.segments, ∀ k, y.index ≠ some (.key k) := by
        rw [← exists_column?_iff, hc]
        exact fun ⟨c, h⟩ => nomatch h
      have hfails : compileLeaf document l x = .error .keyIndex := by rw [compileLeaf, hc]
      rw [hfails]
      constructor
      · intro h
        cases h
        push Not at hkeyed
        obtain ⟨y, hy, k, hk⟩ := hkeyed
        exact .keyIndex hy hk
      · intro h
        cases h with
        | keyIndex => rfl
        | regex unkeyed => exact absurd unkeyed hkeyed
        | operand unkeyed => exact absurd unkeyed hkeyed
  | some c =>
      have unkeyed := exists_column?_iff.1 ⟨c, hc⟩
      rw [compileLeaf_of_column hc, map_eq_error_iff, leafTest_error_iff hl]
      constructor
      · rintro ⟨v, hv, ⟨hregex, rfl⟩ | ⟨hregex, hwhole, h⟩⟩
        · exact .regex unkeyed hv hregex
        · exact .operand unkeyed hv hregex hwhole h
      · intro h
        cases h with
        | keyIndex hx keyed => exact absurd keyed (unkeyed _ hx _)
        | regex _ hv hregex => exact ⟨_, hv, Or.inl ⟨hregex, rfl⟩⟩
        | operand _ hv hregex hwhole h => exact ⟨_, hv, Or.inr ⟨hregex, hwhole, h⟩⟩

theorem bindsTo_of_compileLeaf_ok {q : SqlCondition} (h : compileLeaf document l x = .ok q)
    {v : Value} (hv : v ∈ l.operand) (whole : l.operator.isContainment = false) :
    ∃ w, q.params = [w] ∧ BindsTo v x.field.type w := by
  obtain ⟨c, test, -, htest, -⟩ := eq_overSources_of_compileLeaf_ok h
  rcases leafTest_cases htest with ⟨hnone, -⟩ | ⟨k, v', text, param, hk, hv', hcompare, -, hparams⟩
  · rw [hnone] at hv
    cases hv
  · cases hv.symm.trans hv'
    rw [hk] at whole
    have hplain : k.isRegex = false := by
      rw [Bool.eq_false_iff]
      intro hregex
      rw [comparison_of_isRegex hregex] at hcompare
      cases hcompare
    obtain ⟨test', hbind⟩ := exists_comparison_eq_bind hplain whole v x.field.type
    obtain ⟨w, hw, heq⟩ := map_eq_ok_iff.1 (hbind ▸ hcompare)
    cases heq
    exact ⟨_, hparams, bind_ok_iff.1 hw⟩

end Leaves

end Sqlite

namespace EntitySchema

open Sqlite

variable {s : EntitySchema} {document : String}

/-- The leaf is about a field and can be compiled for it. -/
def SupportsLeaf (s : EntitySchema) (l : Leaf) : Prop :=
  ∃ f, s.field? l.path = some f ∧ Supports l f.type

theorem joinsAll_sqlite (document : String) : (Backend.sqlite document).JoinsAll :=
  fun c qs => ⟨joinConditions c qs, rfl⟩

theorem exists_lowerLeaf_sqlite_ok_iff {l : Leaf}
    (hl : (l.operand = none → l.operator = .equal ∨ l.operator = .notEqual) ∧
      (l.operand.isSome → l.operator.isConnective = false)) :
    (∃ q, s.lowerLeaf (Backend.sqlite document) l = .ok q) ↔ s.SupportsLeaf l := by
  constructor
  · rintro ⟨q, hq⟩
    obtain ⟨f, hf, hcompile⟩ := lowerLeaf_sqlite_ok_iff.1 hq
    exact ⟨f, s.resolve_ok_iff.1 hf, (exists_compileLeaf_ok_iff hl).1 ⟨q, hcompile⟩⟩
  · rintro ⟨f, hf, hsupports⟩
    have hcompile : ∃ q, compileLeaf document.toList l ⟨s.name, f, s.openLists l.path⟩ = .ok q :=
      (exists_compileLeaf_ok_iff hl).2 hsupports
    obtain ⟨q, hcompile⟩ := hcompile
    exact ⟨q, lowerLeaf_sqlite_ok_iff.2 ⟨f, s.resolve_ok_iff.2 hf, hcompile⟩⟩

theorem lowerLeaf_sqlite_error_iff {l : Leaf} {f : Field} (hf : s.field? l.path = some f)
    (hl : (l.operand = none → l.operator = .equal ∨ l.operator = .notEqual) ∧
      (l.operand.isSome → l.operator.isConnective = false)) {e : QueryError} :
    s.lowerLeaf (Backend.sqlite document) l = .error e ↔
      ∃ reason, Rejects l f.type reason ∧ e = .notCompilable "sqlite" l.text reason.reason := by
  have hresolve := s.resolve_ok_iff.2 hf
  rw [lowerLeaf, hresolve]
  show (Sqlite.compileLeaf document.toList l ⟨s.name, f, s.openLists l.path⟩).mapError _ = _ ↔ _
  simp only [mapError_eq_error_iff, compileLeaf_error_iff hl, eq_comm (b := e)]

/-- Compiling a prepared criterion is lowering it. -/
theorem compile_of_prepare_ok {ε : Type} {b : Backend ε} {c r : Criterion}
    (hr : s.prepare c = .ok r) : s.compile b c = s.lower b r := by
  rw [compile, hr]
  rfl

/-- The parameters of a criterion are those of its leaves. -/
theorem params_of_lower_ok {r : Criterion} {q? : Option SqlCondition}
    (h : s.lower (Backend.sqlite document) r = .ok q?) :
    ∃ qs, s.LowersTo document r.leaves qs ∧
      q?.elim [] (·.params) = qs.flatMap (·.params) := by
  obtain ⟨groups, hgroups, hleaves⟩ := exists_madeOf_of_lower_ok h
  refine ⟨groups.flatten, hleaves, ?_⟩
  rw [← flatMap_params_of_madeOf hgroups]
  cases q? <;> simp

/-- A criterion compiles exactly if each of its prepared leaves is supported. The error is about the
first that is not, and tells of a key in its path before all else. What is bound for an operand,
unless it is a pattern, is the operand or a number that it spells: a number always, where text meets
a field of numbers. -/
theorem sqlite_rejects_unsupported {c r : Criterion} (hr : s.prepare c = .ok r)
    (comparing : ∀ l ∈ c.leaves, l.operand.isSome → l.operator.isConnective = false) :
    ((∃ q?, s.compile (Backend.sqlite document) c = .ok q?) ↔ ∀ l ∈ r.leaves, s.SupportsLeaf l) ∧
      (∀ e, s.compile (Backend.sqlite document) c = .error e ↔
        ∃ before l after f reason, r.leaves = before ++ l :: after ∧
          (∀ m ∈ before, s.SupportsLeaf m) ∧ s.field? l.path = some f ∧
          Rejects l f.type reason ∧ e = .notCompilable "sqlite" l.text reason.reason) ∧
      ∀ q?, s.compile (Backend.sqlite document) c = .ok q? →
        ∃ qs, q?.elim [] (·.params) = qs.flatMap (·.params) ∧
          List.Forall₂ (fun l q => s.lowerLeaf (Backend.sqlite document) l = .ok q ∧
            ∀ v ∈ l.operand, l.operator.isContainment = false →
              ∃ f w, s.field? l.path = some f ∧ q.params = [w] ∧ BindsTo v f.type w ∧
                ∀ t, v = .text t → (f.type = .integer → ∃ n, w = .int n) ∧
                  (f.type = .float → ∃ x, w = .float x)) r.leaves qs := by
  have hleaves := operator_of_prepare_ok hr comparing
  have hfields : ∀ l ∈ r.leaves, ∃ f, s.field? l.path = some f := fun l hl =>
    (s.resolve_of_prepare_ok hr l hl).imp fun f hf => s.resolve_ok_iff.1 hf
  rw [compile_of_prepare_ok hr]
  refine ⟨?_, fun e => ?_, fun q? h => ?_⟩
  · rw [s.exists_lower_ok_iff (joinsAll_sqlite document)]
    exact forall₂_congr fun l hl => exists_lowerLeaf_sqlite_ok_iff (hleaves l hl)
  · rw [s.lower_eq_error_iff (joinsAll_sqlite document)]
    constructor
    · rintro ⟨before, l, after, hr', hbefore, hl⟩
      have hmem : l ∈ r.leaves := hr' ▸ List.mem_append_right before List.mem_cons_self
      obtain ⟨f, hf⟩ := hfields l hmem
      obtain ⟨reason, hrejects, rfl⟩ := (lowerLeaf_sqlite_error_iff hf (hleaves l hmem)).1 hl
      refine ⟨before, l, after, f, reason, hr', fun m hm => ?_, hf, hrejects, rfl⟩
      have hm' : m ∈ r.leaves := hr' ▸ List.mem_append_left _ hm
      exact (exists_lowerLeaf_sqlite_ok_iff (hleaves m hm')).1 (hbefore m hm)
    · rintro ⟨before, l, after, f, reason, hr', hbefore, hf, hrejects, rfl⟩
      have hmem : l ∈ r.leaves := hr' ▸ List.mem_append_right before List.mem_cons_self
      refine ⟨before, l, after, hr', fun m hm => ?_, ?_⟩
      · have hm' : m ∈ r.leaves := hr' ▸ List.mem_append_left _ hm
        exact (exists_lowerLeaf_sqlite_ok_iff (hleaves m hm')).2 (hbefore m hm)
      · exact (lowerLeaf_sqlite_error_iff hf (hleaves l hmem)).2 ⟨reason, hrejects, rfl⟩
  · obtain ⟨qs, hqs, hparams⟩ := params_of_lower_ok h
    refine ⟨qs, hparams, hqs.imp fun l q hq => ⟨hq, fun v hv hwhole => ?_⟩⟩
    obtain ⟨f, hf, hcompile⟩ := lowerLeaf_sqlite_ok_iff.1 hq
    obtain ⟨w, hw, hbinds⟩ := bindsTo_of_compileLeaf_ok hcompile hv hwhole
    refine ⟨f, w, s.resolve_ok_iff.1 hf, hw, hbinds, ?_⟩
    rintro t rfl
    exact ⟨hbinds.exists_int_of_text, hbinds.exists_float_of_text⟩

/-- Text that spells an integer, and a pattern; then a key in the path of a leaf that also has a
regular expression, before a leaf whose text spells no integer. -/
theorem sqlite_rejects_unsupported_keyed :
    let s := ((empty "event").declareField (.single "name") (.ofType .text)).declareField
      (.single "count") (.ofType .integer)
    let number (o : Operator) (t : String) : Criterion := .leaf ⟨.single "count", o, some (.text t)⟩
    let accepted : Criterion := .join .and [number (.comparison (.order .less)) " +12 ",
      .leaf ⟨.single "name", .comparison (.relation .contains false false), some (.text "x")⟩]
    let keyed : Leaf :=
      ⟨⟨[⟨"name", some (.key "k")⟩], by simp⟩, .comparison (.relation .regex false false),
        some (.text "x")⟩
    let rejected : Criterion := .join .or [number .equal "12", .leaf keyed, number .equal "x"]
    (∀ l ∈ accepted.leaves, l.operand.isSome → l.operator.isConnective = false) ∧
      (∀ l ∈ rejected.leaves, l.operand.isSome → l.operator.isConnective = false) ∧
      (∃ r q, s.prepare accepted = .ok r ∧ (∀ l ∈ r.leaves, s.SupportsLeaf l) ∧
        s.compile (Backend.sqlite "document") accepted = .ok (some q) ∧
        q.params = [.int 12, .text "*x*"]) ∧
      ∃ r, s.prepare rejected = .ok r ∧
        s.compile (Backend.sqlite "document") rejected = .error (.notCompilable "sqlite"
          "name(\"k\") ~ \"x\"" "string-keyed list indices are not supported") := by
  intro s number accepted keyed rejected
  have comparing : ∀ l ∈ accepted.leaves, l.operand.isSome → l.operator.isConnective = false := by
    decide
  have comparing' : ∀ l ∈ rejected.leaves, l.operand.isSome → l.operator.isConnective = false := by
    decide
  refine ⟨comparing, comparing', ?_, ?_⟩
  · have hcompile : (s.compile (Backend.sqlite "document") accepted).toOption.any (fun q? =>
        q?.any fun q => decide (q.params = [.int 12, .text "*x*"])) = true := by
      decide +kernel
    obtain ⟨q?, hcompile, hfacts⟩ := exists_ok_of_any hcompile
    obtain ⟨q, rfl, hparams⟩ := (Option.any_eq_true _ _).1 hfacts
    obtain ⟨r, hr, -⟩ := bind_eq_ok_iff.1 hcompile
    have hsupports := (sqlite_rejects_unsupported hr comparing).1.1 ⟨some q, hcompile⟩
    exact ⟨r, q, hr, hsupports, hcompile, of_decide_eq_true hparams⟩
  · let first : Leaf := ⟨.single "count", .equal, some (.text "12")⟩
    let last : Leaf := ⟨.single "count", .equal, some (.text "x")⟩
    have hr : (s.prepare rejected).toOption.any
        (fun r => decide (r.leaves = [first] ++ keyed :: [last])) = true := by
      decide +kernel
    obtain ⟨r, hr, hleaves⟩ := exists_ok_of_any hr
    have hfirst : s.SupportsLeaf first := by
      refine ⟨.ofType .integer, by decide, by simp [first, Path.single, Segment.plain], ?_, ?_⟩
      · exact fun _ _ => rfl
      · rintro v hv -
        cases hv
        exact ⟨.int 12, .integerText (Digits.readInt64?_eq_some_iff.1 (by decide))⟩
    refine ⟨r, hr, ((sqlite_rejects_unsupported hr comparing').2.1 _).2 ?_⟩
    refine ⟨[first], keyed, [last], .ofType .text, .keyIndex, of_decide_eq_true hleaves, ?_,
      by decide, .keyIndex List.mem_cons_self rfl, by decide⟩
    exact List.forall_mem_singleton.2 hfirst

end EntitySchema

end EventQuery
