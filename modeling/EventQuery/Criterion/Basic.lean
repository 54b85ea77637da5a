import EventQuery.Operator
import EventQuery.Path.Basic
import EventQuery.Value

/-!
# Criteria

A criterion is a condition on an event: none at all, a single comparison, or criteria joined by a
connective. There is no negation node. A comparison is negated through its operator, joined criteria
through the connective and every operand.

`flatten` gives the normal form: no operand is empty or is joined by the connective of the criterion
it belongs to, and every join has at least two operands.
-/

namespace EventQuery

/-- One comparison. Without an operand it tests whether the path has a value: `equal` asks for none,
`notEqual` for one. -/
structure Leaf where
  path : Path
  operator : Operator
  operand : Option Value
  deriving DecidableEq

inductive Criterion where
  /-- No condition. -/
  | empty
  | leaf (l : Leaf)
  | join (c : Connective) (operands : List Criterion)

namespace Leaf

/-- The path has a value. -/
def present (path : Path) : Leaf := ⟨path, .notEqual, none⟩

/-- The path has no value. -/
def absent (path : Path) : Leaf := ⟨path, .equal, none⟩

/-- The leaf excludes events rather than selecting them: its operator is negated, or it asks for the
absence of a value. -/
def isNegative (l : Leaf) : Bool :=
  if l.operand.isSome then l.operator.isNegated else !l.operator.isNegated

def negate (l : Leaf) : Leaf := { l with operator := l.operator.negate }

/-- Equality with operands compared as values. -/
def same (l m : Leaf) : Bool :=
  l.path == m.path && l.operator == m.operator &&
    match l.operand, m.operand with
    | none, none => true
    | some v, some w => v.same w
    | _, _ => false

@[simp] theorem negate_path (l : Leaf) : l.negate.path = l.path := rfl

@[simp] theorem negate_operand (l : Leaf) : l.negate.operand = l.operand := rfl

@[simp] theorem negate_negate (l : Leaf) : l.negate.negate = l := by simp [negate]

end Leaf

namespace Criterion

def isEmpty : Criterion → Bool
  | empty => true
  | _ => false

/-- Two criteria under one connective; an empty one adds nothing. -/
def combine (c : Connective) : Criterion → Criterion → Criterion
  | empty, b => b
  | a, empty => a
  | a, b => join c [a, b]

def and : Criterion → Criterion → Criterion := combine .and

def or : Criterion → Criterion → Criterion := combine .or

/-- What a flat criterion contributes to a join by `c`: its own operands if it has the same
connective, nothing if it is empty. -/
def operandsUnder (c : Connective) : Criterion → List Criterion
  | empty => []
  | leaf l => [leaf l]
  | join d ds => if d = c then ds else [join d ds]

/-- The join of flat operands, where a single one stands for itself. -/
def joinAll (c : Connective) : List Criterion → Criterion
  | [] => empty
  | [a] => a
  | as => join c as

mutual

/-- The normal form: nested joins by one connective become one, and empty operands go. -/
def flatten : Criterion → Criterion
  | empty => empty
  | leaf l => leaf l
  | join c cs => joinAll c (flattenOperands c cs)

/-- The operands of the normal form of a join by `c`. -/
def flattenOperands (c : Connective) : List Criterion → List Criterion
  | [] => []
  | a :: as => a.flatten.operandsUnder c ++ flattenOperands c as

end

mutual

/-- The logical complement. -/
def negate : Criterion → Criterion
  | empty => empty
  | leaf l => leaf l.negate
  | join c cs => join c.negate (negateAll cs)

def negateAll : List Criterion → List Criterion
  | [] => []
  | a :: as => a.negate :: negateAll as

end

mutual

/-- The leaves from left to right. -/
def leaves : Criterion → List Leaf
  | empty => []
  | leaf l => [l]
  | join _ cs => leavesOfAll cs

def leavesOfAll : List Criterion → List Leaf
  | [] => []
  | a :: as => a.leaves ++ leavesOfAll as

end

mutual

/-- Replaces every leaf by a criterion that may fail to be found, from left to right up to the first
error. -/
def mapLeaves {ε : Type} (f : Leaf → Except ε Criterion) : Criterion → Except ε Criterion
  | empty => .ok empty
  | leaf l => f l
  | join c cs => do
    let mapped ← mapLeavesOfAll f cs
    return join c mapped

def mapLeavesOfAll {ε : Type} (f : Leaf → Except ε Criterion) :
    List Criterion → Except ε (List Criterion)
  | [] => .ok []
  | a :: as => do
    let b ← a.mapLeaves f
    let bs ← mapLeavesOfAll f as
    return b :: bs

end

mutual

/-- Replaces every leaf by a criterion. -/
def substitute (f : Leaf → Criterion) : Criterion → Criterion
  | empty => empty
  | leaf l => f l
  | join c cs => join c (substituteAll f cs)

def substituteAll (f : Leaf → Criterion) : List Criterion → List Criterion
  | [] => []
  | a :: as => a.substitute f :: substituteAll f as

end

mutual

/-- Equality with operands compared as values. -/
def same : Criterion → Criterion → Bool
  | empty, empty => true
  | leaf l, leaf m => l.same m
  | join c as, join d bs => c == d && sameAll as bs
  | _, _ => false

def sameAll : List Criterion → List Criterion → Bool
  | [], [] => true
  | a :: as, b :: bs => a.same b && sameAll as bs
  | _, _ => false

end

@[simp] theorem combine_empty_left (c : Connective) (a : Criterion) : combine c empty a = a := by
  cases a <;> rfl

@[simp] theorem combine_empty_right (c : Connective) (a : Criterion) : combine c a empty = a := by
  cases a <;> rfl

theorem flattenOperands_eq (c : Connective) (cs : List Criterion) :
    flattenOperands c cs = cs.flatMap fun a => a.flatten.operandsUnder c := by
  induction cs with
  | nil => rfl
  | cons a as ih => simp [flattenOperands, ih]

@[simp] theorem negateAll_eq (cs : List Criterion) : negateAll cs = cs.map negate := by
  induction cs with
  | nil => rfl
  | cons a as ih => simp [negateAll, ih]

@[simp] theorem leavesOfAll_eq (cs : List Criterion) : leavesOfAll cs = cs.flatMap leaves := by
  induction cs with
  | nil => rfl
  | cons a as ih => simp [leavesOfAll, ih]

end Criterion

end EventQuery
