/-!
# Operators

What a criterion compares with, and what joins criteria.

A comparison either tests one of three relations, possibly negated and possibly without regard to
case, or it orders two values; that makes sixteen. `all` lists them and `spellings` says how each is
written. Equality alone has two spellings.
-/

namespace EventQuery

/-- What a non-ordering comparison asks of the stored value. -/
inductive Relation where
  | equal
  | contains
  | regex
  deriving DecidableEq, Repr

inductive OrderTest where
  | less
  | lessOrEqual
  | greater
  | greaterOrEqual
  deriving DecidableEq, Repr

inductive Comparison where
  | relation (r : Relation) (negated caseless : Bool)
  | order (o : OrderTest)
  deriving DecidableEq, Repr

/-- Joins criteria. -/
inductive Connective where
  | and
  | or
  deriving DecidableEq, Repr

/-- Anything that has a token. A leaf of a saved criterion may carry a connective. -/
inductive Operator where
  | comparison (c : Comparison)
  | connective (c : Connective)
  deriving DecidableEq, Repr

namespace OrderTest

/-- The opposite test. -/
def negate : OrderTest → OrderTest
  | less => greaterOrEqual
  | lessOrEqual => greater
  | greater => lessOrEqual
  | greaterOrEqual => less

@[simp] theorem negate_negate (o : OrderTest) : o.negate.negate = o := by cases o <;> rfl

end OrderTest

namespace Comparison

def equal : Comparison := .relation .equal false false

def notEqual : Comparison := .relation .equal true false

/-- The canonical spelling. -/
def token : Comparison → String
  | relation .equal false false => "=="
  | relation .equal false true => "=*"
  | relation .equal true false => "!="
  | relation .equal true true => "!=*"
  | relation .contains false false => "<>"
  | relation .contains false true => "<>*"
  | relation .contains true false => "!<>"
  | relation .contains true true => "!<>*"
  | relation .regex false false => "~"
  | relation .regex false true => "~*"
  | relation .regex true false => "!~"
  | relation .regex true true => "!~*"
  | order .less => "<"
  | order .lessOrEqual => "<="
  | order .greater => ">"
  | order .greaterOrEqual => ">="

/-- All comparisons. -/
def all : List Comparison :=
  [relation .equal false false, relation .equal false true,
   relation .equal true false, relation .equal true true,
   relation .contains false false, relation .contains false true,
   relation .contains true false, relation .contains true true,
   relation .regex false false, relation .regex false true,
   relation .regex true false, relation .regex true true,
   order .less, order .lessOrEqual, order .greater, order .greaterOrEqual]

/-- Every spelling of a comparison, longer ones first, so that the first spelling that fits a text
is also the longest. -/
def spellings : List (String × Comparison) :=
  [("!<>*", relation .contains true true),
   ("!<>", relation .contains true false),
   ("<>*", relation .contains false true),
   ("!=*", relation .equal true true),
   ("!~*", relation .regex true true),
   ("==", relation .equal false false),
   ("=*", relation .equal false true),
   ("!=", relation .equal true false),
   ("<>", relation .contains false false),
   ("<=", order .lessOrEqual),
   (">=", order .greaterOrEqual),
   ("~*", relation .regex false true),
   ("!~", relation .regex true false),
   ("=", relation .equal false false),
   ("<", order .less),
   (">", order .greater),
   ("~", relation .regex false false)]

/-- The comparison with a given spelling. -/
def ofToken? (token : String) : Option Comparison := spellings.lookup token

/-- The comparison that holds of a present value exactly when this one does not. -/
def negate : Comparison → Comparison
  | relation r n c => relation r (!n) c
  | order o => order o.negate

def isNegated : Comparison → Bool
  | relation _ n _ => n
  | order _ => false

def isContainment : Comparison → Bool
  | relation .contains _ _ => true
  | _ => false

def isRegex : Comparison → Bool
  | relation .regex _ _ => true
  | _ => false

def isCaseless : Comparison → Bool
  | relation _ _ c => c
  | order _ => false

def isOrdering : Comparison → Bool
  | order _ => true
  | relation _ _ _ => false

theorem mem_all (c : Comparison) : c ∈ all := by
  rcases c with ⟨r, n, s⟩ | o
  · cases r <;> cases n <;> cases s <;> decide
  · cases o <;> decide

@[simp] theorem negate_negate (c : Comparison) : c.negate.negate = c := by
  cases c <;> simp [negate]

@[simp] theorem ofToken?_token (c : Comparison) : ofToken? c.token = some c := by
  rcases c with ⟨r, n, s⟩ | o
  · cases r <;> cases n <;> cases s <;> rfl
  · cases o <;> rfl

end Comparison

namespace Connective

def token : Connective → String
  | and => "&&"
  | or => "||"

/-- The connective of the negated operands. -/
def negate : Connective → Connective
  | and => or
  | or => and

@[simp] theorem negate_negate (c : Connective) : c.negate.negate = c := by cases c <;> rfl

end Connective

namespace Operator

def equal : Operator := .comparison .equal

def notEqual : Operator := .comparison .notEqual

def token : Operator → String
  | comparison c => c.token
  | connective c => c.token

/-- The operator with a given spelling. -/
def ofToken? (token : String) : Option Operator :=
  if token = "&&" then some (connective .and)
  else if token = "||" then some (connective .or)
  else (Comparison.ofToken? token).map comparison

/-- The logical complement. -/
def negate : Operator → Operator
  | comparison c => comparison c.negate
  | connective c => connective c.negate

def isNegated : Operator → Bool
  | comparison c => c.isNegated
  | connective _ => false

def isContainment : Operator → Bool
  | comparison c => c.isContainment
  | connective _ => false

def isRegex : Operator → Bool
  | comparison c => c.isRegex
  | connective _ => false

def isCaseless : Operator → Bool
  | comparison c => c.isCaseless
  | connective _ => false

def isOrdering : Operator → Bool
  | comparison c => c.isOrdering
  | connective _ => false

def isConnective : Operator → Bool
  | comparison _ => false
  | connective _ => true

@[simp] theorem negate_negate (o : Operator) : o.negate.negate = o := by cases o <;> simp [negate]

@[simp] theorem ofToken?_token (o : Operator) : ofToken? o.token = some o := by
  rcases o with (⟨r, n, s⟩ | o) | c
  · cases r <;> cases n <;> cases s <;> rfl
  · cases o <;> rfl
  · cases c <;> rfl

end Operator

end EventQuery
