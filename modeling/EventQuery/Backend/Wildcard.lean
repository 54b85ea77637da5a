/-!
# Wildcard patterns

The operand of a containment test is a pattern: `*` stands for any run of characters and a
backslash makes the next character ordinary. A pattern without a wildcard may match anywhere, so it
gets one at each end.

A pattern is written for an engine in one of two notations. In the first, `*` and `?` and bracketed
sets of characters are special; in the second, `%` and `_`, with the backslash to make them
ordinary.
-/

namespace EventQuery.Wildcard

/-- A character occurs that no backslash stands before. -/
def hasUnescaped (c : Char) : List Char → Bool
  | [] => false
  | ['\\'] => false
  | '\\' :: _ :: s => hasUnescaped c s
  | d :: s => d == c || hasUnescaped c s

/-- The pattern, with a wildcard at each end if it has none. -/
def surround (s : List Char) : List Char :=
  if hasUnescaped '*' s then s else '*' :: (s ++ ['*'])

theorem hasUnescaped_surround (s : List Char) : hasUnescaped '*' (surround s) = true := by
  unfold surround
  split
  · assumption
  · simp [hasUnescaped]

@[simp] theorem surround_surround (s : List Char) : surround (surround s) = surround s :=
  if_pos (hasUnescaped_surround s)

/-- A character that stands for itself in the notation with bracketed sets. -/
def globLiteral (c : Char) : List Char :=
  if c = '*' then "[*]".toList
  else if c = '?' then "[?]".toList
  else if c = '[' then "[[]".toList
  else [c]

/-- The pattern in the notation with bracketed sets. -/
def toGlob : List Char → List Char
  | [] => []
  | ['\\'] => ['\\']
  | '\\' :: c :: s => globLiteral c ++ toGlob s
  | '*' :: s => '*' :: toGlob s
  | c :: s => globLiteral c ++ toGlob s

/-- A character that stands for itself in the notation with `%` and `_`. -/
def likeLiteral (c : Char) : List Char :=
  if c = '%' ∨ c = '_' ∨ c = '\\' then ['\\', c] else [c]

/-- The pattern in the notation with `%` and `_`. -/
def toLike : List Char → List Char
  | [] => []
  | ['\\'] => likeLiteral '\\'
  | '\\' :: c :: s => likeLiteral c ++ toLike s
  | '*' :: s => '%' :: toLike s
  | c :: s => likeLiteral c ++ toLike s

/-! ## Character by character -/

@[simp] theorem hasUnescaped_escaped (c d : Char) (s : List Char) :
    hasUnescaped c ('\\' :: d :: s) = hasUnescaped c s := rfl

theorem hasUnescaped_cons_of_ne {d : Char} (h : d ≠ '\\') (c : Char) (s : List Char) :
    hasUnescaped c (d :: s) = (d == c || hasUnescaped c s) := by
  simp [hasUnescaped, h]

@[simp] theorem toGlob_escaped (c : Char) (s : List Char) :
    toGlob ('\\' :: c :: s) = globLiteral c ++ toGlob s := rfl

@[simp] theorem toGlob_star (s : List Char) : toGlob ('*' :: s) = '*' :: toGlob s := rfl

theorem toGlob_cons_of_ne {c : Char} (h : c ≠ '\\') (hs : c ≠ '*') (s : List Char) :
    toGlob (c :: s) = globLiteral c ++ toGlob s := by
  simp [toGlob, h]

@[simp] theorem toLike_escaped (c : Char) (s : List Char) :
    toLike ('\\' :: c :: s) = likeLiteral c ++ toLike s := rfl

@[simp] theorem toLike_star (s : List Char) : toLike ('*' :: s) = '%' :: toLike s := rfl

theorem toLike_cons_of_ne {c : Char} (h : c ≠ '\\') (hs : c ≠ '*') (s : List Char) :
    toLike (c :: s) = likeLiteral c ++ toLike s := by
  simp [toLike, h]

end EventQuery.Wildcard
