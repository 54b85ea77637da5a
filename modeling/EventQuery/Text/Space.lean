/-!
# White space

The 25 characters with the Unicode property White_Space, and the ways text is cut at them.
-/

namespace EventQuery.Text

/-- The Unicode property White_Space. -/
def isSpace (c : Char) : Bool :=
  let n := c.toNat
  (0x09 ≤ n && n ≤ 0x0D) || n == 0x20 || n == 0x85 || n == 0xA0 || n == 0x1680 ||
    (0x2000 ≤ n && n ≤ 0x200A) || n == 0x2028 || n == 0x2029 || n == 0x202F || n == 0x205F ||
    n == 0x3000

/-- The text from its first character that is not white space. -/
def skipSpace (s : List Char) : List Char := s.dropWhile isSpace

/-- Whether a text holds nothing but white space. -/
def isBlank (s : String) : Bool := s.toList.all isSpace

/-- A text without the white space at its two ends. -/
def trim (s : List Char) : List Char := (skipSpace (skipSpace s).reverse).reverse

@[simp] theorem skipSpace_nil : skipSpace [] = [] := rfl

theorem skipSpace_cons (c : Char) (s : List Char) :
    skipSpace (c :: s) = if isSpace c then skipSpace s else c :: s := by
  simp only [skipSpace, List.dropWhile_cons]

theorem skipSpace_suffix (s : List Char) : skipSpace s <:+ s := List.dropWhile_suffix isSpace

end EventQuery.Text
