/-!
# Quoted text

How a text is written between quotation marks: the mark and the backslash get a backslash in
front, every other character stands for itself.
-/

namespace EventQuery.Text

/-- `s` with a backslash before each quotation mark `q` and each backslash. -/
def escape (q : Char) : List Char → List Char
  | [] => []
  | c :: s => if c = q ∨ c = '\\' then '\\' :: c :: escape q s else c :: escape q s

/-- `s` between two quotation marks `q`. -/
def quote (q : Char) (s : List Char) : List Char := q :: (escape q s ++ [q])

@[simp] theorem escape_nil (q : Char) : escape q [] = [] := rfl

end EventQuery.Text
