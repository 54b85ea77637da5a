import EventQuery.Backend.Basic
import EventQuery.Criterion.Printer

/-!
# Criteria as a backend

For engines that read criteria themselves: the text of the criterion, with full paths.
-/

namespace EventQuery.Backend

/-- Operands with the connective between them, in parentheses. -/
def joinCriteriaText (c : Connective) (operands : List (List Char)) : List Char :=
  '(' :: ((' ' :: (c.token.toList ++ [' '])).intercalate operands ++ [')'])

def criteriaText : Backend (List Char) where
  name := "criteria"
  compileLeaf l x := .ok { l with path := l.path.qualify x.entity }.spelling
  combine c operands := .ok (joinCriteriaText c operands)

end EventQuery.Backend
