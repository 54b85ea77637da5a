import EventQuery.Grammar.Path
import EventQuery.Selection.Basic

/-!
# The grammar of selections

    selection  = expression ( ":" name )? ( "/" name ( "," name )* )?
    expression = string | number | chain
    chain      = term ( "." term )*
    term       = name ( "(" ( argument ( "," argument )* )? ")" )?
    argument   = string | number | "*" | expression

White space may stand around expressions and arguments. A chain of one term with arguments is a
call. Any other chain is a path, and the arguments of its terms must be single indices.
-/

namespace EventQuery

namespace Grammar

open Matcher

inductive Argument where
  | expr (e : Selection.Expr)
  | constant (v : Value)
  | star

structure Term where
  name : String
  args : Option (List Argument)

namespace Term

/-- A term of a path. -/
def toSegment (t : Term) : Except SyntaxFault Segment :=
  match t.args with
  | none => .ok (.plain t.name)
  | some [.constant (.int n)] => .ok ⟨t.name, some (.position n)⟩
  | some [.constant (.text s)] => .ok ⟨t.name, some (.key s)⟩
  | some [.star] => .ok ⟨t.name, some .any⟩
  | some _ => .error (.invalidIndex t.name)

end Term

/-- An argument of a call. -/
def Argument.toExpr : Argument → Except SyntaxFault Selection.Expr
  | expr e => .ok e
  | constant v => .ok (.constant v)
  | star => .error .misplacedStar

/-- The expression that a chain of terms stands for. -/
def chainExpr (first : Term) (more : List Term) : Except SyntaxFault Selection.Expr :=
  match more, first.args with
  | [], some args => (args.mapM Argument.toExpr).map (.call first.name)
  | _, _ => do
    let s ← first.toSegment
    let ss ← more.mapM Term.toSegment
    return .path ⟨s :: ss, List.cons_ne_nil s ss⟩

def argument (inner : Matcher Selection.Expr) : Matcher Argument :=
  padded ((do return .constant (.text (← quotedString))) <|> (do return .constant (← number)) <|>
    (do let _ ← char '*'; return .star) <|> (do return .expr (← inner)))

/-- Arguments in parentheses, possibly none. -/
def arguments (inner : Matcher Selection.Expr) : Matcher (List Argument) := do
  let _ ← char '('
  let args ← optional (separated (argument inner) (char ','))
  let _ ← char ')'
  return args.getD []

def term (inner : Matcher Selection.Expr) : Matcher Term := do
  let name ← fieldName
  let args ← optional (arguments inner)
  return ⟨name, args⟩

def chain (inner : Matcher Selection.Expr) : Matcher Selection.Expr :=
  checked
    (do
      let first ← term inner
      let more ← (many (do let _ ← char '.'; term inner) : Matcher (List Term))
      return (first, more))
    fun (first, more) => chainExpr first more

def expression : Matcher Selection.Expr := recursive fun inner =>
  padded ((do return .constant (.text (← quotedString))) <|> (do return .constant (← number)) <|>
    chain inner)

def selection : Matcher Selection := padded do
  let e ← expression
  let extract ← optional (do let _ ← char ':'; fieldName)
  let commands ← optional (do
    let _ ← char '/'
    separated fieldName (padded (char ',')))
  return ⟨e, extract, commands.getD []⟩

end Grammar

/-- Reads a selection. -/
def Selection.parse (text : String) : Except SyntaxError Selection :=
  Grammar.selection.parse text.toList

end EventQuery
