import EventQuery.Saved.Criterion
import EventQuery.Selection.Basic

/-!
# Saved selections

Selections as JSON. The expression is told apart by its member `kind`, as criteria are. The
extracted component and the commands are left out when there are none.
-/

namespace EventQuery

namespace Saved

def expressionKinds : List String := ["path", "function", "constant"]

mutual

/-- The expression that data describes. -/
def expression? (byNumber : Bool) : Data → Except DataError Selection.Expr
  | .record members => do
    let kind ← Data.required members "kind" (Data.kind? expressionKinds byNumber)
    if kind = "path" then return .path (← Data.required members "path" Path.ofData?)
    else if kind = "constant" then return .constant (← Data.required members "value" Value.ofData?)
    else
      let name ← Data.required members "name" Data.text?
      let args ← argsOfMembers? none members
      return .call name args
  | .array (tag :: items) => do
    let kind ← tag.kind? expressionKinds byNumber
    match items with
    | [d] =>
      if kind = "path" then return .path (← Path.ofData? d)
      else if kind = "constant" then return .constant (← Value.ofData? d)
      else throw .mismatch
    | [name, .array args] =>
      if kind = "function" then return .call (← name.text?) (← expressions? args)
      else throw .mismatch
    | _ => throw .mismatch
  | _ => .error .mismatch

/-- The arguments of a call among its members. -/
def argsOfMembers? (args : Option (List Selection.Expr)) :
    List (String × Data) → Except DataError (List Selection.Expr)
  | [] =>
    match args with
    | some es => .ok es
    | none => .error .mismatch
  | (name, d) :: members =>
    if name = "args" then
      match d with
      | .array items => do
        if args.isSome then throw .mismatch
        let es ← expressions? items
        argsOfMembers? (some es) members
      | _ => .error .mismatch
    else argsOfMembers? args members

def expressions? : List Data → Except DataError (List Selection.Expr)
  | [] => .ok []
  | d :: ds => do
    let e ← expression? true d
    let es ← expressions? ds
    return e :: es

end

/-- The members of a selection in their order. -/
def selectionMembers : List String := ["expr", "extract", "commands"]

/-- The selection that data describes. -/
def selection? (d : Data) : Except DataError Selection := do
  let members ← d.members? Json.conventions selectionMembers
  let expr ← Data.required members "expr" (expression? false)
  let extract ← Data.withDefault members "extract" none (Data.nullable Data.text?)
  let commands ← Data.withDefault members "commands" [] (Data.arrayOf Data.text?)
  return ⟨expr, extract, commands⟩

end Saved

namespace Selection

mutual

def Expr.toData : Expr → Data
  | .path p => .record [("kind", .text "path"), ("path", p.toData)]
  | .call f args => .record
    [("kind", .text "function"), ("name", .text f), ("args", .array (Expr.allToData args))]
  | .constant v => .record [("kind", .text "constant"), ("value", v.toData)]

def Expr.allToData : List Expr → List Data
  | [] => []
  | e :: es => e.toData :: Expr.allToData es

end

def toData (s : Selection) : Data := .record <|
  ("expr", s.expr.toData) ::
  ((s.extract.map fun word => ("extract", Data.text word)).toList ++
    if s.commands = [] then [] else [("commands", .array (s.commands.map .text))])

/-- The JSON text of a selection. -/
def toJson (s : Selection) : String := String.ofList (Json.write s.toData)

/-- Reads a selection from JSON text. Members of other names need not be readable. -/
def ofJson (text : String) : Except DataError Selection :=
  Json.decode text (·.restricted? Saved.selectionMembers) Saved.selection?

end Selection

end EventQuery
