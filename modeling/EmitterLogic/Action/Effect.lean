import EmitterLogic.Condition.Normal
import EmitterLogic.Text.Scan
import EmitterLogic.Formula.Program
import EmitterLogic.Kotlin.Literal

/-!
Actions: single changes of one variable. A document may hold an action as an object, or as a line of
text such as `x -= 2`.
-/

namespace EmitterLogic

inductive ActionOp where
  | set | add | sub | mul | div | inc | dec
deriving DecidableEq, Repr

namespace ActionOp

def name : ActionOp → String
  | set => "set"
  | add => "add"
  | sub => "sub"
  | mul => "mul"
  | div => "div"
  | inc => "inc"
  | dec => "dec"

def all : List ActionOp := [set, add, sub, mul, div, inc, dec]

def ofName? (s : String) : Option ActionOp := all.find? (·.name == s)

/-- Does the operator step by one, whatever its value? -/
def isStep : ActionOp → Bool
  | inc => true
  | dec => true
  | _ => false

def signs : List (List Char × ActionOp) :=
  [(['+', '='], add), (['-', '='], sub), (['*', '='], mul), (['/', '='], div), (['='], set)]

end ActionOp

/-- A change of a variable; the name is an identifier, or empty where none was given. -/
structure Action where
  id : String
  varName : String
  op : ActionOp
  value : Term

namespace Action

def fields (a : Action) : Fields Datum := [
  ("id", .text a.id),
  ("varName", .text a.varName),
  ("op", .text a.op.name),
  ("valueType", .text a.value.kind.name),
  ("value", a.value.value)]

def toDatum (a : Action) : Datum := .object a.fields

/-- The term of a kind and a value; the kind goes by its name, a number where it has none. -/
def valueOf (kind value : Datum) : Except Fault Term :=
  match TermKind.ofText kind.textOrEmpty with
  | .number => Term.ofNumber value
  | .named => .ok (.named (if value.isIdent then trimmed value.toText else ""))
  | .builtin b => .ok (.builtin b)

/-- The action of its parts, as an object gives them. -/
def ofParts (id name op kind value : Datum) : Except Fault Action := do
  return {
    id := if id.isTruthy then id.toText else newId
    varName := if name.isIdent then trimmed name.toText else ""
    op := (ActionOp.ofName? op.textOrEmpty).getD .set
    value := ← valueOf kind value }

/-- A new action from a seed. -/
def create (seed : Datum) : Except Fault Action :=
  let value := seed.getD "value"
  ofParts (seed.getD "id") ((seed.getD "varName").orElse (.text ""))
    ((seed.getD "op").orElse (.text "add")) ((seed.getD "valueType").orElse (.text "number"))
    (if value.isNull then .int 1 else value)

/-- The term that the right side of a line of text spells. -/
def detected (text : String) : Term :=
  let s := canonicalName text
  if isNumeral s then .number ((finiteOnly ((Reading.float? s.toList).getD 0.0)).getD 0.0)
  else match TermKind.ofName? s with
    | some .number => .zero
    | some .named => .named ""
    | some (.builtin b) => .builtin b
    | none => if isIdent s then .named s else .zero

open Text

/-- The operator and right side of a line of text after its name. -/
def change? (body : List Char) : Option (ActionOp × Term) :=
  if body == ['+', '+'] then some (.inc, .number 1.0)
  else if body == ['-', '-'] then some (.dec, .number 1.0)
  else ActionOp.signs.findSome? fun (sign, op) =>
    (dropWord? sign body).bind fun right =>
      let right := trimStart right
      if right.isEmpty || right.contains '\n' then none
      else some (op, detected (String.ofList right))

/-- The action of a line of text. -/
def ofText? (text : String) : Option Action :=
  match trim text.toList with
  | [] => none
  | c :: rest =>
    if !isIdentStart c then none
    else
      let name := c :: rest.takeWhile isIdentPart
      (change? (trimStart (rest.dropWhile isIdentPart))).map fun (op, value) =>
        { id := newId, varName := String.ofList name, op, value }

/-- The action of an object. -/
def ofObject (d : Datum) : Except Fault Action :=
  match ofText? (d.getD "expr").textOrEmpty with
  | some a => .ok { a with id := idOf d }
  | none =>
    ofParts (d.getD "id") (d.getD "varName") (d.getD "op") (d.getD "valueType") (d.getD "value")

def ofDatum (d : Datum) : Except Fault Action :=
  if d.isObject then ofObject d else create (.object [])

def listOf : Datum → Except Fault (List Action)
  | .list items => items.mapM ofDatum
  | _ => .ok []

end Action

namespace ActionOp

/-- The new value of a variable. -/
def apply (op : ActionOp) (x value : Float) : Float :=
  match op with
  | set => value
  | add => x + value
  | sub => x - value
  | mul => x * value
  | div => if isNearZero value then x else x / value
  | inc => x + 1.0
  | dec => x - 1.0

def sign : ActionOp → String
  | add => "+="
  | sub => "-="
  | mul => "*="
  | div => "/="
  | _ => "="

end ActionOp

namespace Action

def operand (a : Action) (context store : Fields Datum) : Except Fault Float :=
  if a.op.isStep then .ok 0.0
  else a.value.resolve { context, vars := store }

/-- The store after an action, none if the action changes nothing. -/
def applied? (a : Action) (context store : Fields Datum) :
    Except Fault (Option (Fields Datum)) := do
  if !isIdent a.varName then return none
  match store.get? a.varName with
  | none => return none
  | some d =>
    let x ← d.finiteOrZero
    let value ← a.operand context store
    return some (store.put a.varName (.float (a.op.apply x value)))

/-- The code of an action; empty if it names no variable. -/
def toKotlin (a : Action) (map : Kotlin.NameMap) (style : Kotlin.NumberStyle) :
    Except Fault String := do
  if !isIdent a.varName then return ""
  match a.op with
  | .inc => return a.varName ++ "++"
  | .dec => return a.varName ++ "--"
  | op => return a.varName ++ " " ++ op.sign ++ " " ++ (← Kotlin.term map style a.value)

end Action

end EmitterLogic
