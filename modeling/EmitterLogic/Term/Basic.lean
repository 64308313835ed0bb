import EmitterLogic.Term.Name

/-!
Reading numbers by name. A context goes before the variables, and in both a value counts only if it
stands for a finite number.
-/

namespace EmitterLogic

/-- The values that are in sight: those of the context and the variables. -/
structure Sight where
  context : Fields Datum := []
  vars : Fields Datum := []

namespace Sight

def readOne (fields : Fields Datum) (key : String) : Except Fault (Option Float) :=
  match fields.get? key with
  | some d => d.finite?
  | none => .ok none

def readKeys (s : Sight) : List String → Except Fault (Option Float)
  | [] => .ok none
  | key :: rest => do
    if let some x ← readOne s.context key then return some x
    if let some x ← readOne s.vars key then return some x
    s.readKeys rest

def read? (s : Sight) (name : String) : Except Fault (Option Float) :=
  let name := trimmed name
  if name.isEmpty then .ok none else s.readKeys (lookupKeys name)

def readD (s : Sight) (name : String) (default : Float) : Except Fault Float :=
  (s.read? name).map (·.getD default)

/-- The number of a value that is a number, a numeral or a name; none where it has no finite one. -/
def number? (s : Sight) : Datum → Except Fault (Option Float)
  | .number n => n.toFloat.map finiteOnly
  | .text t =>
    let t := trimmed t
    if t.isEmpty then .ok none
    else if isNumeral t then .ok ((Reading.float? t.toList).bind finiteOnly)
    else if isIdent t then s.read? t
    else .ok none
  | d => d.finite?

def numberD (s : Sight) (d : Datum) (default : Float) : Except Fault Float :=
  (s.number? d).map (·.getD default)

end Sight

/-- Bounds of a number; a whole number loses its fraction first. -/
structure Bounds where
  whole : Bool := false
  lo : Option Number := none
  hi : Option Number := none

def Bounds.clamp (b : Bounds) (x : Float) : Except Fault Number := do
  let n := Number.float (← if b.whole then wholePart x else .ok x)
  let n := b.lo.elim n (·.atLeast n)
  return b.hi.elim n (·.atMost n)

/-- The kind of a term that stands in a rule or an action. -/
inductive TermKind where
  | number
  | named
  | builtin (b : Builtin)
deriving DecidableEq, Repr

namespace TermKind

def name : TermKind → String
  | number => "number"
  | named => "var"
  | builtin b => b.name

def ofName? (s : String) : Option TermKind :=
  if s == "number" then some number
  else if s == "var" then some named
  else (Builtin.ofName? s).map builtin

theorem ofName?_name (k : TermKind) : ofName? k.name = some k := by
  cases k with
  | number => decide
  | named => decide
  | builtin b => cases b <;> decide

def ofText (s : String) : TermKind := (ofName? (canonicalName s)).getD number

end TermKind

/-- A finite number, a variable by its name, or a built-in value. The name of a variable is an
identifier, or empty where none was given. -/
inductive Term where
  | number (x : Float)
  | named (name : String)
  | builtin (b : Builtin)
deriving Repr

/-- A kind and a value as a document gives them. -/
structure RawTerm where
  kind : Datum := .text "number"
  value : Datum := .int 0

namespace Term

def kind : Term → TermKind
  | number _ => .number
  | named _ => .named
  | builtin b => .builtin b

def value : Term → Datum
  | number x => .float x
  | named name => .text name
  | builtin _ => .int 0

def toRaw (t : Term) : RawTerm := ⟨.text t.kind.name, t.value⟩

def zero : Term := number 0.0

def ofNumber (d : Datum) : Except Fault Term := d.finiteOrZero.map number

def ofVariable (d : Datum) : Term := .named (identOrEmpty d.textOrEmpty)

/-- The built-in value that a value names. -/
def ofBuiltin (d : Datum) : Except Fault Term :=
  match builtin? d.textOrEmpty with
  | some b => .ok (builtin b)
  | none => .error (.unknownBuiltin d.toText)

/-- The term of a kind and a value; the fallback stands in for what is not given. -/
def normalize (kind value : Datum) (fallback : RawTerm := {}) : Except Fault Term :=
  let given := match kind with
    | .null => false
    | .text s => s != ""
    | _ => true
  let kind := if given then kind else fallback.kind
  match TermKind.ofText kind.textOrEmpty with
  | .number => ofNumber (if value.isNull then fallback.value else value)
  | .named =>
    let name := if value.isNull then fallback.value.textOrEmpty else value.toText
    .ok (.named (identOrEmpty name))
  | .builtin b => .ok (builtin b)

/-- The term that a single token spells, if it spells one. -/
def ofToken? (s : String) : Option Term :=
  if isNumeral s then some (number ((Reading.float? s.toList).getD 0.0))
  else match Builtin.ofName? s with
    | some b => some (builtin b)
    | none => if isIdent s then some (.named s) else none

/-- The term that a single token spells, else the fallback. -/
def infer (token : Datum) (fallback : RawTerm := {}) : Except Fault Term :=
  match ofToken? (canonicalName token.textOrEmpty) with
  | some t => .ok t
  | none => normalize fallback.kind fallback.value

def inferText (token : String) : Except Fault Term := infer (.text token)

/-- The text of a term in a formula. -/
def toExpr : Term → String
  | number x => if x.isFinite then plainNumeral x else "0"
  | named name => if isIdent name then trimmed name else "0"
  | builtin b => b.name

/-- The number of a term. -/
def resolve (s : Sight) : Term → Except Fault Float
  | number x => .ok ((finiteOnly x).getD 0.0)
  | named name => s.readD name 0.0
  | builtin b => s.readD b.name 0.0

end Term

/-- What an operand is worth: a number, or a reason for removal. -/
inductive Operand where
  | number (x : Float)
  | reason (r : Reason)
deriving Repr

def Operand.toDatum : Operand → Datum
  | number x => .float x
  | reason r => .text r.tag

namespace RawTerm

/-- The text of the pair in a formula; kinds go by their present names. -/
def toExpr (t : RawTerm) : Except Fault String :=
  match t.kind with
  | .text kind =>
    if kind == "number" then t.value.finite?.map fun x? => x?.elim "0" plainNumeral
    else if kind == "var" then
      .ok (if t.value.isIdent then trimmed t.value.toText else "0")
    else .ok (((Builtin.ofName? kind).map Builtin.name).getD "0")
  | _ => .ok "0"

def resolve (s : Sight) (t : RawTerm) : Except Fault Operand :=
  let kind := canonicalName t.kind.textOrEmpty
  if kind == "number" then (s.numberD t.value 0.0).map .number
  else if kind == "var" then (s.readD t.value.textOrEmpty 0.0).map .number
  else if kind == "reason" then .ok (.reason (Reason.ofDatum t.value))
  else match Builtin.ofName? kind with
    | some b => (s.readD b.name 0.0).map .number
    | none => .ok (.number 0.0)

end RawTerm

end EmitterLogic
