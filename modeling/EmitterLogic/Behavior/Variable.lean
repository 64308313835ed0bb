import EmitterLogic.Term.Basic
import EmitterLogic.Condition.Normal

/-!
Amounts: what a document gives as a number or as the name of the variable that holds it.
-/

namespace EmitterLogic

inductive Amount where
  | number (n : Number)
  | named (name : String)

/-- What the text of a value spells. -/
inductive Spelling where
  | nothing
  | number (x : Float)
  | name (s : String)
  | other

namespace Spelling

/-- The spelling of a text without blanks at its ends. A numeral has to be finite. -/
def ofText (s : String) : Spelling :=
  if s.isEmpty then nothing
  else match (spelledNumber? s).bind finiteOnly with
    | some x => number x
    | none => if isIdent s then name s else other

def ofDatum : Datum → Spelling
  | .null => nothing
  | .bool b => number (if b then 1.0 else 0.0)
  | .number n =>
    match n.toFloat.toOption.bind finiteOnly with
    | some x => number x
    | none => ofText n.display
  | d => ofText (trimmed d.toText)

end Spelling

namespace Amount

def float (x : Float) : Amount := number (.float x)

def one : Amount := float 1.0

def toDatum : Amount → Datum
  | number n => .number n
  | named name => .text name

/-- The amount of a value. Bounds are put to numbers; the default stands in for what is not given,
within the bounds, and for what is no amount, as it is. -/
def ofDatum (d : Datum) (default : Amount) (bounds : Bounds := {}) : Except Fault Amount :=
  match Spelling.ofDatum d with
  | .nothing => do return number (← bounds.clamp (← default.toDatum.finiteOrZero))
  | .number x => (bounds.clamp x).map number
  | .name s => .ok (named s)
  | .other => .ok default

def resolve? (a : Amount) (s : Sight) : Except Fault (Option Float) := s.number? a.toDatum

def resolve (a : Amount) (s : Sight) (default : Float) (bounds : Bounds := {}) :
    Except Fault Number := do
  bounds.clamp ((← a.resolve? s).getD default)

end Amount

/-- Three values, one for each direction of space. -/
structure Triple (α : Type) where
  x : α
  y : α
  z : α
deriving DecidableEq, Repr

namespace Triple

variable {α β : Type}

def map (f : α → β) (t : Triple α) : Triple β := ⟨f t.x, f t.y, f t.z⟩

def mapM {m : Type → Type} [Monad m] (f : α → m β) (t : Triple α) : m (Triple β) := do
  return ⟨← f t.x, ← f t.y, ← f t.z⟩

def toList (t : Triple α) : List α := [t.x, t.y, t.z]

end Triple

/-- Is a switch of a document on? -/
def Datum.isOn : Datum → Bool
  | .text s =>
    let word := String.ofList ((Text.trim s.toList).map Char.toLower)
    ["1", "true", "yes", "on"].contains word
  | d => d.isTruthy

structure Variable where
  id : String
  name : String
  isInt : Bool
  initial : Float
  hasMin : Bool
  minValue : Float
  hasMax : Bool
  maxValue : Float

namespace Variable

def typeName (v : Variable) : String := if v.isInt then "int" else "double"

/-- The declaration of a variable, without the id. -/
def declaration (v : Variable) : Fields Datum := [
  ("name", .text v.name),
  ("type", .text v.typeName),
  ("defaultValue", .float v.initial),
  ("minEnabled", .bool v.hasMin),
  ("minValue", .float v.minValue),
  ("maxEnabled", .bool v.hasMax),
  ("maxValue", .float v.maxValue)]

def toDatum (v : Variable) : Datum := .object (("id", .text v.id) :: v.declaration)

def isBounded (v : Variable) : Bool := v.hasMin || v.hasMax

def ofType (isInt : Bool) (x : Float) : Except Fault Float :=
  if isInt then wholePart x else .ok x

def numberOf (isInt : Bool) : Datum → Except Fault Float
  | .bool _ => .ok 0.0
  | d => do ofType isInt (← d.finiteOrZero)

/-- A variable with its bounds in order. -/
def inOrder (v : Variable) : Variable :=
  if v.hasMin && v.hasMax && v.maxValue < v.minValue then
    { v with minValue := v.maxValue, maxValue := v.minValue }
  else v

def isIntType (d : Datum) : Bool :=
  String.ofList (d.textOrEmpty.toList.map Char.toLower) == "int"

/-- The variable of a document. -/
def ofDatum (d : Datum) : Except Fault Variable := do
  let isInt := isIntType (d.getD "type")
  return inOrder {
    id := idOf d
    name := (d.getD "name").trimmedText
    isInt
    initial := ← numberOf isInt (d.getD "defaultValue")
    hasMin := (d.getD "minEnabled").isOn
    minValue := ← numberOf isInt (d.getD "minValue")
    hasMax := (d.getD "maxEnabled").isOn
    maxValue := ← numberOf isInt (d.getD "maxValue") }

/-- A new variable from a seed. -/
def create (seed : Fields Datum) : Except Fault Variable :=
  let base : Fields Datum :=
    [("id", .text newId), ("name", .text ""), ("type", .text "double"), ("defaultValue", .int 0)]
  ofDatum (.object (base.merge seed))

/-- A number between the bounds of a variable, as its type has it. -/
def bound (v : Variable) (x : Float) : Except Fault Float := do
  let lo ← ofType v.isInt v.minValue
  let hi ← ofType v.isInt v.maxValue
  let x := if v.hasMin then (if lo < x then x else lo) else x
  let x := if v.hasMax then (if x < hi then x else hi) else x
  ofType v.isInt x

end Variable

end EmitterLogic
