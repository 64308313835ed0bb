import EmitterLogic.Script.Syntax
import EmitterLogic.Number.Basic
import EmitterLogic.Datum.Basic
import EmitterLogic.Number.Reading

/-!
The values of running scripts. Lists, objects and functions live in the memory of the machine and
are known by their places there, so that two of them are the same only if they share a place.
-/

namespace EmitterLogic.Script

/-- The functions of the mathematics namespace that depend on their arguments alone. -/
inductive MathFn where
  | abs | floor | ceil | round | trunc | sign | sqrt | sin | cos | tan | asin | acos | atan | atan2
  | log | exp | pow | hypot | min | max
deriving DecidableEq, Repr

namespace MathFn

def name : MathFn → String
  | abs => "abs"
  | floor => "floor"
  | ceil => "ceil"
  | round => "round"
  | trunc => "trunc"
  | sign => "sign"
  | sqrt => "sqrt"
  | sin => "sin"
  | cos => "cos"
  | tan => "tan"
  | asin => "asin"
  | acos => "acos"
  | atan => "atan"
  | atan2 => "atan2"
  | log => "log"
  | exp => "exp"
  | pow => "pow"
  | hypot => "hypot"
  | min => "min"
  | max => "max"

def all : List MathFn :=
  [abs, floor, ceil, round, trunc, sign, sqrt, sin, cos, tan, asin, acos, atan, atan2, log, exp,
    pow, hypot, min, max]

end MathFn

/-- The helpers of tick scripts. A plain one is a function of the mathematics namespace under its
bare name. -/
inductive Helper where
  | setVar | getVar | hasVar | addVar | subVar | mulVar | divVar | incVar | decVar | clampVar
  | rand | randInt | clamp
  | plain (f : MathFn)
deriving DecidableEq, Repr

/-- The functions that are not written in the script. -/
inductive Native where
  | math (f : MathFn)
  | random
  | helper (h : Helper)
deriving DecidableEq, Repr

inductive Value where
  | undefined
  | null
  | bool (b : Bool)
  | number (n : Number)
  | text (s : String)
  | list (place : Nat)
  | object (place : Nat)
  | func (place : Nat)
  | native (f : Native)
deriving Repr, Inhabited

namespace Value

def float (x : Float) : Value := .number (.float x)

def ofLiteral : Literal → Value
  | .bool b => .bool b
  | .null => .null
  | .undefined => .undefined

def nan : Float := 0.0 / 0.0

def numberOfText (s : String) : Float :=
  let cs := Text.trim s.toList
  if cs.isEmpty then 0.0
  else if cs.contains '_' then nan
  else (Reading.float? cs).getD nan

/-- The number that a value stands for, undefined for what has none. -/
def toNumber : Value → Except Fault Float
  | undefined => .ok nan
  | null => .ok 0.0
  | bool b => .ok (if b then 1.0 else 0.0)
  | number n => n.toFloat
  | text s => .ok (numberOfText s)
  | _ => .ok nan

/-- Does a value count as true? -/
def truthy : Value → Except Fault Bool
  | undefined => .ok false
  | null => .ok false
  | bool b => .ok b
  | number n => if n.isZero then .ok false else n.toFloat.map fun x => !x.isNaN
  | text s => .ok (s != "")
  | _ => .ok true

def typeName : Value → String
  | undefined => "undefined"
  | null => "object"
  | bool _ => "boolean"
  | number _ => "number"
  | text _ => "string"
  | list _ => "object"
  | object _ => "object"
  | func _ => "function"
  | native _ => "function"

def isNothing : Value → Bool
  | undefined => true
  | null => true
  | _ => false

/-- Booleans, numbers and texts. -/
def isPrimitive : Value → Bool
  | bool _ => true
  | number _ => true
  | text _ => true
  | _ => false

/-- Are two values that live in memory, or two functions that are not written in a script, the
same? -/
def samePlace : Value → Value → Bool
  | list p, list q => p == q
  | object p, object q => p == q
  | func p, func q => p == q
  | native f, native g => f == g
  | _, _ => false

/-- Equality across kinds: primitive values are compared as numbers, unless both are texts. -/
def looseEq (a b : Value) : Except Fault Bool :=
  if a.isNothing || b.isNothing then .ok (a.isNothing && b.isNothing)
  else match a, b with
    | text s, text t => .ok (s == t)
    | _, _ =>
      if a.isPrimitive && b.isPrimitive then do
        let x ← a.toNumber
        let y ← b.toNumber
        return x == y
      else .ok (a.samePlace b)

/-- Equality within one kind. -/
def strictEq : Value → Value → Except Fault Bool
  | undefined, undefined => .ok true
  | null, null => .ok true
  | bool a, bool b => .ok (a == b)
  | number m, number n => do
    let x ← m.toFloat
    let y ← n.toFloat
    return x == y
  | text s, text t => .ok (s == t)
  | a, b => .ok (a.samePlace b)

end Value

def Relation.holds (r : Relation) (x y : Float) : Bool :=
  match r with
  | .lt => x < y
  | .gt => y < x
  | .le => x ≤ y
  | .ge => y ≤ x

def Relation.holdsText (r : Relation) (s t : String) : Bool :=
  match r with
  | .lt => s < t
  | .gt => t < s
  | .le => !(t < s)
  | .ge => !(s < t)

/-- Two texts are compared letter by letter, all other values as numbers. -/
def Value.compare (r : Relation) (a b : Value) : Except Fault Bool :=
  match a, b with
  | .text s, .text t => .ok (r.holdsText s t)
  | _, _ => do
    let x ← a.toNumber
    let y ← b.toNumber
    return r.holds x y

/-- The value of an operator on two numbers, as the format defines it. -/
def arithmetic (o : ArithOp) (x y : Float) : Float :=
  match o with
  | .add => x + y
  | .sub => x - y
  | .mul => x * y
  | .div => x / y
  | .rem => Binary64.rem x y

end EmitterLogic.Script
