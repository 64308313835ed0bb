import EmitterLogic.Formula.Token
import EmitterLogic.Term.Basic
import EmitterLogic.Kotlin.Literal

/-!
Formulas as programs for a stack, each operator after its operands. `Formula.programOf` makes one of
tokens: the minus sign is a negation where no value stands before it and binds tighter than all
other operators, which group from the left.
-/

namespace EmitterLogic

namespace Formula

/-- An operator of a program: one between two operands, or the negation of one. -/
inductive Operator where
  | binary (o : ArithOp)
  | negation
deriving DecidableEq, Repr

def Operator.rank : Operator → Nat
  | binary .add => 1
  | binary .sub => 1
  | binary _ => 2
  | negation => 3

def Operator.sign : Operator → String
  | binary o => o.sign
  | negation => "u-"

/-- Must a waiting operator be carried out before another one is put after it? -/
def Operator.yields (waiting next : Operator) : Bool :=
  match next with
  | negation => next.rank < waiting.rank
  | binary _ => next.rank ≤ waiting.rank

inductive Instr where
  | number (x : Float)
  | name (s : String)
  | op (o : Operator)
deriving Repr

/-- What waits while a formula is read: operators, and parentheses that are open. -/
inductive Pending where
  | op (o : Operator)
  | opening
deriving DecidableEq, Repr

/-- The waiting operators that go before a new one, and those that stay. -/
def releaseFor (next : Operator) : List Pending → List Instr × List Pending
  | .op o :: rest =>
    if o.yields next then
      let (out, left) := releaseFor next rest
      (.op o :: out, left)
    else ([], .op o :: rest)
  | pending => ([], pending)

/-- The waiting operators inside the last open parenthesis, and what waits outside it. -/
def releaseGroup : List Pending → Option (List Instr × List Pending)
  | [] => none
  | .opening :: rest => some ([], rest)
  | .op o :: rest => (releaseGroup rest).map fun (out, left) => (.op o :: out, left)

/-- All waiting operators, if no parenthesis is open. -/
def releaseAll : List Pending → Option (List Instr)
  | [] => some []
  | .opening :: _ => none
  | .op o :: rest => (releaseAll rest).map (.op o :: ·)

def operatorOf (afterValue : Bool) (o : ArithOp) : Operator :=
  if o == .sub && !afterValue then .negation else .binary o

/-- The rest of a program, from what waits and the tokens that are left. -/
def programFrom (pending : List Pending) (afterValue : Bool) :
    List Token → Except Error (List Instr)
  | [] =>
    match releaseAll pending with
    | some out => .ok out
    | none => .error .unmatchedOpening
  | .number x :: rest => (programFrom pending true rest).map (.number x :: ·)
  | .name s :: rest => (programFrom pending true rest).map (.name s :: ·)
  | .opening :: rest => programFrom (.opening :: pending) false rest
  | .closing :: rest =>
    match releaseGroup pending with
    | some (out, left) => (programFrom left true rest).map (out ++ ·)
    | none => .error .unmatchedClosing
  | .op o :: rest =>
    let next := operatorOf afterValue o
    let (out, left) := releaseFor next pending
    (programFrom (.op next :: left) false rest).map (out ++ ·)

def programOf (ts : List Token) : Except Error (List Instr) := programFrom [] false ts

end Formula

/-- A formula: its text and its program. -/
structure Formula where
  source : String
  program : List Formula.Instr
deriving Repr

namespace Formula

def compile (source : String) : Except Error Formula := do
  return ⟨source, ← programOf (← tokens source)⟩

end Formula

def nearZero : Float := 1e-12

def isNearZero (x : Float) : Bool := x.abs < nearZero

/-- The value of an operator on two numbers, zero unless both are finite. -/
def ArithOp.apply (o : ArithOp) (x y : Float) : Float :=
  if !x.isFinite || !y.isFinite then 0.0
  else match o with
    | .add => x + y
    | .sub => x - y
    | .mul => x * y
    | .div => if isNearZero y then 0.0 else x / y
    | .rem => if isNearZero y then 0.0 else Binary64.rem x y

namespace Formula

def finiteOrZero (x : Float) : Float := if x.isFinite then x else 0.0

/-- Carries out an operator on a stack; none if operands are missing. -/
def Operator.onStack : Operator → List Float → Option (List Float)
  | .negation, x :: stack => some (finiteOrZero (-x) :: stack)
  | .binary o, y :: x :: stack => some (o.apply x y :: stack)
  | _, _ => none

/-- Runs a program on a stack; none if operands are missing. -/
def runFrom (s : Sight) : List Instr → List Float → Except Fault (Option (List Float))
  | [], stack => .ok (some stack)
  | .number x :: rest, stack => runFrom s rest (finiteOrZero x :: stack)
  | .name key :: rest, stack => do runFrom s rest ((← s.readD key 0.0) :: stack)
  | .op o :: rest, stack =>
    match o.onStack stack with
    | some stack => runFrom s rest stack
    | none => .ok none

def eval (s : Sight) (f : Formula) : Except Fault Float := do
  match ← runFrom s f.program [] with
  | some [x] => return finiteOrZero x
  | _ => return 0.0

end Formula

end EmitterLogic

namespace EmitterLogic.Formula

open Kotlin

def nameText (map : NameMap) (style : NumberStyle) (name : String) : Except Fault String :=
  let key := canonicalName name
  match Builtin.ofName? key with
  | some b => .ok ("(" ++ builtin map b ++ ").toDouble()")
  | none => if isIdent key then .ok ("(" ++ key ++ ").toDouble()") else style.write (.int 0)

/-- Writes an operation over the texts on a stack; none if operands are missing. -/
def Operator.onTexts : Operator → List String → Option (List String)
  | .negation, a :: stack => some (("(-(" ++ a ++ "))") :: stack)
  | .binary o, b :: a :: stack => some (("((" ++ a ++ ") " ++ o.sign ++ " (" ++ b ++ "))") :: stack)
  | _, _ => none

def writeFrom (map : NameMap) (style : NumberStyle) :
    List Instr → List String → Except Fault (Option (List String))
  | [], stack => .ok (some stack)
  | .number x :: rest, stack => do
    writeFrom map style rest ((← style.write (.float x)) :: stack)
  | .name key :: rest, stack => do
    writeFrom map style rest ((← nameText map style key) :: stack)
  | .op o :: rest, stack =>
    match o.onTexts stack with
    | some stack => writeFrom map style rest stack
    | none => .ok none

/-- The code of a formula; a zero for a program that does not leave one value. -/
def toKotlin (map : NameMap) (style : NumberStyle) (f : Formula) : Except Fault String := do
  match ← writeFrom map style f.program [] with
  | some [text] => return text
  | _ => style.write (.int 0)

/-- The code of a text that is no formula, or an empty one. -/
def textToKotlin (map : NameMap) (style : NumberStyle) (text : String) : Except Fault String :=
  if isNumeral text then style.write (.float ((Reading.float? text.toList).getD 0.0))
  else if isIdent text then nameText map style text
  else style.write (.int 0)

end EmitterLogic.Formula
