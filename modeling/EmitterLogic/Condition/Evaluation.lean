import EmitterLogic.Condition.Filter
import EmitterLogic.Datum.Basic
import EmitterLogic.Session

/-!
Deciding conditions. The rules of a filter are joined from the left, without precedence. Computed
comparisons of equality leave a small tolerance.
-/

namespace EmitterLogic

def tolerance : Float := 1e-6

namespace Comparison

/-- The order of two numbers. -/
def holds (c : Comparison) (x y : Float) : Bool :=
  match c with
  | eq => x == y
  | ne => x != y
  | gt => y < x
  | ge => y ≤ x
  | lt => x < y
  | le => x ≤ y

def isEquality : Comparison → Bool
  | eq => true
  | ne => true
  | _ => false

/-- The order of two numbers, equality up to the tolerance. -/
def holdsNearly (c : Comparison) (x y : Float) : Bool :=
  match c with
  | eq => (x - y).abs ≤ tolerance
  | ne => tolerance < (x - y).abs
  | c => c.holds x y

def orderKey? : Datum → Except Fault (Option Float)
  | .text _ => .ok none
  | d => d.finite?

/-- Compares two values as they are: texts are only equal or not, and only finite numbers have an
order. -/
def onValues (c : Comparator) (a b : Datum) : Except Fault Bool := do
  match c with
  | .plain .eq => return a.same b
  | .plain .ne => return !a.same b
  | c =>
    match c, ← orderKey? a, ← orderKey? b with
    | .plain c, some x, some y => return c.holds x y
    | _, _, _ => return false

/-- Compares the results of computations; what is not finite compares with nothing. -/
def onResults (c : Comparator) (a b : Datum) : Except Fault Bool := do
  match c, ← a.finite?, ← b.finite? with
  | .plain c, some x, some y => return c.holdsNearly x y
  | _, _, _ => return false

def onFloats (c : Comparison) (x y : Float) : Bool :=
  x.isFinite && y.isFinite && c.holdsNearly x y

end Comparison

namespace LeftSide

/-- What a side is worth; the reason is that of the context. -/
def resolve (s : Sight) : LeftSide → Except Fault Operand
  | builtin b => (s.readD b.name 0.0).map .number
  | named name => (s.readD name 0.0).map .number
  | reason => .ok (.reason (Reason.ofDatum ((s.context.get? "reason").getD .null)))

end LeftSide

namespace RightSide

def resolve (s : Sight) : RightSide → Except Fault Operand
  | number x => .ok (.number ((finiteOnly x).getD 0.0))
  | named name => (s.readD name 0.0).map .number
  | builtin b => (s.readD b.name 0.0).map .number
  | reason r => .ok (.reason r)

end RightSide

namespace Rule

open Session

def formulaValue (s : Sight) (text : String) (fallback : Float) : Live Float := do
  lift (← evalFormula s text (.float fallback)).toFloat

/-- Decides the computed comparison of a rule. -/
def holdsComputed (r : Rule) (s : Sight) (left right : Float) : Live Bool := do
  let c := r.computed
  match c.valueMode with
  | .expr => evalPredicate s r.booleanExpr false
  | .box =>
    let a ← formulaValue s c.leftExpr left
    let b ← formulaValue s c.rightExpr right
    let result := c.mathOp.apply a b
    let expected ← match c.resultMode with
      | .pair => do
        let a ← formulaValue s c.expectLeftExpr right
        let b ← formulaValue s c.expectRightExpr 0.0
        pure (c.expectMathOp.apply a b)
      | .fixed => formulaValue s c.expectExpr 0.0
    return c.resultCmp.onFloats result expected

/-- Decides a rule. -/
def holds (r : Rule) (s : Sight) : Live Bool := do
  let left ← lift (r.left.resolve s)
  let right ← lift (r.right.resolve s)
  if r.usesComputed then
    r.holdsComputed s (← lift left.toDatum.finiteOrZero) (← lift right.toDatum.finiteOrZero)
  else lift (Comparison.onValues r.op left.toDatum right.toDatum)

theorem holds_resolved {r : Rule} {s : Sight} {left right : Operand} (hl : r.left.resolve s = .ok left)
    (hr : r.right.resolve s = .ok right) : r.holds s =
      if r.usesComputed then do
        r.holdsComputed s (← lift left.toDatum.finiteOrZero) (← lift right.toDatum.finiteOrZero)
      else lift (Comparison.onValues r.op left.toDatum right.toDatum) := by
  have unfolded : r.holds s = lift (r.left.resolve s) >>= fun left =>
      lift (r.right.resolve s) >>= fun right =>
        if r.usesComputed then do
          r.holdsComputed s (← lift left.toDatum.finiteOrZero) (← lift right.toDatum.finiteOrZero)
        else lift (Comparison.onValues r.op left.toDatum right.toDatum) := rfl
  rw [unfolded, hl, hr]
  rfl

end Rule

def Link.join : Link → Bool → Bool → Bool
  | and, a, b => a && b
  | or, a, b => a || b

namespace Filter

/-- Joins the rules that are left to what is decided. Every rule is decided. -/
def holdsFrom (s : Sight) (decided : Bool) : List Rule → Live Bool
  | [] => return decided
  | r :: rest => do
    let ok ← r.holds s
    holdsFrom s (r.link.join decided ok) rest

/-- Decides a filter. A filter that is not enabled always passes. -/
def holds (f : Filter) (s : Sight) : Live Bool := do
  if !f.enabled then return true
  match f.rules with
  | [] => return true
  | r :: rest => do
    let ok ← r.holds s
    holdsFrom s ok rest

end Filter

end EmitterLogic
