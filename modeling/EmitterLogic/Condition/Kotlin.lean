import EmitterLogic.Condition.Filter
import EmitterLogic.Session

/-!
Conditions in generated code. Each step of the chain is put into parentheses, so that it is joined
as the filter joins it.
-/

namespace EmitterLogic

open Kotlin Session

namespace LeftSide

def toKotlin (map : NameMap) : LeftSide → String
  | builtin b => Kotlin.builtin map b
  | named name => if isIdent name then trimmed name else "0.0"
  | reason =>
    let target := map.firstOf ["reason"]
    if target.isEmpty then "reason" else target

end LeftSide

namespace RightSide

def toKotlin (map : NameMap) (style : NumberStyle) : RightSide → Except Fault String
  | number x => style.write (.float x)
  | named name => .ok (if isIdent name then trimmed name else "0.0")
  | builtin b => .ok (Kotlin.builtin map b)
  | reason r => .ok (Kotlin.reason r)

end RightSide

/-- The code of two formulas with an operator between them. -/
def pairToKotlin (map : NameMap) (style : NumberStyle) (left : String) (op : ArithOp)
    (right : String) : Live String := do
  let a ← formulaToKotlin map style left
  let b ← formulaToKotlin map style right
  return "(((" ++ a ++ ") " ++ op.sign ++ " (" ++ b ++ ")).toDouble())"

/-- The code of a comparison of two results. -/
def Comparison.resultToKotlin (c : Comparison) (left right : String) : String :=
  let difference := "kotlin.math.abs((" ++ left ++ ") - (" ++ right ++ "))"
  match c with
  | .eq => "(" ++ difference ++ " <= 1e-6)"
  | .ne => "(" ++ difference ++ " > 1e-6)"
  | c => "((" ++ left ++ ") " ++ c.sign ++ " (" ++ right ++ "))"

namespace Rule

def computedToKotlin (r : Rule) (map : NameMap) (style : NumberStyle) : Live String := do
  let c := r.computed
  match c.valueMode with
  | .expr => return "(" ++ (← predicateToKotlin map r.booleanExpr) ++ ")"
  | .box =>
    let left ← pairToKotlin map style c.leftExpr c.mathOp c.rightExpr
    let right ← match c.resultMode with
      | .pair => pairToKotlin map style c.expectLeftExpr c.expectMathOp c.expectRightExpr
      | .fixed => do pure ("((" ++ (← formulaToKotlin map style c.expectExpr) ++ ").toDouble())")
    return c.resultCmp.resultToKotlin left right

def toKotlin (r : Rule) (map : NameMap) (style : NumberStyle) : Live String := do
  if r.usesComputed then r.computedToKotlin map style
  else
    let left := r.left.toKotlin map
    let right ← lift (r.right.toKotlin map style)
    return "(" ++ left ++ " " ++ r.op.name ++ " " ++ right ++ ")"

end Rule

def Link.toKotlin : Link → String
  | and => "&&"
  | or => "||"

namespace Filter

def toKotlinFrom (map : NameMap) (style : NumberStyle) (done : String) : List Rule → Live String
  | [] => return done
  | r :: rest => do
    let next ← r.toKotlin map style
    toKotlinFrom map style ("(" ++ done ++ " " ++ r.link.toKotlin ++ " " ++ next ++ ")") rest

/-- The code of a filter; empty for one that always passes. -/
def toKotlin (f : Filter) (map : NameMap) (style : NumberStyle) : Live String := do
  if !f.enabled then return ""
  match f.rules with
  | [] => return ""
  | r :: rest => do toKotlinFrom map style (← r.toKotlin map style) rest

end Filter

end EmitterLogic
