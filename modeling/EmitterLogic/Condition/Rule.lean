import EmitterLogic.Term.Basic
import EmitterLogic.Formula.Token

/-!
Rules of conditions. A rule compares two sides; beside them it carries a computed comparison, which
it uses when it asks for equality of numbers.
-/

namespace EmitterLogic

def chosen {α : Type} (options : List α) (name : α → String) (default : α) (word : String) : α :=
  (options.find? fun a => name a == word).getD default

/-- How a rule is joined to those before it. -/
inductive Link where
  | and | or
deriving DecidableEq, Repr

def Link.name : Link → String
  | and => "and"
  | or => "or"

inductive Comparison where
  | eq | ne | gt | ge | lt | le
deriving DecidableEq, Repr

namespace Comparison

def sign : Comparison → String
  | eq => "=="
  | ne => "!="
  | gt => ">"
  | ge => ">="
  | lt => "<"
  | le => "<="

def all : List Comparison := [eq, ne, gt, ge, lt, le]

def ofSign? (s : String) : Option Comparison := all.find? (·.sign == s)

end Comparison

/-- A comparison of the two sides, or the computed comparison. -/
inductive Comparator where
  | plain (c : Comparison)
  | computed
deriving DecidableEq, Repr

def Comparator.name : Comparator → String
  | plain c => c.sign
  | computed => "calc_eq"

def Comparator.all : List Comparator := Comparison.all.map .plain ++ [.computed]

/-- Does a computed comparison work on its terms, or on a free-form predicate? -/
inductive ValueMode where
  | box | expr
deriving DecidableEq, Repr

def ValueMode.name : ValueMode → String
  | box => "box"
  | expr => "expr"

/-- Is the result compared with a single term, or with the result of two more? -/
inductive ResultMode where
  | fixed | pair
deriving DecidableEq, Repr

def ResultMode.name : ResultMode → String
  | fixed => "fixed"
  | pair => "calc"

inductive LeftSide where
  | builtin (b : Builtin)
  | named (name : String)
  | reason
deriving DecidableEq, Repr

inductive RightSide where
  | number (x : Float)
  | named (name : String)
  | builtin (b : Builtin)
  | reason (r : Reason)
deriving Repr

namespace LeftSide

def kindName : LeftSide → String
  | builtin b => b.name
  | named _ => "var"
  | reason => "reason"

def variableName : LeftSide → String
  | named name => name
  | _ => ""

/-- The term of a side; a reason has none and counts as zero. -/
def toTerm : LeftSide → Term
  | builtin b => .builtin b
  | named name => .named name
  | reason => .zero

end LeftSide

namespace RightSide

def kindName : RightSide → String
  | number _ => "number"
  | named _ => "var"
  | builtin b => b.name
  | reason _ => "reason"

def value : RightSide → Datum
  | number x => .float x
  | named name => .text name
  | builtin _ => .float 0.0
  | reason r => .text r.tag

def isReason : RightSide → Bool
  | reason _ => true
  | _ => false

/-- The text of a side in a formula. -/
def toExpr : RightSide → String
  | number x => (Term.number x).toExpr
  | named name => (Term.named name).toExpr
  | builtin b => b.name
  | reason _ => "0"

def toReason (r : RightSide) : Reason := Reason.ofDatum r.value

end RightSide

/-- The computed comparison of a rule: `left mathOp right` is compared with a fixed term, or with
`expectLeft expectMathOp expectRight`. -/
structure Computed where
  valueMode : ValueMode
  mathOp : ArithOp
  expectMathOp : ArithOp
  resultMode : ResultMode
  resultCmp : Comparison
  leftTerm : Term
  rightTerm : Term
  fixedTerm : Term
  expectLeftTerm : Term
  expectRightTerm : Term
  leftExpr : String
  rightExpr : String
  expectExpr : String
  expectLeftExpr : String
  expectRightExpr : String

structure Rule where
  id : String
  link : Link
  left : LeftSide
  op : Comparator
  right : RightSide
  computed : Computed
  booleanExpr : String

namespace Computed

/-- The comparison as a text. -/
def toText (c : Computed) : String :=
  let left := "((" ++ c.leftExpr ++ ") " ++ c.mathOp.sign ++ " (" ++ c.rightExpr ++ "))"
  let right :=
    match c.resultMode with
    | .fixed => c.expectExpr
    | .pair =>
      "((" ++ c.expectLeftExpr ++ ") " ++ c.expectMathOp.sign ++ " (" ++ c.expectRightExpr ++ "))"
  left ++ " " ++ c.resultCmp.sign ++ " (" ++ right ++ ")"

end Computed

namespace Rule

def hasReasonSide (r : Rule) : Bool := r.left == .reason || r.right.isReason

def usesComputed (r : Rule) : Bool :=
  r.op == .computed || (r.op == .plain .eq && !r.hasReasonSide)

def termEntries (key : String) (t : Term) : Fields Datum :=
  [(key ++ "TermType", .text t.kind.name), (key ++ "TermValue", t.value)]

def toDatum (r : Rule) : Datum :=
  let c := r.computed
  .object <| [
    ("id", .text r.id),
    ("link", .text r.link.name),
    ("left", .text r.left.kindName),
    ("leftVar", .text r.left.variableName),
    ("op", .text r.op.name),
    ("right", .text r.right.kindName),
    ("rightValue", r.right.value),
    ("calcValueMode", .text c.valueMode.name),
    ("calcMathOp", .text c.mathOp.sign),
    ("calcExpectMathOp", .text c.expectMathOp.sign),
    ("calcResultMode", .text c.resultMode.name),
    ("calcResultCmp", .text c.resultCmp.sign)] ++
    termEntries "calcLeft" c.leftTerm ++ termEntries "calcRight" c.rightTerm ++
    termEntries "calcFixed" c.fixedTerm ++ termEntries "calcExpectLeft" c.expectLeftTerm ++
    termEntries "calcExpectRight" c.expectRightTerm ++ [
    ("calcLeftExpr", .text c.leftExpr),
    ("calcRightExpr", .text c.rightExpr),
    ("calcExpectExpr", .text c.expectExpr),
    ("calcExpectLeftExpr", .text c.expectLeftExpr),
    ("calcExpectRightExpr", .text c.expectRightExpr),
    ("calcBooleanExpr", .text r.booleanExpr)]

end Rule

end EmitterLogic
