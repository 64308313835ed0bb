import EmitterLogic.Condition.Rule

/-!
Rules from documents. Any document gives a complete rule: what is missing or means nothing takes its
default, and each part of the computed comparison falls back on the sides of the rule.
-/

namespace EmitterLogic

def newId : String := "000000000000"

def idOf (d : Datum) : String :=
  let d := d.getD "id"
  if d.isTruthy then d.toText else newId

namespace Rule

def wordOf (d : Datum) : String := trimmed d.textUnlessNull

def linkOf (d : Datum) : Link :=
  chosen [.and, .or] Link.name .and (String.ofList ((wordOf d).toList.map Char.toLower))

def comparatorOf (d : Datum) : Comparator :=
  chosen Comparator.all Comparator.name (.plain .ge) (wordOf d)

def mathOpOf (d : Datum) : ArithOp := chosen ArithOp.all ArithOp.sign .sub (wordOf d)

def exprOf (d : Datum) (fallback : String) : String :=
  let s := wordOf d
  if s.isEmpty then (if fallback.isEmpty then "0" else fallback) else s

def leftOf (d : Datum) (allowReason : Bool) : LeftSide :=
  let kind := (d.getD "left").trimmedText
  if kind == "var" then .named (identOrEmpty (d.getD "leftVar").textOrEmpty)
  else if kind == "reason" && allowReason then .reason
  else .builtin ((builtin? kind).getD .age)

def rightOf (d : Datum) (allowReason : Bool) : Except Fault RightSide :=
  let kind := (d.getD "right").trimmedText
  let value := d.getD "rightValue"
  if kind == "var" then .ok (.named (identOrEmpty value.textOrEmpty))
  else if kind == "reason" && allowReason then .ok (.reason (Reason.ofDatum value))
  else match builtin? kind with
    | some b => .ok (.builtin b)
    | none => value.finiteOrZero.map .number

/-- The comparator that suits the sides: reasons are only equal or not, and equality of other sides
is computed. -/
def suited (op : Comparator) (hasReason : Bool) : Comparator :=
  if hasReason then
    match op with
    | .plain .ne => .plain .ne
    | _ => .plain .eq
  else if op == .plain .eq then .computed else op

/-- The term of a part of the computed comparison: of its kind and value, else of its text, else the
fallback. -/
def termOf (d : Datum) (key exprKey : String) (fallback : Term) : Except Fault Term := do
  let t ← Term.infer (d.getD exprKey) fallback.toRaw
  Term.normalize (d.getD (key ++ "TermType")) (d.getD (key ++ "TermValue")) t.toRaw

def computedOf (d : Datum) (left : LeftSide) (right : RightSide) : Except Fault Computed := do
  let rightTerm ← Term.inferText right.toExpr
  let valueMode := chosen [.box, .expr] ValueMode.name .box (wordOf (d.getD "calcValueMode"))
  let left ← termOf d "calcLeft" "calcLeftExpr" left.toTerm
  let right ← termOf d "calcRight" "calcRightExpr" rightTerm
  let fixed ← termOf d "calcFixed" "calcExpectExpr" .zero
  let expectLeft ← termOf d "calcExpectLeft" "calcExpectLeftExpr" rightTerm
  let expectRight ← termOf d "calcExpectRight" "calcExpectRightExpr" .zero
  let expr (key : String) (t : Term) : String :=
    match valueMode with
    | .box => t.toExpr
    | .expr => exprOf (d.getD key) t.toExpr
  return {
    valueMode
    mathOp := mathOpOf (d.getD "calcMathOp")
    expectMathOp := mathOpOf (d.getD "calcExpectMathOp")
    resultMode := chosen [.fixed, .pair] ResultMode.name .fixed (wordOf (d.getD "calcResultMode"))
    resultCmp := chosen Comparison.all Comparison.sign .eq (wordOf (d.getD "calcResultCmp"))
    leftTerm := left
    rightTerm := right
    fixedTerm := fixed
    expectLeftTerm := expectLeft
    expectRightTerm := expectRight
    leftExpr := expr "calcLeftExpr" left
    rightExpr := expr "calcRightExpr" right
    expectExpr := expr "calcExpectExpr" fixed
    expectLeftExpr := expr "calcExpectLeftExpr" expectLeft
    expectRightExpr := expr "calcExpectRightExpr" expectRight }

/-- The rule of a document. -/
def ofDatum (d : Datum) (allowReason : Bool := false) : Except Fault Rule := do
  let left := leftOf d allowReason
  let right ← rightOf d allowReason
  let computed ← computedOf d left right
  return {
    id := idOf d
    link := linkOf (d.getD "link")
    left
    op := suited (comparatorOf (d.getD "op")) (left == .reason || right.isReason)
    right
    computed
    booleanExpr := exprOf (d.getD "calcBooleanExpr") computed.toText }

/-- What a new rule holds where its seed gives nothing. -/
def template : Fields Datum := [
  ("id", .text newId),
  ("link", .text "and"),
  ("left", .text "age"),
  ("leftVar", .text ""),
  ("op", .text ">="),
  ("right", .text "number"),
  ("rightValue", .int 0),
  ("calcValueMode", .text "box"),
  ("calcMathOp", .text "-"),
  ("calcExpectMathOp", .text "+"),
  ("calcResultMode", .text "fixed"),
  ("calcResultCmp", .text "=="),
  ("calcExpectExpr", .text "0"),
  ("calcLeftTermType", .text "age"),
  ("calcLeftTermValue", .int 0),
  ("calcRightTermType", .text "number"),
  ("calcRightTermValue", .int 0)]

def create (seed : Fields Datum) (allowReason : Bool := false) : Except Fault Rule :=
  ofDatum (.object (template.merge (seed.filter fun f => !f.2.isNull))) allowReason

end Rule

end EmitterLogic
