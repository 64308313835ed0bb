import EmitterLogic.Condition.Normal
import EmitterLogic.Text.Scan

/-!
Conditions written as a line of text, such as `age >= 1 && hp < 2`. Segments that are no comparison
are passed over.
-/

namespace EmitterLogic

namespace Rule

open Text

/-- A text cut at the joints `&&` and `||`; each piece comes with the joint before it. -/
def pieces : Link → List Char → List Char → List (Link × List Char)
  | link, piece, [] => [(link, piece.reverse)]
  | link, piece, '&' :: '&' :: rest => (link, piece.reverse) :: pieces .and [] rest
  | link, piece, '|' :: '|' :: rest => (link, piece.reverse) :: pieces .or [] rest
  | link, piece, c :: rest => pieces link (c :: piece) rest

def isNameChar (c : Char) : Bool := isIdentPart c || c == '.'

/-- A segment in its three parts. A comparison needs a right side on its own line; an order sign
gives up its equals sign for that. -/
def segment? (s : List Char) : Option (String × Comparison × String) :=
  match s with
  | [] => none
  | c :: rest =>
    if !isIdentStart c then none
    else
      let name := c :: rest.takeWhile isNameChar
      let body := trimStart (rest.dropWhile isNameChar)
      ([.eq, .ne, .ge, .le, .gt, .lt] : List Comparison).findSome? fun op =>
        (dropWord? op.sign.toList body).bind fun right =>
          let right := trimStart right
          if right.isEmpty || right.contains '\n' then none
          else some (String.ofList name, op, String.ofList right)

def isReasonLiteral (s : String) : Bool :=
  (Reason.ofTag? s).isSome || (Reason.unqualified? s).isSome

def leftSeed (s : String) (allowReason : Bool) : String × String :=
  if s == "var" then ("var", "")
  else match builtin? s with
    | some b => (b.name, "")
    | none =>
      if allowReason && (s == "reason" || isReasonLiteral s) then ("reason", "")
      else if isIdent s then ("var", s)
      else ("age", "")

def rightSeed (s : String) (allowReason : Bool) : String × Datum :=
  let s := trimmed s
  if isNumeral s then ("number", .float ((Reading.float? s.toList).getD 0.0))
  else if allowReason && s == "reason" then ("reason", .text "AGE")
  else if allowReason && isReasonLiteral s then ("reason", .text (Reason.ofText s).tag)
  else if s == "number" || s == "var" then (s, .int 0)
  else match builtin? s with
    | some b => (b.name, .int 0)
    | none => if isIdent s then ("var", .text s) else ("number", .int 0)

/-- The terms of a plain equality: the left side less zero is compared with the right side. -/
def equalitySeed (left : String × String) (right : String × Datum) :
    Except Fault (Fields Datum) := do
  if left.1 == "reason" || right.1 == "reason" then return []
  let leftTerm ← Term.normalize (.text left.1) (if left.1 == "var" then .text left.2 else .int 0)
  let fixedTerm ← Term.normalize (.text right.1) right.2
  return termEntries "calcLeft" leftTerm ++
    [("calcRightTermType", .text "number"), ("calcRightTermValue", .int 0)] ++
    termEntries "calcFixed" fixedTerm

/-- The rule of a segment. -/
def ofSegment (link : Link) (name : String) (op : Comparison) (right : String)
    (allowReason : Bool) : Except Fault Rule := do
  let left := leftSeed name allowReason
  let right := rightSeed right allowReason
  let seed : Fields Datum := [
    ("link", .text link.name),
    ("op", .text op.sign),
    ("left", .text left.1),
    ("leftVar", .text left.2),
    ("right", .text right.1),
    ("rightValue", right.2)]
  let equality ← if op == .eq then equalitySeed left right else .ok []
  create (seed.merge equality) allowReason

/-- The rules of the pieces of a text. The first rule is joined to nothing. -/
def ofPieces (allowReason : Bool) : List Rule → List (Link × List Char) → Except Fault (List Rule)
  | done, [] => .ok done.reverse
  | done, (link, piece) :: rest =>
    match segment? (trim piece) with
    | none => ofPieces allowReason done rest
    | some (name, op, right) => do
      let link := if done.isEmpty then .and else link
      ofPieces allowReason ((← ofSegment link name op right allowReason) :: done) rest

def ofText (text : String) (allowReason : Bool := false) : Except Fault (List Rule) :=
  ofPieces allowReason [] (pieces .and [] (trim text.toList))

end Rule

structure Filter where
  enabled : Bool
  rules : List Rule

namespace Filter

def toDatum (f : Filter) : Datum :=
  .object [("enabled", .bool f.enabled), ("rules", .list (f.rules.map Rule.toDatum))]

def withReasonRight (allowReason : Bool) (r : Rule) : Rule :=
  if allowReason && r.left == .reason then { r with right := .reason r.right.toReason } else r

def headed : List Rule → List Rule
  | [] => []
  | r :: rest => { r with link := .and } :: rest

def rulesOf (items : List Datum) (allowReason : Bool) : Except Fault (List Rule) :=
  items.mapM (Rule.ofDatum · allowReason)

/-- The filter of an object: its rules, or those of its line of text. -/
def ofObject (d : Datum) (allowReason : Bool) : Except Fault Filter := do
  let given ← match d.getD "rules" with
    | .list items => rulesOf items allowReason
    | _ => Rule.ofText ((d.getD "expr").orElse (d.getD "condition")).textOrEmpty allowReason
  let rules ← if given.isEmpty then (Rule.create [] allowReason).map ([·]) else .ok given
  return {
    enabled := (d.getD "enabled").isTruthy
    rules := (headed rules).map (withReasonRight allowReason) }

def objectOfText (s : String) : Datum :=
  .object [("enabled", .bool (trimmed s != "")), ("expr", .text s)]

/-- The filter of a document: of an object, or of a line of text. -/
def ofDatum (d : Datum) (allowReason : Bool := false) : Except Fault Filter :=
  match d with
  | .object _ => ofObject d allowReason
  | .text s => ofObject (objectOfText s) allowReason
  | _ => ofObject (.object []) allowReason

/-- A new filter from a seed. -/
def create (seed : Fields Datum) (allowReason : Bool := false) : Except Fault Filter := do
  let rule ← Rule.create [] allowReason
  let base : Fields Datum := [("enabled", .bool false), ("rules", .list [rule.toDatum])]
  ofDatum (.object (base.merge seed)) allowReason

end Filter

end EmitterLogic
