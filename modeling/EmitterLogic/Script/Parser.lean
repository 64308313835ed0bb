import EmitterLogic.Script.Syntax
import EmitterLogic.Number.Shortest

/-!
Reading scripts. The grammar is written once, as parsers over the parsers of what is nested inside:
`assignmentOver` and `statementOver` take those for nested expressions and nested statements.
`assignment` and `statement` tie the knot for a bound on the depth; a script of `n` tokens nests
less deep than `n + 1`.
-/

namespace EmitterLogic.Script

/-- A parser takes tokens from the front of a list, whose last one marks the end of the script. -/
abbrev Parser (α : Type) := StateT (List Token) (Except Failure) α

variable {α : Type}

namespace Parser

def endToken : Token := ⟨.finish, 0, false⟩

def front (ts : List Token) : Token := ts.head?.getD endToken

def behind : List Token → List Token
  | _ :: t :: rest => t :: rest
  | ts => ts

def peek : Parser Token := return front (← get)

def next : Parser Token := do
  let ts ← get
  set (behind ts)
  return front ts

def remaining : Parser Nat := return (← get).length

def failAt (cause : SyntaxCause) (t : Token) : Parser α := throw (.at cause t.position)

def kindText : TokenKind → String
  | .number x => numeral x
  | .text s => s
  | .word s => s
  | .mark m => m.text
  | .finish => ""

/-- Fails because of a token that cannot stand where it does. -/
def refuse (t : Token) : Parser α :=
  match t.kind with
  | .finish => failAt .unexpectedEnd t
  | kind => failAt (.unexpectedToken (kindText kind)) t

def refuseFront : Parser α := do refuse (← peek)

def atMark (m : Mark) : Parser Bool := return (← peek).isMark m

/-- Takes a mark if it is there. -/
def eat (m : Mark) : Parser Bool := do
  if ← atMark m then
    let _ ← next
    return true
  else return false

def eatWord (w : String) : Parser Bool := do
  if (← peek).isWord w then
    let _ ← next
    return true
  else return false

def expect (m : Mark) : Parser Unit := do
  if !(← eat m) then refuseFront

def expectWord (w : String) : Parser Unit := do
  if !(← eatWord w) then refuseFront

/-- Takes a word that may name a variable. -/
def freeWord : Parser String := do
  match (← peek).freeWord? with
  | some w => let _ ← next; return w
  | none => refuseFront

/-- The end of a simple statement: a semicolon, or a place where it may be left out. -/
def endOfStatement : Parser Unit := do
  if !(← eat .semicolon) then
    let t ← peek
    if !(t.isFinish || t.afterBreak || t.isMark .rightBrace) then refuse t

/-- Items with commas between them, at least one. -/
def commaList (item : Parser α) : Nat → Parser (List α)
  | 0 => refuseFront
  | n + 1 => do
    let a ← item
    if ← eat .comma then return a :: (← commaList item n) else return [a]

def commaSeparated (item : Parser α) : Parser (List α) := do commaList item (← remaining)

/-- Items with commas between them and perhaps after the last one, up to a closing mark. -/
def closedList (item : Parser α) (close : Mark) : Nat → Parser (List α)
  | 0 => refuseFront
  | n + 1 => do
    if ← eat close then return []
    let a ← item
    if ← eat .comma then return a :: (← closedList item close n)
    expect close
    return [a]

/-- Operands with operators of one level between them, grouped from the left. -/
def chainFrom (op? : Mark → Option (Expr → Expr → Expr)) (operand : Parser Expr) (left : Expr) :
    Nat → Parser Expr
  | 0 => return left
  | n + 1 => do
    match (← peek).mark?.bind op? with
    | none => return left
    | some make =>
      let _ ← next
      let right ← operand
      chainFrom op? operand (make left right) n

def chain (op? : Mark → Option (Expr → Expr → Expr)) (operand : Parser Expr) : Parser Expr := do
  let left ← operand
  chainFrom op? operand left (← remaining)

/-- How many brackets a token opens; closing ones count below zero. -/
def bracketStep (t : Token) : Int :=
  match t.kind with
  | .mark .leftParen | .mark .leftBracket | .mark .leftBrace => 1
  | .mark .rightParen | .mark .rightBracket | .mark .rightBrace => -1
  | _ => 0

/-- The tokens from the one on that closes the bracket at the front. -/
def fromClosing : Int → List Token → List Token
  | _, [] => []
  | depth, t :: rest =>
    let step := bracketStep t
    if step < 0 && depth + step == 0 then t :: rest else fromClosing (depth + step) rest

def arrowNext (ts : List Token) : Bool :=
  let t := front ts
  t.isMark .arrow && !t.afterBreak

/-- Is the front of the tokens the head of an arrow function? -/
def arrowAhead (ts : List Token) : Bool :=
  let t := front ts
  if t.freeWord?.isSome then arrowNext (behind ts)
  else if t.isMark .leftParen then
    match fromClosing 0 ts with
    | [] => false
    | close => arrowNext (behind close)
  else false

end Parser

open Script.Parser

section Grammar

variable (assignment : Parser Expr) (statement : Parser Stmt)

def expressionOver : Parser Expr :=
  chain (fun m => if m == .comma then some (.binary .sequence) else none) assignment

def blockItems : Nat → Parser (List Stmt)
  | 0 => refuseFront
  | n + 1 => do
    if ← eat .rightBrace then return []
    if (← peek).isFinish then refuseFront
    let s ← statement
    return s :: (← blockItems n)

def blockOver : Parser Block := do
  expect .leftBrace
  return .mk (← blockItems statement (← remaining))

def paramOver : Parser Param := do
  let name ← freeWord
  if ← eat .assign then return .mk name (some (← assignment)) else return .mk name none

def paramsOver : Parser (List Param) := do
  expect .leftParen
  if ← eat .rightParen then return []
  let params ← commaSeparated (paramOver assignment)
  expect .rightParen
  return params

def functionOver (name : String) : Parser Func := do
  let params ← paramsOver assignment
  return .mk name params (.block (← blockOver statement))

def arrowOver : Parser Func := do
  let params ← match (← peek).freeWord? with
    | some name => let _ ← next; pure [Param.mk name none]
    | none => paramsOver assignment
  expect .arrow
  if ← atMark .leftBrace then return .mk "" params (.block (← blockOver statement))
  return .mk "" params (.concise (← assignment))

def entryOver : Parser Entry := do
  let t ← next
  let key ← match t.kind with
    | .word w => pure w
    | .text s => pure s
    | .number x =>
      pure (if x.isFinite then plainNumeral x else if x.isNaN then "NaN" else "Infinity")
    | _ => refuse t
  if ← eat .colon then return .mk key (← assignment)
  match t.kind with
  | .word w => return .mk key (.name w t.position)
  | _ => refuseFront

def literalOf? (w : String) : Option Literal :=
  if w == "true" then some (.bool true)
  else if w == "false" then some (.bool false)
  else if w == "null" then some .null
  else if w == "undefined" then some .undefined
  else none

/-- The expression that begins with a word. -/
def wordOver (w : String) (t : Token) : Parser Expr := do
  match literalOf? w with
  | some l => let _ ← next; return .literal l
  | none =>
    if w == "function" then
      let _ ← next
      let name ← match (← peek).kind with
        | .word _ => freeWord
        | _ => pure ""
      return .func (← functionOver assignment statement name)
    else if isReserved w then failAt (.unsupportedKeyword w) t
    else
      let _ ← next
      return .name w t.position

def primaryOver : Parser Expr := do
  let t ← peek
  match t.kind with
  | .number x => let _ ← next; return .number x
  | .text s => let _ ← next; return .text s
  | .word w => wordOver assignment statement w t
  | .mark .leftParen =>
    let _ ← next
    let e ← expressionOver assignment
    expect .rightParen
    return e
  | .mark .leftBracket =>
    let _ ← next
    return .list (← closedList assignment .rightBracket (← remaining))
  | .mark .leftBrace =>
    let _ ← next
    return .object (← closedList (entryOver assignment) .rightBrace (← remaining))
  | _ => refuse t

/-- Members, elements and calls of an expression. -/
def accessFrom (e : Expr) : Nat → Parser Expr
  | 0 => return e
  | n + 1 => do
    if ← eat .dot then
      match (← peek).kind with
      | .word w => let _ ← next; accessFrom (.member e w) n
      | _ => refuseFront
    else if ← eat .leftParen then
      if ← eat .rightParen then accessFrom (.call e []) n
      else
        let args ← commaSeparated assignment
        expect .rightParen
        accessFrom (.call e args) n
    else if ← eat .leftBracket then
      let property ← expressionOver assignment
      expect .rightBracket
      accessFrom (.index e property) n
    else return e

def accessOver : Parser Expr := do
  let e ← primaryOver assignment statement
  accessFrom assignment e (← remaining)

def updateOp? : Mark → Option UpdateOp
  | .increment => some .increment
  | .decrement => some .decrement
  | _ => none

def afterOver : Parser Expr := do
  let e ← accessOver assignment statement
  let t ← peek
  match t.mark?.bind updateOp? with
  | none => return e
  | some op =>
    if t.afterBreak then return e
    match e.target? with
    | some target => let _ ← next; return .update op false target
    | none => failAt .invalidAfter t

def unaryOp? (t : Token) : Option UnaryOp :=
  match t.kind with
  | .mark .not => some .not
  | .mark .minus => some .negate
  | .mark .plus => some .toNumber
  | .word "typeof" => some .typeOf
  | _ => none

def unaryFrom : Nat → Parser Expr
  | 0 => afterOver assignment statement
  | n + 1 => do
    let t ← peek
    match unaryOp? t, t.mark?.bind updateOp? with
    | some op, _ =>
      let _ ← next
      return .unary op (← unaryFrom n)
    | none, some op =>
      let _ ← next
      match (← unaryFrom n).target? with
      | some target => return .update op true target
      | none => failAt .invalidBefore t
    | none, none => afterOver assignment statement

def unaryOver : Parser Expr := do unaryFrom assignment statement (← remaining)

def productOp? : Mark → Option (Expr → Expr → Expr)
  | .star => some (.binary (.arith .mul))
  | .slash => some (.binary (.arith .div))
  | .percent => some (.binary (.arith .rem))
  | _ => none

def sumOp? : Mark → Option (Expr → Expr → Expr)
  | .plus => some (.binary (.arith .add))
  | .minus => some (.binary (.arith .sub))
  | _ => none

def relationOp? : Mark → Option (Expr → Expr → Expr)
  | .lt => some (.binary (.compare .lt))
  | .gt => some (.binary (.compare .gt))
  | .le => some (.binary (.compare .le))
  | .ge => some (.binary (.compare .ge))
  | _ => none

def equalityOp? : Mark → Option (Expr → Expr → Expr)
  | .looseEq => some (.binary .looseEq)
  | .looseNe => some (.binary .looseNe)
  | .strictEq => some (.binary .strictEq)
  | .strictNe => some (.binary .strictNe)
  | _ => none

def conjunctionOp? : Mark → Option (Expr → Expr → Expr)
  | .and => some (.logical .and)
  | _ => none

def disjunctionOp? : Mark → Option (Expr → Expr → Expr)
  | .or => some (.logical .or)
  | _ => none

def operatorsOver : Parser Expr :=
  chain disjunctionOp? <| chain conjunctionOp? <| chain equalityOp? <| chain relationOp? <|
    chain sumOp? <| chain productOp? <| unaryOver assignment statement

def conditionalOver : Parser Expr := do
  let test ← operatorsOver assignment statement
  if ← eat .question then
    let yes ← assignment
    expect .colon
    return .conditional test yes (← assignment)
  return test

def assignOp? : Mark → Option AssignOp
  | .assign => some .plain
  | .addAssign => some (.compound .add)
  | .subAssign => some (.compound .sub)
  | .mulAssign => some (.compound .mul)
  | .divAssign => some (.compound .div)
  | .remAssign => some (.compound .rem)
  | _ => none

/-- An expression without commas. -/
def assignmentOver : Parser Expr := do
  if arrowAhead (← get) then return .func (← arrowOver assignment statement)
  let left ← conditionalOver assignment statement
  let t ← peek
  match t.mark?.bind assignOp? with
  | none => return left
  | some op =>
    let _ ← next
    match left.target? with
    | some target => return .assign op target (← assignment)
    | none => failAt .invalidAssignment t

def declaratorOver (kind : DeclKind) : Parser Declarator := do
  let name ← freeWord
  if ← eat .assign then return .mk name (some (← assignment))
  if kind == .constDecl then failAt .missingInitializer (← peek)
  return .mk name none

def declKind? (w : String) : Option DeclKind :=
  if w == "let" then some .letDecl
  else if w == "const" then some .constDecl
  else if w == "var" then some .varDecl
  else none

def declarationOver (kind : DeclKind) : Parser Stmt := do
  return .declare kind (← commaSeparated (declaratorOver assignment kind))

def expressionStatement : Parser Stmt := do
  let e ← expressionOver assignment
  endOfStatement
  return .expr e

/-- An expression in parentheses. -/
def testOver : Parser Expr := do
  expect .leftParen
  let e ← expressionOver assignment
  expect .rightParen
  return e

def branchOver : Parser Stmt := do
  let test ← testOver assignment
  let yes ← statement
  if ← eatWord "else" then return .branch test yes (some (← statement))
  return .branch test yes none

def doOver : Parser Stmt := do
  let body ← statement
  expectWord "while"
  let test ← testOver assignment
  let _ ← eat .semicolon
  return .doLoop body test

def loopInit : Parser (Option Stmt) := do
  let t ← peek
  if t.isMark .semicolon then return none
  let kind? := match t.kind with
    | .word w => declKind? w
    | _ => none
  match kind? with
  | some kind => let _ ← next; return some (← declarationOver assignment kind)
  | none => return some (.expr (← expressionOver assignment))

def expressionUnless (m : Mark) : Parser (Option Expr) := do
  if ← atMark m then return none else return some (← expressionOver assignment)

def forOver : Parser Stmt := do
  expect .leftParen
  let init ← loopInit assignment
  expect .semicolon
  let test ← expressionUnless assignment .semicolon
  expect .semicolon
  let update ← expressionUnless assignment .rightParen
  expect .rightParen
  return .forLoop init test update (← statement)

def returnOver : Parser Stmt := do
  let t ← peek
  if t.isFinish || t.afterBreak || t.isMark .semicolon || t.isMark .rightBrace then
    let _ ← eat .semicolon
    return .returning none
  let e ← expressionOver assignment
  endOfStatement
  return .returning (some e)

def throwOver : Parser Stmt := do
  let t ← peek
  if t.afterBreak then failAt .breakAfterThrow t
  let e ← expressionOver assignment
  endOfStatement
  return .throwing e

def handlerOver : Parser (Option Catch) := do
  if ← eatWord "catch" then
    if ← eat .leftParen then
      let name ← freeWord
      expect .rightParen
      return some (.mk (some name) (← blockOver statement))
    return some (.mk none (← blockOver statement))
  return none

def attemptOver : Parser Stmt := do
  let body ← blockOver statement
  let handler ← handlerOver statement
  let finalizer ← if ← eatWord "finally" then some <$> blockOver statement else pure none
  if handler.isNone && finalizer.isNone then failAt .missingHandler (← peek)
  return .attempt body handler finalizer

/-- The statement that a keyword begins, if it begins one. -/
def keywordOver? (w : String) : Option (Parser Stmt) :=
  match declKind? w with
  | some kind => some do
    let s ← declarationOver assignment kind
    endOfStatement
    return s
  | none =>
    match w with
    | "function" => some do
      let name ← freeWord
      return .func (← functionOver assignment statement name)
    | "if" => some (branchOver assignment statement)
    | "while" => some do
      let test ← testOver assignment
      return .whileLoop test (← statement)
    | "do" => some (doOver assignment statement)
    | "for" => some (forOver assignment statement)
    | "return" => some (returnOver assignment)
    | "break" => some do
      endOfStatement
      return .breaking
    | "continue" => some do
      endOfStatement
      return .continuing
    | "throw" => some (throwOver assignment)
    | "try" => some (attemptOver statement)
    | _ => none

def statementOver : Parser Stmt := do
  match (← peek).kind with
  | .mark .leftBrace => return .block (← blockOver statement)
  | .mark .semicolon => let _ ← next; return .empty
  | .word w =>
    match keywordOver? assignment statement w with
    | some rest => let _ ← next; rest
    | none => expressionStatement assignment
  | _ => expressionStatement assignment

end Grammar

mutual

def assignment : Nat → Parser Expr
  | 0 => refuseFront
  | n + 1 => assignmentOver (assignment n) (statement n)

def statement : Nat → Parser Stmt
  | 0 => refuseFront
  | n + 1 => statementOver (assignment n) (statement n)

end

def expression : Parser Expr := do
  let n ← remaining
  expressionOver (assignment (n + 1))

def statementsFrom (depth : Nat) : Nat → Parser (List Stmt)
  | 0 => return []
  | n + 1 => do
    if (← peek).isFinish then return []
    let s ← statement depth
    return s :: (← statementsFrom depth n)

def program : Parser Program := do
  let n ← remaining
  return ⟨← statementsFrom (n + 1) (n + 1)⟩

/-- A single expression up to the end of the tokens. -/
def wholeExpression : Parser Expr := do
  if (← peek).isFinish then refuseFront
  let e ← expression
  if !(← peek).isFinish then refuseFront
  return e

/-- Why a text is no script: what is wrong and on which line, or a number that is none. Lines are
counted unless the text is empty. -/
inductive ParseError where
  | syntaxError (cause : SyntaxCause) (line : Option Nat)
  | fault (f : Fault)
deriving DecidableEq, Repr

def syntaxMessage (cause : SyntaxCause) : Option Nat → String
  | some line => cause.message ++ " (line " ++ toString line ++ ")"
  | none => cause.message

def lineOf (text : String) (position : Nat) : Option Nat :=
  if text.isEmpty then none else some (((text.toList.take position).count '\n') + 1)

def Failure.within (text : String) : Failure → ParseError
  | .at cause position => .syntaxError cause (lineOf text position)
  | .fault f => .fault f

/-- Reads the whole of a text. -/
def parseWith (p : Parser α) (text : String) : Except ParseError α :=
  match tokens text >>= fun ts => p.run ts with
  | .ok (a, _) => .ok a
  | .error e => .error (e.within text)

def parseProgram (text : String) : Except ParseError Program := parseWith program text

def parseExpression (text : String) : Except ParseError Expr := parseWith wholeExpression text

end EmitterLogic.Script
