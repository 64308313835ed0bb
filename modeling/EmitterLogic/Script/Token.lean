import EmitterLogic.Term.Name

/-!
The tokens of scripts: numbers, quoted texts, words and marks, each with its place and with the
knowledge whether a line break stands before it. The last token marks the end of the text.
-/

namespace EmitterLogic.Script

/-- The punctuation marks. -/
inductive Mark where
  | strictEq | strictNe | arrow | looseEq | looseNe | le | ge | and | or | increment | decrement
  | addAssign | subAssign | mulAssign | divAssign | remAssign
  | plus | minus | star | slash | percent | lt | gt | assign | not | question | colon
  | leftParen | rightParen | leftBrace | rightBrace | leftBracket | rightBracket
  | comma | semicolon | dot
deriving DecidableEq, Repr

namespace Mark

def text : Mark → String
  | strictEq => "==="
  | strictNe => "!=="
  | arrow => "=>"
  | looseEq => "=="
  | looseNe => "!="
  | le => "<="
  | ge => ">="
  | and => "&&"
  | or => "||"
  | increment => "++"
  | decrement => "--"
  | addAssign => "+="
  | subAssign => "-="
  | mulAssign => "*="
  | divAssign => "/="
  | remAssign => "%="
  | plus => "+"
  | minus => "-"
  | star => "*"
  | slash => "/"
  | percent => "%"
  | lt => "<"
  | gt => ">"
  | assign => "="
  | not => "!"
  | question => "?"
  | colon => ":"
  | leftParen => "("
  | rightParen => ")"
  | leftBrace => "\x7b"
  | rightBrace => "\x7d"
  | leftBracket => "["
  | rightBracket => "]"
  | comma => ","
  | semicolon => ";"
  | dot => "."

/-- All marks; one that begins with another mark stands before it. -/
def all : List Mark :=
  [strictEq, strictNe, arrow, looseEq, looseNe, le, ge, and, or, increment, decrement,
    addAssign, subAssign, mulAssign, divAssign, remAssign,
    plus, minus, star, slash, percent, lt, gt, assign, not, question, colon,
    leftParen, rightParen, leftBrace, rightBrace, leftBracket, rightBracket,
    comma, semicolon, dot]

def at? (s : List Char) : Option Mark := all.find? fun m => m.text.toList.isPrefixOf s

end Mark

inductive TokenKind where
  | number (x : Float)
  | text (s : String)
  | word (s : String)
  | mark (m : Mark)
  | finish
deriving Repr

structure Token where
  kind : TokenKind
  position : Nat
  /-- Does a line break stand before the token? -/
  afterBreak : Bool
deriving Repr

/-- Words that name no variable. -/
def reservedWords : List String :=
  ["let", "const", "var", "function", "return", "if", "else", "while", "do", "for",
    "break", "continue", "true", "false", "null", "undefined", "typeof", "new", "class",
    "this", "try", "catch", "finally", "throw", "switch", "case", "default", "in", "of",
    "instanceof", "delete", "void", "import", "export", "extends", "super", "yield",
    "await", "async", "with"]

def isReserved (word : String) : Bool := reservedWords.contains word

namespace Token

def isMark (t : Token) (m : Mark) : Bool :=
  match t.kind with
  | .mark n => n == m
  | _ => false

def isWord (t : Token) (w : String) : Bool :=
  match t.kind with
  | .word v => v == w
  | _ => false

def isFinish (t : Token) : Bool :=
  match t.kind with
  | .finish => true
  | _ => false

/-- A word that may name a variable. -/
def freeWord? (t : Token) : Option String :=
  match t.kind with
  | .word w => if isReserved w then none else some w
  | _ => none

def mark? (t : Token) : Option Mark :=
  match t.kind with
  | .mark m => some m
  | _ => none

end Token

/-- What is wrong at a place of a script. -/
inductive SyntaxCause where
  | unterminatedComment
  | invalidToken
  | invalidCharacter (c : Char)
  | unexpectedEnd
  | unexpectedToken (text : String)
  | unsupportedKeyword (word : String)
  | missingInitializer
  | breakAfterThrow
  | missingHandler
  | invalidAssignment
  | invalidBefore
  | invalidAfter
deriving DecidableEq, Repr

def SyntaxCause.message : SyntaxCause → String
  | unterminatedComment => "Unterminated comment"
  | invalidToken => "Invalid or unexpected token"
  | invalidCharacter c => "Invalid or unexpected token " ++ quoted (String.singleton c)
  | unexpectedEnd => "Unexpected end of input"
  | unexpectedToken text => "Unexpected token '" ++ text ++ "'"
  | unsupportedKeyword word => "Unsupported keyword '" ++ word ++ "'"
  | missingInitializer => "Missing initializer in const declaration"
  | breakAfterThrow => "Illegal newline after throw"
  | missingHandler => "Missing catch or finally after try"
  | invalidAssignment => "Invalid left-hand side in assignment"
  | invalidBefore => "Invalid left-hand side expression in prefix operation"
  | invalidAfter => "Invalid left-hand side expression in postfix operation"

/-- Why a script cannot be read: it is wrong at a place, or it holds a number that is none. -/
inductive Failure where
  | at (cause : SyntaxCause) (position : Nat)
  | fault (f : Fault)
deriving DecidableEq, Repr

open Text

def isWordStart (c : Char) : Bool := isLetter c || c == '_' || c == '$'

def isWordPart (c : Char) : Bool := isAlphanumeric c || c == '_' || c == '$'

/-- What stands at a place of a script. -/
inductive Lexeme where
  | gap (hasBreak : Bool)
  | token (kind : TokenKind)
deriving Repr

def wrong {α : Type} (cause : SyntaxCause) (offset : Nat) :
    Except ((SyntaxCause × Nat) ⊕ Fault) α :=
  .error (.inl (cause, offset))

/-- The length of a comment up to and with its closing mark, none if it is not closed. -/
def closedComment : List Char → Option Nat
  | '*' :: '/' :: _ => some 2
  | _ :: rest => (closedComment rest).map (· + 1)
  | [] => none

/-- The length of the digits, point and exponent at the front of a text. -/
def numberLength (s : List Char) : Nat :=
  let digits (s : List Char) : Nat := (s.takeWhile isDigitMark).length
  let n := digits s
  let n := match s.drop n with
    | '.' :: rest => n + 1 + digits rest
    | _ => n
  match s.drop n with
  | e :: rest =>
    if e == 'e' || e == 'E' then
      let sign := if rest.head?.any (fun c => c == '+' || c == '-') then 1 else 0
      let d := digits (rest.drop sign)
      if d == 0 then n else n + 1 + sign + d
    else n
  | [] => n

/-- The character of an escape sign; most signs stand for themselves. -/
def escaped : Char → Char
  | 'n' => '\n'
  | 't' => '\t'
  | 'r' => '\r'
  | '0' => '\x00'
  | 'b' => '\x08'
  | 'f' => '\x0c'
  | 'v' => '\x0b'
  | c => c

/-- The characters of a quoted text after its opening quote, with the length up to and with the
closing one. -/
def quotedBody (quote : Char) : List Char → Option (Nat × List Char)
  | [] => none
  | '\\' :: c :: rest => (quotedBody quote rest).map fun (n, cs) => (n + 2, escaped c :: cs)
  | c :: rest =>
    if c == quote then some (1, [])
    else if c == '\\' || (c == '\n' && quote != '\x60') then none
    else (quotedBody quote rest).map fun (n, cs) => (n + 1, c :: cs)

def isQuote (c : Char) : Bool := c == '"' || c == '\'' || c == '\x60'

def startsNumber : List Char → Bool
  | '.' :: c :: _ => isDigitMark c
  | c :: _ => isDigitMark c
  | [] => false

def numberLexeme (s : List Char) : Except ((SyntaxCause × Nat) ⊕ Fault) (Nat × Lexeme) :=
  let n := numberLength s
  if (s.drop n).head?.any isWordStart then wrong .invalidToken n
  else
    let body := s.take n
    match Reading.float? body with
    | some x => .ok (n, .token (.number x))
    | none => .error (.inr (.unreadable (String.ofList body)))

/-- What stands at the front of a text. -/
def lexemeAt : List Char → Except ((SyntaxCause × Nat) ⊕ Fault) (Nat × Lexeme)
  | [] => .ok (1, .gap false)
  | c :: rest =>
    if c == '\n' then .ok (1, .gap true)
    else if isBlank c then .ok (1, .gap false)
    else if "//".toList.isPrefixOf (c :: rest) then
      .ok (((c :: rest).takeWhile (· != '\n')).length, .gap false)
    else if "/*".toList.isPrefixOf (c :: rest) then
      match closedComment (rest.drop 1) with
      | some n => .ok (n + 2, .gap ((rest.take n).contains '\n'))
      | none => wrong .unterminatedComment 0
    else if startsNumber (c :: rest) then numberLexeme (c :: rest)
    else if isQuote c then
      match quotedBody c rest with
      | some (n, cs) => .ok (n + 1, .token (.text (String.ofList cs)))
      | none => wrong .invalidToken 0
    else if isWordStart c then
      let word := c :: rest.takeWhile isWordPart
      .ok (word.length, .token (.word (String.ofList word)))
    else
      match Mark.at? (c :: rest) with
      | some m => .ok (m.text.length, .token (.mark m))
      | none => wrong (.invalidCharacter c) 0

/-- The tokens of a text; `skip` characters belong to what has been read. -/
def tokensFrom : Nat → Nat → Bool → List Char → Except Failure (List Token)
  | position, _, broken, [] => .ok [⟨.finish, position, broken⟩]
  | position, skip + 1, broken, _ :: rest => tokensFrom (position + 1) skip broken rest
  | position, 0, broken, c :: rest =>
    match lexemeAt (c :: rest) with
    | .ok (n, .gap hasBreak) => tokensFrom (position + 1) (n - 1) (broken || hasBreak) rest
    | .ok (n, .token kind) =>
      (tokensFrom (position + 1) (n - 1) false rest).map (⟨kind, position, broken⟩ :: ·)
    | .error (.inl (cause, offset)) => .error (.at cause (position + offset))
    | .error (.inr f) => .error (.fault f)

def tokens (text : String) : Except Failure (List Token) := tokensFrom 0 0 false text.toList

end EmitterLogic.Script
