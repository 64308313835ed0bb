import EmitterLogic.Term.Name

/-!
The tokens of arithmetic formulas: names, numerals, five operators and parentheses, with blanks
between them.
-/

namespace EmitterLogic

/-- The operators between two operands. -/
inductive ArithOp where
  | add | sub | mul | div | rem
deriving DecidableEq, Repr

namespace ArithOp

def sign : ArithOp → String
  | add => "+"
  | sub => "-"
  | mul => "*"
  | div => "/"
  | rem => "%"

def all : List ArithOp := [add, sub, mul, div, rem]

def ofSign? (s : String) : Option ArithOp := all.find? (·.sign == s)

theorem ofSign?_sign (o : ArithOp) : ofSign? o.sign = some o := by cases o <;> decide

end ArithOp

namespace Formula

inductive Token where
  | number (x : Float)
  | name (s : String)
  | op (o : ArithOp)
  | opening
  | closing
deriving Repr

/-- Why a text is no formula. -/
inductive Error where
  | unexpected (position : Nat) (c : Char)
  | unmatchedClosing
  | unmatchedOpening
deriving DecidableEq, Repr

def Error.message : Error → String
  | unexpected position c =>
    "unexpected character at " ++ toString position ++ ": " ++ quoted (String.singleton c)
  | unmatchedClosing => "unbalanced ')'"
  | unmatchedOpening => "unbalanced '('"

open Text

def digitCount (s : List Char) : Nat := (s.takeWhile isDecimal).length

def fractionCount : List Char → Nat
  | '.' :: rest => if startsWithDecimal rest then 1 + digitCount rest else 0
  | _ => 0

/-- How many characters an exponent takes, none if no digit follows. -/
def exponentCount : List Char → Nat
  | e :: rest =>
    if e == 'e' || e == 'E' then
      let body := match rest with
        | c :: more => if c == '+' || c == '-' then more else rest
        | [] => rest
      if startsWithDecimal body then 1 + (rest.length - body.length) + digitCount body else 0
    else 0
  | [] => 0

/-- How many characters the numeral at the front of a text takes. -/
def numeralCount (s : List Char) : Nat :=
  let n := digitCount s
  let n := n + fractionCount (s.drop n)
  n + exponentCount (s.drop n)

/-- The token at the front of a text and its number of characters. -/
def tokenAt? : List Char → Option (Nat × Token)
  | [] => none
  | c :: rest =>
    if isIdentStart c then
      let word := c :: rest.takeWhile isIdentPart
      some (word.length, .name (String.ofList word))
    else if isDecimal c then
      let n := numeralCount (c :: rest)
      (Reading.float? ((c :: rest).take n)).map fun x => (n, .number x)
    else
      match c with
      | '(' => some (1, .opening)
      | ')' => some (1, .closing)
      | _ => (ArithOp.ofSign? (String.singleton c)).map fun o => (1, .op o)

/-- The token at the front of a text and its number of characters, blanks on both sides included. -/
def spacedTokenAt? (s : List Char) : Option (Nat × Token) :=
  let body := trimStart s
  (tokenAt? body).map fun (n, t) =>
    let rest := body.drop n
    (s.length - (trimStart rest).length, t)

/-- The tokens of a text; `skip` characters belong to a token already read. -/
def tokensFrom : Nat → Nat → List Char → Except Error (List Token)
  | _, _, [] => .ok []
  | position, skip + 1, _ :: rest => tokensFrom (position + 1) skip rest
  | position, 0, c :: rest =>
    match spacedTokenAt? (c :: rest) with
    | some (n, t) => (tokensFrom (position + 1) (n - 1) rest).map (t :: ·)
    | none => .error (.unexpected position c)

def tokens (text : String) : Except Error (List Token) := tokensFrom 0 0 text.toList

end Formula

end EmitterLogic
