import EmitterLogic.Datum.Basic
import EmitterLogic.Number.Reading

/-!
Documents as JSON text. The reader takes the standard grammar, with the names of the undefined
number and of infinity besides; a key given twice keeps its place and its last value. The writer
escapes all but printable ASCII.
-/

namespace EmitterLogic.Json

def isSpace (c : Char) : Bool := c == ' ' || c == '\t' || c == '\n' || c == '\r'

def skipSpace (s : List Char) : List Char := s.dropWhile isSpace

def isDigit (c : Char) : Bool := '0' ≤ c && c ≤ '9'

def hexValue? (c : Char) : Option Nat :=
  if isDigit c then some (c.toNat - 48)
  else if 'a' ≤ c ∧ c ≤ 'f' then some (c.toNat - 87)
  else if 'A' ≤ c ∧ c ≤ 'F' then some (c.toNat - 55)
  else none

def hexUnit? (a b c d : Char) : Option Nat := do
  some (((← hexValue? a) * 16 + (← hexValue? b)) * 256 + (← hexValue? c) * 16 + (← hexValue? d))

/-- The character of an escape sign. -/
def escaped? : Char → Option Char
  | '"' => some '"'
  | '\\' => some '\\'
  | '/' => some '/'
  | 'b' => some '\x08'
  | 'f' => some '\x0c'
  | 'n' => some '\n'
  | 'r' => some '\r'
  | 't' => some '\t'
  | _ => none

def isHighUnit (n : Nat) : Bool := 0xD800 ≤ n && n < 0xDC00

def isLowUnit (n : Nat) : Bool := 0xDC00 ≤ n && n < 0xE000

def unitChar (n : Nat) : Char := if isHighUnit n || isLowUnit n then '\uFFFD' else Char.ofNat n

/-- The rest of a text after its opening quote, up to the closing one. `high` is the first half of a
pair of code units, if one has been read just before. -/
def textBody (high : Option Nat) : List Char → Option (List Char × List Char)
  | '\\' :: 'u' :: a :: b :: c :: d :: rest =>
    match hexUnit? a b c d with
    | none => none
    | some n =>
      match high with
      | some h =>
        if isLowUnit n then
          (textBody none rest).map fun (cs, left) =>
            (Char.ofNat (0x10000 + (h - 0xD800) * 0x400 + (n - 0xDC00)) :: cs, left)
        else if isHighUnit n then
          (textBody (some n) rest).map fun (cs, left) => (unitChar h :: cs, left)
        else (textBody none rest).map fun (cs, left) => (unitChar h :: unitChar n :: cs, left)
      | none =>
        if isHighUnit n then textBody (some n) rest
        else (textBody none rest).map fun (cs, left) => (unitChar n :: cs, left)
  | '"' :: rest => some (high.toList.map unitChar, rest)
  | '\\' :: e :: rest =>
    match escaped? e with
    | some c =>
      (textBody none rest).map fun (cs, left) => (high.toList.map unitChar ++ c :: cs, left)
    | none => none
  | c :: rest =>
    if c.toNat < 32 || c == '\\' then none
    else (textBody none rest).map fun (cs, left) => (high.toList.map unitChar ++ c :: cs, left)
  | [] => none

def digitsOf (s : List Char) : List Char × List Char := (s.takeWhile isDigit, s.dropWhile isDigit)

def natOf (ds : List Char) : Nat := ds.foldl (fun n c => 10 * n + (c.toNat - 48)) 0

/-- The exponent at the front of a text, if there is one. -/
def exponentPart (s : List Char) : Option (Int × List Char) :=
  match s with
  | e :: rest =>
    if e == 'e' || e == 'E' then
      let (negative, rest) := Reading.signOf rest
      match digitsOf rest with
      | ([], _) => none
      | (ds, left) => some (if negative then -(natOf ds : Int) else natOf ds, left)
    else none
  | [] => none

def fractionPart (s : List Char) : Option (List Char × List Char) :=
  match s with
  | '.' :: rest =>
    match digitsOf rest with
    | ([], _) => none
    | (ds, left) => some (ds, left)
  | _ => none

/-- A numeral whose sign has been read. -/
def numeralOf (negative : Bool) (s : List Char) : Option (Number × List Char) :=
  let whole? : Option (List Char × List Char) :=
    match s with
    | '0' :: rest => some (['0'], rest)
    | _ => match digitsOf s with
      | ([], _) => none
      | r => some r
  match whole? with
  | none => none
  | some (whole, rest) =>
    let fraction := fractionPart rest
    let rest := (fraction.map (·.2)).getD rest
    let exponent := exponentPart rest
    let rest := (exponent.map (·.2)).getD rest
    if fraction.isNone && exponent.isNone then
      let n : Int := natOf whole
      some (.int (if negative then -n else n), rest)
    else
      let ds := (fraction.map (·.1)).getD []
      let e := (exponent.map (·.1)).getD 0
      some (.float (Reading.ofDecimal negative (natOf (whole ++ ds)) (e - ds.length)), rest)

/-- The fixed words with their values. -/
def words : List (List Char × Datum) :=
  [("null".toList, .null), ("true".toList, .bool true), ("false".toList, .bool false),
    ("NaN".toList, .float (0.0 / 0.0)), ("Infinity".toList, .float (Binary64.infinity false)),
    ("-Infinity".toList, .float (Binary64.infinity true))]

def wordOf (s : List Char) : Option (Datum × List Char) :=
  words.findSome? fun (w, d) => if w.isPrefixOf s then some (d, s.drop w.length) else none

mutual

/-- A value at the front of a text. The bound on the depth is taken from the length of the text. -/
def valueOf : Nat → List Char → Option (Datum × List Char)
  | 0, _ => none
  | n + 1, s =>
    match s with
    | '"' :: rest => (textBody none rest).map fun (cs, left) => (.text (String.ofList cs), left)
    | '[' :: rest =>
      match skipSpace rest with
      | ']' :: left => some (.list [], left)
      | rest => (itemsOf n rest).map fun (ds, left) => (.list ds, left)
    | '\x7b' :: rest =>
      match skipSpace rest with
      | '\x7d' :: left => some (.object [], left)
      | rest => (entriesOf n [] rest).map fun (es, left) => (.object es, left)
    | _ =>
      match wordOf s with
      | some r => some r
      | none =>
        let (negative, body) := match s with
          | '-' :: rest => (true, rest)
          | _ => (false, s)
        (numeralOf negative body).map fun (n, left) => (.number n, left)

/-- The items of a list up to its end, the first one being at the front of the text. -/
def itemsOf : Nat → List Char → Option (List Datum × List Char)
  | 0, _ => none
  | n + 1, s => do
    let (d, rest) ← valueOf n s
    match skipSpace rest with
    | ']' :: left => some ([d], left)
    | ',' :: rest =>
      let (ds, left) ← itemsOf n (skipSpace rest)
      some (d :: ds, left)
    | _ => none

def entriesOf : Nat → Fields Datum → List Char → Option (Fields Datum × List Char)
  | 0, _, _ => none
  | n + 1, acc, s =>
    match s with
    | '"' :: rest => do
      let (key, rest) ← textBody none rest
      match skipSpace rest with
      | ':' :: rest =>
        let (d, rest) ← valueOf n (skipSpace rest)
        let acc := Fields.put acc (String.ofList key) d
        match skipSpace rest with
        | '\x7d' :: left => some (acc, left)
        | ',' :: rest => entriesOf n acc (skipSpace rest)
        | _ => none
      | _ => none
    | _ => none

end

/-- The value that a text spells. -/
def parse? (text : String) : Option Datum :=
  let s := text.toList
  match valueOf (s.length + 1) (skipSpace s) with
  | some (d, rest) => if (skipSpace rest).isEmpty then some d else none
  | none => none

def unitEscape (n : Nat) : List Char := '\\' :: 'u' :: Text.hexDigits 4 n

def escapeChar (c : Char) : List Char :=
  match c with
  | '"' => ['\\', '"']
  | '\\' => ['\\', '\\']
  | '\n' => ['\\', 'n']
  | '\r' => ['\\', 'r']
  | '\t' => ['\\', 't']
  | '\x08' => ['\\', 'b']
  | '\x0c' => ['\\', 'f']
  | c =>
    let n := c.toNat
    if 32 ≤ n && n < 127 then [c]
    else if n < 0x10000 then unitEscape n
    else
      unitEscape (0xD800 + (n - 0x10000) / 0x400) ++ unitEscape (0xDC00 + (n - 0x10000) % 0x400)

def quote (s : String) : String := String.ofList ('"' :: s.toList.flatMap escapeChar ++ ['"'])

def renderNumber : Number → String
  | .int n => toString n
  | .float x =>
    if x.isNaN then "NaN" else if x.isInf then (if x < 0.0 then "-Infinity" else "Infinity")
    else numeral x

mutual

/-- The text of a value on one line. -/
def compact : Datum → String
  | .null | .undefined => "null"
  | .bool b => if b then "true" else "false"
  | .number n => renderNumber n
  | .text s => quote s
  | .list items => "[" ++ compactItems items ++ "]"
  | .object entries => "\x7b" ++ compactEntries entries ++ "\x7d"

def compactItems : List Datum → String
  | [] => ""
  | [d] => compact d
  | d :: rest => compact d ++ "," ++ compactItems rest

def compactEntries : List (String × Datum) → String
  | [] => ""
  | [(k, d)] => quote k ++ ":" ++ compact d
  | (k, d) :: rest => quote k ++ ":" ++ compact d ++ "," ++ compactEntries rest

end

mutual

/-- The text of a value over several lines, two blanks for each level; `margin` begins each line. -/
def indented (margin : String) : Datum → String
  | .list [] => "[]"
  | .object [] => "\x7b\x7d"
  | .list items => "[" ++ indentedItems (margin ++ "  ") items ++ margin ++ "]"
  | .object entries => "\x7b" ++ indentedEntries (margin ++ "  ") entries ++ margin ++ "\x7d"
  | d => compact d

def indentedItems (margin : String) : List Datum → String
  | [] => ""
  | [d] => margin ++ indented margin d
  | d :: rest => margin ++ indented margin d ++ "," ++ indentedItems margin rest

def indentedEntries (margin : String) : List (String × Datum) → String
  | [] => ""
  | [(k, d)] => margin ++ quote k ++ ": " ++ indented margin d
  | (k, d) :: rest =>
    margin ++ quote k ++ ": " ++ indented margin d ++ "," ++ indentedEntries margin rest

end

def render (d : Datum) : String := indented "\n" d

end EmitterLogic.Json
