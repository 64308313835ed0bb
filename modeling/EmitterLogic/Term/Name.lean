import EmitterLogic.Datum.Basic
import EmitterLogic.Text.Scan
import EmitterLogic.Text.Letter
import EmitterLogic.Number.Reading

/-!
Names: identifiers, the built-in values of a particle, and the tags of its removal. The built-in
`maxAge` was once called `life`; both names stand for the one value.
-/

namespace EmitterLogic

namespace Text

def isIdentStart (c : Char) : Bool := isAsciiLetter c || c == '_'

def isAsciiDigit (c : Char) : Bool := '0' ≤ c && c ≤ '9'

def isIdentPart (c : Char) : Bool := isIdentStart c || isAsciiDigit c

def isIdentChars : List Char → Bool
  | [] => false
  | c :: rest => isIdentStart c && rest.all isIdentPart

end Text

def isIdent (s : String) : Bool := Text.isIdentChars (Text.trim s.toList)

def identOrEmpty (s : String) : String := if isIdent s then trimmed s else ""

def Datum.isIdent (d : Datum) : Bool := !d.isNull && EmitterLogic.isIdent d.toText

/-- The values that every particle has. -/
inductive Builtin where
  | age | maxAge | sign | respawnCount | tick
deriving DecidableEq, Repr

namespace Builtin

def name : Builtin → String
  | age => "age"
  | maxAge => "maxAge"
  | sign => "sign"
  | respawnCount => "respawnCount"
  | tick => "tick"

def all : List Builtin := [age, maxAge, sign, respawnCount, tick]

def ofName? (s : String) : Option Builtin := all.find? (·.name == s)

theorem ofName?_name (b : Builtin) : ofName? b.name = some b := by cases b <;> decide

theorem name_of_ofName? {s : String} {b : Builtin} (h : ofName? s = some b) : b.name = s := by
  simpa using List.find?_some h

end Builtin

/-- Why a particle was removed. -/
inductive Reason where
  | age | collision | outOfRange | manual | unknown
deriving DecidableEq, Repr

namespace Reason

def tag : Reason → String
  | age => "AGE"
  | collision => "COLLISION"
  | outOfRange => "OUT_OF_RANGE"
  | manual => "MANUAL"
  | unknown => "UNKNOWN"

def all : List Reason := [age, collision, outOfRange, manual, unknown]

def ofTag? (s : String) : Option Reason := all.find? (·.tag == s)

theorem ofTag?_tag (r : Reason) : ofTag? r.tag = some r := by cases r <;> decide

def qualifier : String := "RemoveReason."

def unqualified? (s : String) : Option String :=
  (Text.dropWord? qualifier.toList s.toList).map fun cs => String.ofList (Text.trim cs)

/-- The reason that a text names, qualified or not; any other text names the age. -/
def ofText (s : String) : Reason :=
  let s := trimmed s
  match ofTag? s with
  | some r => r
  | none => ((unqualified? s).bind ofTag?).getD age

def ofDatum (d : Datum) : Reason := ofText d.textOrEmpty

end Reason

def canonicalName (s : String) : String :=
  let s := trimmed s
  if s == "life" then "maxAge" else s

def lookupKeys (s : String) : List String :=
  let key := canonicalName s
  if key == "maxAge" then ["maxAge", "life"] else [key]

def builtin? (s : String) : Option Builtin := Builtin.ofName? (canonicalName s)

namespace Text

def skipDecimals (s : List Char) : List Char := s.dropWhile isDecimal

def startsWithDecimal (s : List Char) : Bool := s.head?.any isDecimal

/-- An exponent or nothing, up to the end of the text. -/
def isExponentTail : List Char → Bool
  | [] => true
  | e :: rest =>
    let body := (Reading.signOf rest).2
    (e == 'e' || e == 'E') && startsWithDecimal body && (skipDecimals body).isEmpty

/-- A decimal with an optional sign and exponent; a point needs a digit on one of its sides. -/
def isNumeralChars (s : List Char) : Bool :=
  let body := (Reading.signOf s).2
  if startsWithDecimal body then
    match skipDecimals body with
    | '.' :: rest => isExponentTail (skipDecimals rest)
    | rest => isExponentTail rest
  else
    match body with
    | '.' :: rest => startsWithDecimal rest && isExponentTail (skipDecimals rest)
    | _ => false

end Text

def isNumeral (s : String) : Bool := Text.isNumeralChars (Text.trim s.toList)

def spelledNumber? (s : String) : Option Float :=
  let cs := Text.trim s.toList
  if cs.isEmpty || cs.contains '_' then none else Reading.float? cs

def finiteOnly (x : Float) : Option Float := if x.isFinite then some x else none

namespace Datum

def isNumeral (d : Datum) : Bool := !d.isNull && EmitterLogic.isNumeral d.toText

/-- The finite number that a value stands for. -/
def finite? : Datum → Except Fault (Option Float)
  | .bool b => .ok (some (if b then 1.0 else 0.0))
  | .number n => n.toFloat.map finiteOnly
  | .text s => .ok ((spelledNumber? s).bind finiteOnly)
  | _ => .ok none

def finiteOrZero (d : Datum) : Except Fault Float := d.finite?.map (·.getD 0.0)

end Datum

/-- The plain text of a finite number: an integer below `10^21` has no point, and an exponent has no
leading zero. -/
def plainNumeral (x : Float) : String :=
  match Binary64.parts? x with
  | none => "0"
  | some p =>
    if p.isIntegral && x.abs < 1e21 then toString p.trunc
    else
      let cs := Shortest.numeral x
      match cs.span (· != 'e') with
      | (mantissa, 'e' :: sign :: exponent) =>
        let digits := exponent.dropWhile (· == '0')
        String.ofList (mantissa ++ 'e' :: sign :: if digits.isEmpty then ['0'] else digits)
      | _ => String.ofList cs

end EmitterLogic
