import EmitterLogic.Number.Basic
import EmitterLogic.Text.Letter

/-!
Reading numbers from text: decimal digits of any script with an optional sign, point and exponent,
or one of the names of infinity and of the undefined number. A low line may stand between two
digits.
-/

namespace EmitterLogic.Reading

open Text

/-- The digits at the front of a text. After a digit a single low line may stand before the next. -/
def digitRunFrom (started : Bool) : List Char → List Nat × List Char
  | [] => ([], [])
  | c :: rest =>
    match digitValue? c with
    | some d => let (ds, left) := digitRunFrom true rest; (d :: ds, left)
    | none =>
      if started && c == '_' && rest.head?.any isDecimal then digitRunFrom true rest
      else ([], c :: rest)

def digitRun (s : List Char) : List Nat × List Char := digitRunFrom false s

def natOfDigits (ds : List Nat) : Nat := ds.foldl (fun n d => 10 * n + d) 0

/-- A sign at the front of a text; true for the minus. -/
def signOf : List Char → Bool × List Char
  | '-' :: rest => (true, rest)
  | '+' :: rest => (false, rest)
  | s => (false, s)

/-- The number nearest to `± digits * 10^exponent`. Exponents beyond the range of the format are
answered without computing the power. -/
def ofDecimal (negative : Bool) (digits : Nat) (exponent : Int) : Float :=
  let size : Int := (Nat.toDigits 10 digits).length
  if digits == 0 || exponent + size < -400 then Binary64.ofBits negative 0
  else if 400 < exponent + size then Binary64.infinity negative
  else if 0 ≤ exponent then Binary64.nearest negative (digits * tenPow exponent.toNat) 1
  else Binary64.nearest negative digits (tenPow (-exponent).toNat)

/-- The exponent of a decimal, if the whole of the text is one. -/
def exponent? : List Char → Option Int
  | [] => some 0
  | e :: rest =>
    if e == 'e' || e == 'E' then
      let (negative, rest) := signOf rest
      match digitRun rest with
      | (d :: ds, []) =>
        let n := natOfDigits (d :: ds)
        some (if negative then -n else n)
      | _ => none
    else none

/-- A decimal without its sign. -/
def unsigned? (negative : Bool) (s : List Char) : Option Float :=
  let (whole, rest) := digitRun s
  match rest with
  | '.' :: rest =>
    let (fraction, rest) := digitRun rest
    if whole.isEmpty && fraction.isEmpty then none
    else (exponent? rest).map fun e =>
      ofDecimal negative (natOfDigits (whole ++ fraction)) (e - fraction.length)
  | _ =>
    if whole.isEmpty then none
    else (exponent? rest).map fun e => ofDecimal negative (natOfDigits whole) e

def isMargin (c : Char) : Bool := isBlank c && !(28 ≤ c.toNat && c.toNat ≤ 31)

def withoutMargins (s : List Char) : List Char :=
  ((s.dropWhile isMargin).reverse.dropWhile isMargin).reverse

/-- The number that a text spells. -/
def float? (s : List Char) : Option Float :=
  let (negative, body) := signOf (withoutMargins s)
  let word := body.map Char.toLower
  if word == "inf".toList || word == "infinity".toList then some (Binary64.infinity negative)
  else if word == "nan".toList then some (0.0 / 0.0)
  else unsigned? negative body

/-- The integer that a text spells: digits with an optional sign. -/
def int? (s : List Char) : Option Int :=
  let (negative, body) := signOf (withoutMargins s)
  match digitRun body with
  | (d :: ds, []) =>
    let n : Int := natOfDigits (d :: ds)
    some (if negative then -n else n)
  | _ => none

end EmitterLogic.Reading
