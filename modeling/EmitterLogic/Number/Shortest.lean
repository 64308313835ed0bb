import EmitterLogic.Number.Basic

/-!
The shortest decimal text of a binary number: the fewest digits that read back as the number, and of
those the nearest to it. The digits are found in exact arithmetic; `numeral` lays them out.
-/

namespace EmitterLogic.Shortest

open Binary64

/-- The decimal `digits * 10^exponent`. -/
structure Decimal where
  digits : Nat
  exponent : Int
deriving DecidableEq, Repr

/-- A positive quotient. -/
structure Quotient where
  num : Nat
  den : Nat

def Quotient.scaled (a : Quotient) (e : Int) : Quotient :=
  if 0 ≤ e then ⟨a.num * tenPow e.toNat, a.den⟩ else ⟨a.num, a.den * tenPow (-e).toNat⟩

def binary (mantissa : Nat) (exponent : Int) : Quotient :=
  if 0 ≤ exponent then ⟨mantissa * twoPow exponent.toNat, 1⟩
  else ⟨mantissa, twoPow (-exponent).toNat⟩

/-- The numbers that round to a given one: all between two ends, and the ends too when the mantissa
is even. Four times the mantissa keeps the ends whole. -/
structure Interval where
  low : Quotient
  value : Quotient
  high : Quotient
  closed : Bool

def Parts.interval (p : Parts) : Interval :=
  let m := p.mantissa
  let e := p.exponent - 2
  let below := if m == twoPow 52 && -1074 < p.exponent then 4 * m - 1 else 4 * m - 2
  ⟨binary below e, binary (4 * m) e, binary (4 * m + 2) e, m % 2 == 0⟩

def Interval.contains (i : Interval) (d : Decimal) : Bool :=
  let x : Quotient := Quotient.scaled ⟨d.digits, 1⟩ d.exponent
  let below := i.low.num * x.den
  let above := i.high.num * x.den
  if i.closed then below ≤ x.num * i.low.den && x.num * i.high.den ≤ above
  else below < x.num * i.low.den && x.num * i.high.den < above

/-- The power of ten of the first digit. -/
def leadingExponent (v : Quotient) : Int :=
  let guess : Int := ((v.num.log2 : Int) - v.den.log2) * 30103 / 100000
  let reaches (e : Int) : Bool :=
    if 0 ≤ e then v.den * tenPow e.toNat ≤ v.num else v.den ≤ v.num * tenPow (-e).toNat
  if !reaches guess then guess - 1 else if reaches (guess + 1) then guess + 1 else guess

/-- A decimal of the grid `10^exponent` that rounds to the number: the nearer of its two neighbours
on the grid, of two equally near ones the even one. -/
def nearestOnGrid? (i : Interval) (exponent : Int) : Option Decimal :=
  let s := i.value.scaled (-exponent)
  let lower : Decimal := ⟨s.num / s.den, exponent⟩
  let upper : Decimal := ⟨s.num / s.den + 1, exponent⟩
  let twice := 2 * (s.num % s.den)
  match i.contains lower, i.contains upper with
  | true, true =>
    if twice < s.den || (twice == s.den && lower.digits % 2 == 0) then some lower else some upper
  | true, false => some lower
  | false, true => some upper
  | false, false => none

def firstOnGrids (i : Interval) : Nat → Int → Decimal
  | 0, e => (nearestOnGrid? i e).getD ⟨i.value.num / i.value.den, 0⟩
  | n + 1, e => (nearestOnGrid? i e).getD (firstOnGrids i n (e - 1))

def Parts.shortest (p : Parts) : Decimal :=
  let i := interval p
  firstOnGrids i 17 (leadingExponent i.value)

def digitChars (n : Nat) : List Char := Nat.toDigits 10 n

/-- The layout of a numeral: digits in place when the first one stands at a power of ten from `-4`
to `15`, else one digit before the point and an exponent of at least two digits with its sign. A
whole number keeps `.0` when it is written in place. -/
def layout (d : Decimal) : List Char :=
  let all := digitChars d.digits
  let kept := (all.reverse.dropWhile (· == '0')).reverse
  let lead : Int := d.exponent + all.length - 1
  if -4 ≤ lead ∧ lead < 16 then
    if lead < 0 then
      '0' :: '.' :: List.replicate (-lead - 1).toNat '0' ++ kept
    else
      let whole := lead.toNat + 1
      let before := kept.take whole ++ List.replicate (whole - kept.length) '0'
      let after := kept.drop whole
      before ++ '.' :: if after.isEmpty then ['0'] else after
  else
    let tail := kept.drop 1
    let exponent := digitChars lead.natAbs
    kept.take 1 ++ (if tail.isEmpty then [] else '.' :: tail) ++
      'e' :: (if lead < 0 then '-' else '+') ::
        (if exponent.length < 2 then '0' :: exponent else exponent)

/-- The shortest text of a number. -/
def numeral (x : Float) : List Char :=
  match parts? x with
  | none => if x.isNaN then "nan".toList else if x < 0 then "-inf".toList else "inf".toList
  | some p =>
    let body := if p.mantissa == 0 then ['0', '.', '0'] else layout (Parts.shortest p)
    if p.negative then '-' :: body else body

end EmitterLogic.Shortest

namespace EmitterLogic

def numeral (x : Float) : String := String.ofList (Shortest.numeral x)

end EmitterLogic
