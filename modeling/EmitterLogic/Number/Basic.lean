import EmitterLogic.Fault

/-!
Binary floating point of 64 bits, read exactly: a finite number is a sign, a natural mantissa and a
power of two. From this view come rounding to integers, remainders and the rounding of an exact
quotient to the nearest number.
-/

namespace EmitterLogic

/-- The weight of a binary place. -/
abbrev twoPow (place : Nat) : Nat := Nat.pow 2 place

/-- The weight of a decimal place. -/
abbrev tenPow (place : Nat) : Nat := Nat.pow 10 place

end EmitterLogic

namespace EmitterLogic.Binary64

/-- The finite number `(-1)^negative * mantissa * 2^exponent`. -/
structure Parts where
  negative : Bool
  mantissa : Nat
  exponent : Int
deriving DecidableEq, Repr

/-- The exact value of a finite number, given by its bits. -/
def partsOfBits (bits : Nat) : Option Parts :=
  let negative : Bool := bits / twoPow 63 % 2 == 1
  let field : Nat := bits / twoPow 52 % 2048
  let fraction : Nat := bits % twoPow 52
  if field == 2047 then none
  else if field == 0 then some ⟨negative, fraction, -1074⟩
  else some ⟨negative, fraction + twoPow 52, (field : Int) - 1075⟩

def parts? (x : Float) : Option Parts := partsOfBits x.toBits.toNat

def Parts.magnitude (p : Parts) : Nat :=
  if 0 ≤ p.exponent then p.mantissa * twoPow p.exponent.toNat
  else p.mantissa / twoPow (-p.exponent).toNat

def Parts.isIntegral (p : Parts) : Bool :=
  0 ≤ p.exponent || p.mantissa % twoPow (-p.exponent).toNat == 0

def Parts.trunc (p : Parts) : Int := if p.negative then -p.magnitude else p.magnitude

def Parts.floor (p : Parts) : Int :=
  if p.negative && !p.isIntegral then p.trunc - 1 else p.trunc

def scaled (num den : Nat) (q : Int) : Nat × Nat :=
  if 0 ≤ q then (num, den * twoPow q.toNat) else (num * twoPow (-q).toNat, den)

/-- The exponent of the last place of the number nearest to `num / den`. -/
def lastPlace (num den : Nat) : Int :=
  let guess : Int := (num.log2 : Int) - den.log2 - 53
  let (n, d) := scaled num den guess
  max (if n / d < twoPow 53 then guess else guess + 1) (-1074)

/-- The natural number nearest to `n / d`, ties to the even one. -/
def nearestNat (n d : Nat) : Nat :=
  let whole := n / d
  let rest := n % d
  if 2 * rest > d || (2 * rest == d && whole % 2 == 1) then whole + 1 else whole

/-- The bits of the number nearest to `num / den`; none beyond the greatest finite number. -/
def nearestBits (num den : Nat) : Option Nat :=
  if num == 0 then some 0
  else
    let q := lastPlace num den
    let (n, d) := scaled num den q
    let bits := nearestNat n d + (q + 1074).toNat * twoPow 52
    if bits < 2047 * twoPow 52 then some bits else none

def ofBits (negative : Bool) (bits : Nat) : Float :=
  Float.ofBits (UInt64.ofNat (bits + if negative then twoPow 63 else 0))

def infinity (negative : Bool) : Float := ofBits negative (2047 * twoPow 52)

def nearest? (negative : Bool) (num den : Nat) : Option Float :=
  (nearestBits num den).map (ofBits negative)

def nearest (negative : Bool) (num den : Nat) : Float :=
  (nearest? negative num den).getD (infinity negative)

def ofInt? (n : Int) : Option Float := nearest? (n < 0) n.natAbs 1

/-- The sign of the first operand and the exact remainder of the magnitudes. The second operand is
not zero. -/
def Parts.rem (x y : Parts) : Float :=
  let e := min x.exponent y.exponent
  let m := x.mantissa * twoPow (x.exponent - e).toNat
  let n := y.mantissa * twoPow (y.exponent - e).toNat
  let r := m % n
  if 0 ≤ e then nearest x.negative (r * twoPow e.toNat) 1
  else nearest x.negative r (twoPow (-e).toNat)

/-- The remainder of the division that rounds its quotient toward zero. -/
def rem (x y : Float) : Float :=
  match parts? x, parts? y with
  | some p, some q => if q.mantissa == 0 then 0.0 / 0.0 else p.rem q
  | some _, none => if y.isNaN then y else x
  | none, _ => 0.0 / 0.0

/-- The order of a finite number and an integer, as exact values. -/
def Parts.compareInt (p : Parts) (n : Int) : Ordering :=
  let m : Int := if p.negative then -p.mantissa else p.mantissa
  if 0 ≤ p.exponent then compare (m * twoPow p.exponent.toNat) n
  else compare m (n * twoPow (-p.exponent).toNat)

end EmitterLogic.Binary64

namespace EmitterLogic

inductive Number where
  | int (n : Int)
  | float (x : Float)
deriving Repr, Inhabited

namespace Number

def toFloat : Number → Except Fault Float
  | .int n => match Binary64.ofInt? n with
    | some x => .ok x
    | none => .error .tooLarge
  | .float x => .ok x

theorem toFloat_float (x : Float) : (Number.float x).toFloat = .ok x := rfl

def isZero : Number → Bool
  | .int n => n == 0
  | .float x => x == 0.0

/-- The order of two numbers; none when one of them is undefined. -/
def compare? : Number → Number → Option Ordering
  | .int m, .int n => some (compare m n)
  | .float x, .float y =>
    if x < y then some .lt else if y < x then some .gt else if x == y then some .eq else none
  | .float x, .int n => floatInt x n
  | .int m, .float y => (floatInt y m).map Ordering.swap
where
  floatInt (x : Float) (n : Int) : Option Ordering :=
    match Binary64.parts? x with
    | some p => some (p.compareInt n)
    | none => if x.isNaN then none else if x < 0.0 then some .lt else some .gt

def lt (a b : Number) : Bool := compare? a b == some .lt

def eq (a b : Number) : Bool := compare? a b == some .eq

def atLeast (lo n : Number) : Number := if lo.lt n then n else lo

def atMost (hi n : Number) : Number := if n.lt hi then n else hi

end Number

/-- The integer part of a number. -/
def truncated (x : Float) : Except Fault Int :=
  match Binary64.parts? x with
  | some p => .ok p.trunc
  | none => .error (if x.isNaN then .notANumber else .infinite)

/-- The greatest integer that is not above a number. -/
def floored (x : Float) : Except Fault Int :=
  match Binary64.parts? x with
  | some p => .ok p.floor
  | none => .error (if x.isNaN then .notANumber else .infinite)

def wholePart (x : Float) : Except Fault Float := do
  (Number.int (← truncated x)).toFloat

def isWhole (x : Float) : Bool := (Binary64.parts? x).any Binary64.Parts.isIntegral

end EmitterLogic
