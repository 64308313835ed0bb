import EmitterLogic.Script.Value
import EmitterLogic.Script.Interpreter

/-!
The functions of the mathematics namespace. Where a function has no value, or none that is finite
for finite arguments, it is undefined.
-/

namespace EmitterLogic

namespace Binary64

/-- The integer square root, from that of a quarter; `n` is the number of halvings left. -/
def rootFrom : Nat → Nat → Nat
  | 0, _ => 0
  | n + 1, a =>
    let r := 2 * rootFrom n (a / 4)
    if (r + 1) * (r + 1) ≤ a then r + 1 else r

def integerRoot (a : Nat) : Nat := rootFrom (a.log2 / 2 + 1) a

/-- The number nearest to the square root of `a * 4^e`. -/
def nearestRoot (a : Nat) (e : Int) : Float :=
  let extra := 64 - a.log2 / 2
  let scaled := a * twoPow (2 * extra)
  let r := integerRoot scaled
  let doubled := 2 * r + if r * r == scaled then 0 else 1
  let shift : Int := e - extra - 1
  if 0 ≤ shift then nearest false (doubled * twoPow shift.toNat) 1
  else nearest false doubled (twoPow (-shift).toNat)

/-- The root of the sum of the squares, rounded once. -/
def norm (ps : List Parts) : Float :=
  let e := ps.foldl (fun e p => min e p.exponent) 0
  let square (p : Parts) : Nat :=
    let m := p.mantissa * twoPow (p.exponent - e).toNat
    m * m
  let total := ps.foldl (fun total p => total + square p) 0
  if total == 0 then 0.0 else nearestRoot total e

end Binary64

namespace Script

/-- The integer of a rule that rounds, as a number; what is not finite stays as it is. -/
def roundedBy (rule : Float → Except Fault Int) (x : Float) : Float :=
  match rule x >>= fun n => (Number.int n).toFloat with
  | .ok y => y
  | .error _ => x

def signum (x : Float) : Float :=
  if x.isNaN then x else if 0.0 < x then 1.0 else if x < 0.0 then -1.0 else x

def finiteFor (xs : List Float) (y : Float) : Float :=
  if xs.all Float.isFinite && !y.isFinite then Value.nan else y

/-- The first of the numbers that no other goes before; undefined if one of them is. -/
def extreme (goesBefore : Float → Float → Bool) (empty : Float) : List Float → Float
  | [] => empty
  | x :: xs =>
    if (x :: xs).any Float.isNaN then Value.nan
    else xs.foldl (fun best y => if goesBefore y best then y else best) x

def hypotenuse (xs : List Float) : Float :=
  if xs.any Float.isInf then Binary64.infinity false
  else match xs.mapM Binary64.parts? with
    | some ps => Binary64.norm ps
    | none => Value.nan

namespace MathFn

/-- A function of a single number. -/
def applyOne : MathFn → Float → Float
  | abs, x => x.abs
  | floor, x => roundedBy floored x
  | ceil, x => roundedBy (fun x => (floored (-x)).map Int.neg) x
  | round, x => roundedBy (fun x => floored (x + 0.5)) x
  | trunc, x => roundedBy truncated x
  | sign, x => signum x
  | sqrt, x => x.sqrt
  | sin, x => x.sin
  | cos, x => x.cos
  | tan, x => x.tan
  | asin, x => x.asin
  | acos, x => x.acos
  | atan, x => x.atan
  | log, x => if x == 0.0 then Binary64.infinity true else x.log
  | exp, x => finiteFor [x] x.exp
  | _, _ => Value.nan

/-- The value of a function; missing arguments are undefined, further ones have no effect. -/
def apply (f : MathFn) (xs : List Float) : Float :=
  let first := xs.headD Value.nan
  let second := (xs.drop 1).headD Value.nan
  match f with
  | atan2 => first.atan2 second
  | pow => finiteFor [first, second] (first.pow second)
  | hypot => hypotenuse xs
  | min => extreme (· < ·) (Binary64.infinity false) xs
  | max => extreme (fun x y => y < x) (Binary64.infinity true) xs
  | _ => f.applyOne first

end MathFn

end Script

end EmitterLogic

namespace EmitterLogic.Script

variable {σ : Type}

/-- The numbers that the arguments of a native function stand for. -/
def numbersOf : List Value → Except Fault (List Float)
  | [] => .ok []
  | v :: rest => do
    let x ← v.toNumber
    return x :: (← numbersOf rest)

def orRefuse {α : Type} : Except Fault α → ExceptT Refusal (StateM (Machine σ)) α
  | .ok a => pure a
  | .error f => throw (.fault f)

def callMath (f : MathFn) (args : List Value) : Except Fault Value := do
  return .float (f.apply (← numbersOf args))

def drawRandom : ExceptT Refusal (StateM (Machine σ)) Value := fun m =>
  let (x, draws) := m.draws.next
  (.ok (.float x), { m with draws })

def callBinding (f : Native) (args : List Value) : ExceptT Refusal (StateM (Machine σ)) Value :=
  match f with
  | .math f => orRefuse (callMath f args)
  | .random => drawRandom
  | .helper _ => return .undefined

/-- The names of the mathematics namespace. -/
def mathFields : Fields Value :=
  MathFn.all.map (fun f => (f.name, .native (.math f))) ++
    [("random", .native .random), ("PI", .float 3.141592653589793),
      ("E", .float 2.718281828459045), ("LN2", .float 0.6931471805599453),
      ("LN10", .float 2.302585092994046), ("SQRT2", .float 1.4142135623730951)]

/-- A host whose names can all be assigned. -/
def bindingsHost : Host (Fields Value) where
  has fields name := fields.has name
  read name := do return ((← get).host.get? name).getD .undefined
  write name v := modify fun m => { m with host := m.host.put name v }
  call := callBinding

def Machine.ofBindings (bindings : Fields Datum) (draws : Draws) : Machine (Fields Value) :=
  let (fields, m) := (Machine.start ([] : Fields Value) draws).loadEntries bindings
  { m with host := fields }

def Machine.bindMath (m : Machine (Fields Value)) (readOnly : Bool) : Machine (Fields Value) :=
  let (v, m) := m.addObject { fields := mathFields, readOnly }
  { m with host := m.host.put "Math" v }

end EmitterLogic.Script
