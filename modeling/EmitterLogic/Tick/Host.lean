import EmitterLogic.Tick.Store
import EmitterLogic.Script.Bindings
import EmitterLogic.Formula.Program

/-!
The host of a tick script: the variables of its behavior, the number of the tick, the mathematics
namespace and the helpers. A script may give the names of helpers other values; variables it changes
by the one write of the store.
-/

namespace EmitterLogic.Tick

open Script

/-- What a running script can reach. -/
structure State where
  store : Store
  globals : Fields Value
  /-- The random numbers of the helpers; the mathematics namespace has its own. -/
  draws : Draws
  wording : Wording

/-- A call of a helper. -/
abbrev Call := ExceptT Refusal (StateM (Machine State))

namespace Call

def argument (args : List Value) (i : Nat) : Value := args[i]?.getD .undefined

/-- The name that a value spells. -/
def nameOf (v : Value) : Call String := do
  if v.isNothing then return ""
  match (← get).textOf v with
  | .ok s => return trimmed s
  | .error e => throw e.refusal

def number (v default : Value) : Call Float := orRefuse (finiteOf v default)

def read (name default : Value) : Call Float := do
  let name ← nameOf name
  orRefuse ((← get).host.store.read name default)

def write (name : Value) (x : Value) : Call Value := do
  let name ← nameOf name
  let (y, store) ← orRefuse ((← get).host.store.write name x)
  modify fun m => { m with host := { m.host with store } }
  return .float y

/-- Writes what a function makes of the value of a variable and of a number. -/
def change (name v : Value) (f : Float → Float → Float) : Call Value := do
  let x ← read name zero
  let y ← number v zero
  write name (.float (f x y))

def draw : Call Float := fun m =>
  let (x, draws) := m.host.draws.next
  (.ok x, { m with host := { m.host with draws } })

end Call

def lesser (x y : Float) : Float := if y < x then y else x

def greater (x y : Float) : Float := if x < y then y else x

def between (x lo hi : Float) : Float :=
  if hi < lo then lesser (greater x hi) lo else lesser (greater x lo) hi

/-- The value of a number that bounds are put to; a bound without a value is no bound. -/
def clamped (v lo hi : Value) : Call Float := do
  let x ← Call.number v zero
  let lo ← Call.number lo (.float x)
  let hi ← Call.number hi (.float x)
  return between x lo hi

/-- The bounds that a random number is asked for: a single one goes with zero, none are zero and
one. -/
def randomBounds (lo hi : Value) : Call (Float × Float) := do
  let (lo, hi) := if hi matches .undefined then (zero, lo) else (lo, hi)
  let one : Value := .float 1.0
  let a ← Call.number lo zero
  let b ← Call.number (if hi matches .undefined then one else hi) one
  return (lesser a b, greater a b)

def randomFloat (lo hi : Float) : Call Float := do
  return (← Call.draw) * (hi - lo) + lo

/-- A random integer between two bounds, both of them possible. -/
def randomInt (lo hi : Float) : Call Float := do
  let first ← orRefuse (truncated lo)
  let last ← orRefuse (truncated hi)
  if last ≤ first then orRefuse (Number.int first).toFloat
  else
    let x ← Call.draw
    let count ← orRefuse (Number.int (last - first + 1)).toFloat
    let n ← orRefuse (floored (x * count))
    orRefuse (Number.int (n + first)).toFloat

/-- How many arguments a helper takes, if there is a most. -/
def mostArguments? : Helper → Option Nat
  | .setVar => some 2
  | .getVar => some 2
  | .hasVar => some 1
  | .addVar => some 2
  | .subVar => some 2
  | .mulVar => some 2
  | .divVar => some 2
  | .incVar => some 1
  | .decVar => some 1
  | .clampVar => some 3
  | .rand => some 2
  | .randInt => some 2
  | .clamp => some 3
  | .plain _ => none

/-- The value of a helper on as many arguments as it takes. -/
def applyHelper (h : Helper) (args : List Value) : Call Value := do
  let first := Call.argument args 0
  let second := Call.argument args 1
  let third := Call.argument args 2
  match h with
  | .setVar => Call.write first second
  | .getVar => return .float (← Call.read first second)
  | .hasVar => do
    let name ← Call.nameOf first
    return .bool ((← get).host.store.holds name)
  | .addVar => Call.change first second (· + ·)
  | .subVar => Call.change first second (· - ·)
  | .mulVar => Call.change first second (· * ·)
  | .divVar => do
    let y ← Call.number second zero
    let x ← Call.read first zero
    if isNearZero y then return .float x else Call.write first (.float (x / y))
  | .incVar => Call.change first (.float 1.0) (· + ·)
  | .decVar => Call.change first (.float 1.0) (· - ·)
  | .clampVar => do
    let x ← Call.read first zero
    Call.write first (.float (← clamped (.float x) second third))
  | .rand => do
    let (lo, hi) ← randomBounds first second
    return .float (← randomFloat lo hi)
  | .randInt => do
    let (lo, hi) ← randomBounds first second
    return .float (← randomInt lo hi)
  | .clamp => return .float (← clamped first second third)
  | .plain f => orRefuse (callMath f args)

def refuseArguments (h : Helper) (most given : Nat) : Call Value := do
  throw (.arguments most given ((← get).host.wording h given))

def callHelper (h : Helper) (args : List Value) : Call Value :=
  match mostArguments? h with
  | some most =>
    if most < args.length then refuseArguments h most args.length else applyHelper h args
  | none => applyHelper h args

def callNative (f : Native) (args : List Value) : Call Value :=
  match f with
  | .helper h => callHelper h args
  | f => callBinding f args

/-- The value of a global or else of a variable. -/
def State.read (s : State) (name : String) : Run State Value :=
  match s.globals.get? name with
  | some v => return v
  | none => return .float (← orFault (s.store.read name zero))

/-- The names of a script: its globals go before the variables. -/
def host : Host State where
  has s name := s.globals.has name || s.store.holds name
  read name := do (← get).host.read name
  write name v := do
    let s := (← get).host
    if s.globals.has name then
      modify fun m => { m with host := { s with globals := s.globals.put name v } }
    else
      let (_, store) ← orFault (s.store.write name v)
      modify fun m => { m with host := { s with store } }
  call := callNative

def globalsFor (tick : Float) (mathematics : Value) : Fields Value :=
  [("Math", mathematics), ("PI", .float 3.141592653589793), ("tick", .float tick)] ++
    Helper.all.map fun h => (h.name, .native (.helper h))

/-- The machine on which a script starts. -/
def machineFor (store : Store) (tick : Float) (draws mathDraws : Draws) (wording : Wording) :
    Machine State :=
  let (mathematics, m) := (Machine.start (⟨store, [], draws, wording⟩ : State) mathDraws).addObject
    { fields := mathFields }
  { m with host := { m.host with globals := globalsFor tick mathematics } }

end EmitterLogic.Tick
