import EmitterLogic.Behavior.Variable
import EmitterLogic.Behavior.Basic
import EmitterLogic.Action.Effect
import EmitterLogic.Condition.Evaluation
import EmitterLogic.Tick.Run

/-!
Particles, as far as their death needs them.
-/

namespace EmitterLogic

structure Particle where
  position : Triple Float
  velocity : Triple Float
  age : Float
  life : Float
  size : Float
  sign : Int
  respawns : Nat
deriving Repr

namespace Particle

def numberOf (d : Datum) : Except Fault Float := do
  let x ← d.finiteOrZero
  return if x == 0.0 then 0.0 else x

def integerOf (d : Datum) : Except Fault Int := do truncated (← numberOf d)

/-- A place or a speed, as an object or a list. -/
def tripleOf : Datum → Except Fault (Triple Float)
  | .list (x :: y :: z :: _) => (⟨x, y, z⟩ : Triple Datum).mapM numberOf
  | .object entries =>
    let d := Datum.object entries
    (⟨d.getD "x", d.getD "y", d.getD "z"⟩ : Triple Datum).mapM numberOf
  | _ => .ok ⟨0.0, 0.0, 0.0⟩

def firstOf (d : Datum) (keys : List String) : Datum := (keys.findSome? d.get?).getD .null

/-- The particle of a document. -/
def ofDatum (d : Datum) : Except Fault Particle := do
  let size ← (d.getD "size").finite?
  return {
    position := ← tripleOf (d.getD "pos")
    velocity := ← tripleOf (d.getD "vel")
    age := ← numberOf (d.getD "age")
    life := ← numberOf (firstOf d ["life", "maxAge"])
    size := size.getD 1.0
    sign := ← integerOf (d.getD "sign")
    respawns := (← integerOf (firstOf d ["respawn_count", "respawnCount"])).toNat }

end Particle

/-- A particle to be spawned. Its life is a number as it was found, integer or not. -/
structure Spawn where
  position : Triple Float
  velocity : Triple Float
  size : Float
  sign : Int
  life : Number
  respawns : Nat

namespace Spawn

def tripleToDatum (t : Triple Float) : Datum := .list (t.toList.map .float)

def toDatum (s : Spawn) : Datum := .object [
  ("pos", tripleToDatum s.position),
  ("vel", tripleToDatum s.velocity),
  ("size", .float s.size),
  ("sign", .int s.sign),
  ("life", .number s.life),
  ("respawnCount", .int s.respawns),
  ("age", .float 0.0)]

end Spawn

structure Preview where
  store : Fields Datum := []
  tick : Nat := 0
  /-- The declarations that the store was set up for, empty before the first. -/
  signature : String := ""
  /-- The adopted behavior, none before the first. -/
  behavior : Option Behavior := none
  compiled : Option Tick.Compiled := none
  /-- The random numbers of its scripts. -/
  draws : Draws := {}

/-- A computation on a preview in a session. A fault leaves both as it finds them. -/
abbrev Staged (α : Type) := ExceptT Fault (StateT Preview (StateM Session)) α

namespace Staged

def lift {α : Type} : Except Fault α → Staged α
  | .ok a => pure a
  | .error f => throw f

def live {α : Type} (x : Live α) : Staged α := fun p => do
  return (← x.run, p)

end Staged

namespace Preview

open Staged

def vars (p : Preview) : List Variable := (p.behavior.map (·.vars)).getD []

def stored (vs : List Variable) : List Variable := vs.filter (·.name != "")

def signatureOf (vs : List Variable) : String :=
  Json.compact (.list ((stored vs).map fun v => .object v.declaration))

def startingValues (vs : List Variable) : Except Fault (Fields Datum) :=
  (stored vs).mapM fun v => do return (v.name, .float (← Variable.ofType v.isInt v.initial))

def freshStore (values : Fields Datum) : Fields Datum := Fields.merge [] values

def completed (store values : Fields Datum) : Fields Datum :=
  values.foldl (fun s v => if s.has v.1 then s else s.put v.1 v.2) store

/-- Puts the value of a variable between its bounds. -/
def boundOne (v : Variable) (store : Fields Datum) : Except Fault (Fields Datum) :=
  match store.get? v.name with
  | none => .ok store
  | some d => do
    let x ← match ← d.finite? with
      | some x => pure x
      | none => Variable.ofType v.isInt v.initial
    return store.put v.name (.float (← v.bound x))

/-- Puts the values of variables between their bounds. -/
def boundEach : List Variable → Staged Unit
  | [] => return
  | v :: rest => do
    let store ← lift (boundOne v (← get).store)
    modify fun p => { p with store }
    boundEach rest

def applyBounds : Staged Unit := do boundEach (stored (← get).vars)

def compiledScript (b : Behavior) : Except Fault (Option Tick.Compiled) :=
  if b.script.isEmpty then .ok none
  else (Tick.Compiled.ofText b.script b.variableNames).map some

/-- Compiles the script of a behavior, unless it is the one that has been compiled. -/
def recompile (b : Behavior) : Staged Unit := do
  if ((← get).compiled.map (·.source)) != some b.script then
    let compiled ← lift (compiledScript b)
    modify fun p => { p with compiled }

/-- Adopts the behavior of a document. -/
def adopt (document : Datum) : Staged Unit := do
  let b ← lift (Behavior.ofDatum document)
  let values ← lift (startingValues b.vars)
  let signature := signatureOf b.vars
  modify fun p => { p with
    signature
    store := if signature == p.signature then completed p.store values else freshStore values
    behavior := some b }
  recompile b
  applyBounds

def tickContext (tick : Nat) : Fields Datum :=
  [("tick", .int tick), ("age", .int 0), ("maxAge", .int 0), ("life", .int 0), ("sign", .int 0),
    ("respawnCount", .int 0)]

def carryOut (context : Fields Datum) (a : Action) : Staged Unit := do
  if let some store ← lift (a.applied? context (← get).store) then
    modify fun p => { p with store }

def carryOutAtTick (context : Fields Datum) (t : TickAction) : Staged Unit := do
  let sight : Sight := { context, vars := (← get).store }
  if ← live (t.condition.holds sight) then carryOut context t.action

/-- Runs the compiled script, unless it has a defect. -/
def runScript : Staged Unit := do
  let p ← get
  if let some c := p.compiled then
    let outcome ← live (liftM (c.run p.store (.int p.tick) p.draws none))
    modify fun p => { p with store := outcome.store, draws := outcome.draws }
    discard (lift outcome.result)

/-- A tick: the script of the behavior, or its actions where it has no script. -/
def runTick : Staged Unit := do
  modify fun p => { p with tick := p.tick + 1 }
  let p ← get
  match p.behavior with
  | none => return
  | some b =>
    if b.script.isEmpty then b.tickActions.forM (carryOutAtTick (tickContext p.tick))
    else runScript
    applyBounds

end Preview

end EmitterLogic
