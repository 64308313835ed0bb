import EmitterLogic.Tick.Host
import EmitterLogic.Tick.Check
import EmitterLogic.Session

/-!
Running tick scripts. An error of a script is reported, once for each wording, and goes no further.
-/

namespace EmitterLogic.Tick

open Script

/-- What a run leaves: its answer, the variables and the random numbers. The answer tells whether the
script went to its end; a run that is out of fuel has not ended, and has none. -/
structure Outcome where
  answer? : Option (Except Fault Bool)
  store : Store
  draws : Draws

/-- What a caller goes on with. Without an answer there is no caller that goes on; false stands
there. -/
def Outcome.result (o : Outcome) : Except Fault Bool := o.answer?.getD (.ok false)

/-- What tells reports of wrong numbers of arguments apart, whatever their wording. -/
def detail : Interrupt → String
  | .failed (.helper _ (.arguments most given _)) => toString most ++ " " ++ toString given
  | _ => ""

def reportAbort (log : Log) (source : String) (i : Interrupt) : Log :=
  log.writeOnce "doTick" (source ++ ":" ++ i.message ++ detail i) ("script aborted: " ++ i.message)

/-- Runs a program from a number of ticks, with fuel for calls and for the rounds of loops. -/
def runProgram (source : String) (program : Program) (store : Store) (tick : Float) (draws : Draws)
    (limit fuel : Nat) : StateM Session Outcome := do
  let s ← get
  let (result, m) := runWith host limit fuel program
    (machineFor store tick draws s.draws s.wording)
  modify fun s => { s with draws := m.draws }
  let outcome (answer? : Option (Except Fault Bool)) : Outcome :=
    ⟨answer?, m.host.store, m.host.draws⟩
  match result with
  | .ok _ => return outcome (some (.ok true))
  | .error (.fault f) => return outcome (some (.error f))
  | .error .outOfFuel => return outcome none
  | .error i =>
    modify fun s => { s with log := reportAbort s.log source i }
    return outcome (some (.ok false))

namespace Compiled

/-- Runs a compiled script once, under a limit of steps and with the fuel that goes with it. A script
with a defect and an empty one do nothing. -/
def runWithin (c : Compiled) (store : Store) (tick : Datum) (draws : Draws) (limit fuel : Nat) :
    StateM Session Outcome := do
  match c.program? with
  | none => return ⟨some (.ok false), store, draws⟩
  | some program =>
    match finiteOf (flatValue tick) zero with
    | .error f => return ⟨some (.error f), store, draws⟩
    | .ok x => runProgram c.source program store x draws limit fuel

/-- Runs a compiled script once; without a limit of its own it has that of the settings. -/
def run (c : Compiled) (store : Store) (tick : Datum) (draws : Draws) (limit : Option Nat) :
    StateM Session Outcome := do
  let limit := limit.getD (← get).config.scriptStepLimit
  c.runWithin store tick draws limit (fuelFor limit)

end Compiled

end EmitterLogic.Tick
