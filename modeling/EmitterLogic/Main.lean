import EmitterLogic.Command.Basic

/-!
The command line. Settings come from a file and from the environment.
-/

namespace EmitterLogic.Command

def settingsFile : String := "user_data/compiler_config.json"

def settingsVariables : List String := ["EMITTER_SCRIPT_STEP_LIMIT", "EMITTER_CACHE_MAX"]

def readText? (name : String) : IO (Option String) := do
  try return some (← IO.FS.readFile name)
  catch _ => return none

def environment : IO (Fields String) :=
  settingsVariables.filterMapM fun name => do
    return (← IO.getEnv name).map fun value => (name, value)

def abort (text : String) : IO UInt32 := do
  IO.eprintln text
  return 1

/-- Writes what an outcome holds. -/
def finish (o : Outcome) : IO UInt32 := do
  if let some (name, text) := o.written then IO.FS.writeFile name text
  IO.print o.output
  match o.exit with
  | .code n => return n.toUInt32
  | .message text => abort text

def runWith (config : Config) (args : List String) : IO UInt32 := do
  match Request.ofArguments args with
  | .error stop => finish stop.outcome
  | .ok request =>
    let text? ← match request.file? with
      | some name => readText? name
      | none => pure none
    match ((request.perform text?).run (Session.start config)).1 with
    | .ok outcome => finish outcome
    | .error (.fault f) => abort f.message
    | .error (.missing file) => abort ("cannot read " ++ file)

end EmitterLogic.Command

open EmitterLogic Command in
def main (args : List String) : IO UInt32 := do
  match Config.load (← readText? settingsFile) (← environment) with
  | .ok config => runWith config args
  | .error f => abort f.message
