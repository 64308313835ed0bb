import EmitterLogic.Datum.Json
import EmitterLogic.Cache
import EmitterLogic.Formula.Program
import EmitterLogic.Predicate.Basic

/-!
The diagnostics log: the newest lines up to a size, and the keys of messages that are written once.
-/

namespace EmitterLogic

structure Log where
  size : Nat := 400
  /-- The lines, the oldest one first. -/
  lines : List String := []
  seen : List String := []
deriving Repr

namespace Log

def newest {α : Type} (n : Nat) (xs : List α) : List α := xs.drop (xs.length - n)

def push (log : Log) (line : String) : Log :=
  { log with lines := newest log.size (log.lines ++ [line]) }

def write (log : Log) (area message : String) : Log :=
  log.push ("[" ++ area ++ "] " ++ message)

/-- Writes a message of an area, unless one of this key has been written. -/
def writeOnce (log : Log) (area key message : String) : Log :=
  let k := area ++ ":" ++ key
  if log.seen.contains k then log
  else { log with seen := k :: log.seen }.write area message

def resize (log : Log) (n : Int) : Log :=
  let size := (max 1 n).toNat
  { log with size, lines := newest size log.lines }

def tail (log : Log) (n : Int) : List String := newest n.toNat log.lines

def clear (log : Log) : Log := { log with lines := [], seen := [] }

theorem length_newest {α : Type} (n : Nat) (xs : List α) :
    (newest n xs).length = min n xs.length := by
  simp only [newest, List.length_drop]
  omega

theorem length_push (log : Log) (line : String) :
    (log.push line).lines.length ≤ log.size := by
  simp only [push, length_newest]
  exact Nat.min_le_left ..

end Log

structure Config where
  /-- How many steps a script may take; zero for no bound. -/
  scriptStepLimit : Nat := 200000
  /-- How many formulas are kept; zero for no bound. -/
  mathCacheMax : Nat := 0
  /-- How many predicates are kept; zero for no bound. -/
  boolCacheMax : Nat := 0
  indent : String := "    "
  logBufferSize : Nat := 400
deriving Repr

namespace Config

/-- The integer that a setting gives, none if it gives none. An infinite number is a fault. -/
def integer? : Datum → Except Fault (Option Int)
  | .bool b => .ok (some (if b then 1 else 0))
  | .number (.int n) => .ok (some n)
  | .number (.float x) =>
    match truncated x with
    | .ok n => .ok (some n)
    | .error .infinite => .error .infinite
    | .error _ => .ok none
  | .text s => .ok (Reading.int? s.toList)
  | _ => .ok none

def count (fields : Fields Datum) (key : String) (default : Nat) : Except Fault Nat :=
  match fields.get? key with
  | none => .ok default
  | some d => (integer? d).map fun n? => (n?.map Int.toNat).getD default

def ofDatum (d : Datum) : Except Fault Config := do
  let fields := d.fields
  let base : Config := {}
  return {
    scriptStepLimit := ← count fields "script_step_limit" base.scriptStepLimit
    mathCacheMax := ← count fields "math_cache_max" base.mathCacheMax
    boolCacheMax := ← count fields "bool_cache_max" base.boolCacheMax
    indent := (fields.get? "indent").elim base.indent Datum.toText
    logBufferSize := ← count fields "log_buffer_size" base.logBufferSize }

def toDatum (c : Config) : Datum :=
  .object [
    ("script_step_limit", .int c.scriptStepLimit),
    ("math_cache_max", .int c.mathCacheMax),
    ("bool_cache_max", .int c.boolCacheMax),
    ("indent", .text c.indent),
    ("log_buffer_size", .int c.logBufferSize)]

/-- The count that a variable of the environment gives. -/
def environmentCount (env : Fields String) (key : String) : Option Nat := do
  let s ← env.get? key
  let n ← Reading.int? (Text.trim s.toList)
  some n.toNat

/-- The settings from the text of a document, if there is one, and the environment. -/
def load (document : Option String) (env : Fields String) : Except Fault Config := do
  let c ← ofDatum ((document.bind Json.parse?).getD (.object []))
  let c := match environmentCount env "EMITTER_SCRIPT_STEP_LIMIT" with
    | some n => { c with scriptStepLimit := n }
    | none => c
  return match environmentCount env "EMITTER_CACHE_MAX" with
    | some n => { c with mathCacheMax := n, boolCacheMax := n }
    | none => c

end Config

structure Session where
  config : Config := {}
  log : Log := {}
  formulas : Cache (Option Formula) := .empty "math" none
  predicates : Cache (Option Predicate) := .empty "bool" none
  draws : Draws := {}
  /-- The command line cuts this wording. -/
  wording : Script.Wording := fun _ _ => "<argument error>"

/-- A computation in a session. -/
abbrev Live (α : Type) := ExceptT Fault (StateM Session) α

namespace Formula

/-- Asks a table for the formula of a text; a text that is none is reported once. -/
def request (c : Cache (Option Formula)) (log : Log) (text : String) :
    Option Formula × Cache (Option Formula) × Log :=
  match c.hit? text with
  | some (f?, c) => (f?, c, log)
  | none =>
    match compile text with
    | .ok f => (some f, c.insert text (some f), log)
    | .error e =>
      (none, c.insert text none,
        log.writeOnce "math" text ("compile failed for " ++ quoted text ++ ": " ++ e.message))

end Formula

namespace Predicate

def rejection (text : String) : Error → String
  | .malformed e => "syntax error in " ++ quoted text ++ ": " ++ parseErrorMessage e
  | _ => "rejected unsafe expression " ++ quoted text

/-- Asks a table for the predicate of a text; a text that is none is reported once. -/
def request (c : Cache (Option Predicate)) (log : Log) (text : String) :
    Option Predicate × Cache (Option Predicate) × Log :=
  match c.hit? text with
  | some (p?, c) => (p?, c, log)
  | none =>
    match compile text with
    | .ok p => (some p, c.insert text (some p), log)
    | .error e => (none, c.insert text none, log.writeOnce "bool" text (rejection text e))

end Predicate

namespace Session

/-- A session with its settings and random numbers. -/
def start (config : Config := {}) (draws : Draws := {}) : Session :=
  { config, draws
    formulas := .empty "math" (some config.mathCacheMax)
    predicates := .empty "bool" (some config.boolCacheMax) }

def lift {α : Type} : Except Fault α → Live α
  | .ok a => pure a
  | .error f => throw f

def report (area key message : String) : Live Unit :=
  modify fun s => { s with log := s.log.writeOnce area key message }

def formula? (text : String) : Live (Option Formula) := modifyGet fun s =>
  let (f?, formulas, log) := Formula.request s.formulas s.log text
  (f?, { s with formulas, log })

def predicate? (text : String) : Live (Option Predicate) := modifyGet fun s =>
  let (p?, predicates, log) := Predicate.request s.predicates s.log text
  (p?, { s with predicates, log })

/-- The value of a text as a formula. A text that is no formula counts as a number or a name. -/
def evalFormula (sight : Sight) (text : String) (fallback : Number) : Live Number := do
  let text := trimmed text
  if text.isEmpty then return fallback
  match ← formula? text with
  | some f => return .float (← lift (f.eval sight))
  | none =>
    match ← lift (sight.number? (.text text)) with
    | some x => return .float x
    | none => return .float (← lift fallback.toFloat)

/-- The code of a text as a formula. -/
def formulaToKotlin (map : Kotlin.NameMap) (style : Kotlin.NumberStyle) (text : String) :
    Live String := do
  let text := trimmed text
  if text.isEmpty then lift (style.write (.int 0))
  else match ← formula? text with
    | some f =>
      if f.program.isEmpty then lift (Formula.textToKotlin map style text)
      else lift (f.toKotlin map style)
    | none => lift (Formula.textToKotlin map style text)

/-- What is wrong with a text as a predicate. A text that is not allowed is not compiled. -/
def predicateError? (text : String) : Live (Option Predicate.Error) := do
  let text := trimmed text
  if text.isEmpty then return some .empty
  if !Predicate.isAllowed text then return some .notAllowed
  match ← predicate? text with
  | some _ => return none
  | none =>
    match Predicate.compile text with
    | .error e => return some e
    | .ok _ => return none

/-- The truth value of a text as a predicate. -/
def evalPredicate (sight : Sight) (text : String) (fallback : Bool) : Live Bool := do
  let text := trimmed text
  if text.isEmpty then return fallback
  match ← predicate? text with
  | none => return fallback
  | some p =>
    let (result, draws) := p.eval sight.context sight.vars (← get).draws
    modify fun s => { s with draws }
    match result with
    | .ok b => return b
    | .error (.fault f) => throw f
    | .error i =>
      report "bool" ("eval:" ++ text) ("evaluation failed for " ++ quoted text ++ ": " ++ i.message)
      return fallback

/-- The code of a text as a predicate; what is none is never true. -/
def predicateToKotlin (map : Kotlin.NameMap) (text : String) : Live String := do
  let text := trimmed text
  if text.isEmpty then return "false"
  match ← predicateError? text with
  | none => return Predicate.textToKotlin map text
  | some _ => return "false"

end Session

end EmitterLogic
