import EmitterLogic.Action.Effect
import EmitterLogic.Condition.Filter
import EmitterLogic.Behavior.Variable
import EmitterLogic.Tick.Check
import EmitterLogic.Datum.Json

/-!
Actions of ticks: actions with a condition. No particle is there at a tick, so that such an action
has a number, a variable or the tick for its value.
-/

namespace EmitterLogic

/-- The filter of a document: of an object, or of anything else as a line of text. -/
def Filter.ofSource (d : Datum) (allowReason : Bool) : Except Fault Filter :=
  match d with
  | .object _ => Filter.ofDatum d allowReason
  | d => Filter.ofDatum (.text d.textUnlessNull) allowReason

structure TickAction where
  action : Action
  condition : Filter

namespace TickAction

def toDatum (t : TickAction) : Datum :=
  .object (t.action.fields ++ [("condition", t.condition.toDatum)])

/-- The value that a tick can have; others become zero. -/
def valueAtTick : Term → Term
  | .builtin .tick => .builtin .tick
  | .builtin _ => .zero
  | t => t

def atTick (a : Action) : Action :=
  if a.op.isStep then a else { a with value := valueAtTick a.value }

def actionOf (d : Datum) : Except Fault Action :=
  if (d.getD "expr").trimmedText.isEmpty then Action.create d else Action.ofObject d

def ofDatum (d : Datum) : Except Fault TickAction := do
  return {
    action := atTick (← actionOf d)
    condition := ← Filter.ofSource (d.getD "condition") false }

def listOf : Datum → Except Fault (List TickAction)
  | .list items => items.mapM ofDatum
  | _ => .ok []

end TickAction

/-- The greatest age of a new particle: an amount, a variable that may be unnamed, or one of the
values of the dead particle. -/
inductive MaxAge where
  | amount (a : Amount)
  | named (name : String)
  | builtin (b : Builtin)

namespace MaxAge

def builtins : List Builtin := [.age, .maxAge, .respawnCount]

def kind : MaxAge → String
  | amount _ => "number"
  | named _ => "var"
  | builtin b => b.name

def value : MaxAge → Datum
  | amount a => a.toDatum
  | named name => .text name
  | builtin _ => .float 0.0

def builtin? (kind : String) : Option Builtin := builtins.find? (·.name == kind)

/-- The greatest age of a kind and a value. -/
def ofParts (kind value : Datum) : Except Fault MaxAge :=
  let kind := canonicalName kind.textOrEmpty
  if kind == "var" then .ok (named (if value.isIdent then trimmed value.toText else ""))
  else match builtin? kind with
    | some b => .ok (builtin b)
    | none => (Amount.ofDatum value .one { whole := true, lo := some (.int 1) }).map amount

/-- The greatest age that a line of text spells. -/
def ofText? (text : String) : Except Fault (Option MaxAge) :=
  match Spelling.ofText (trimmed text) with
  | .number x => do
    let y ← wholePart x
    return some (amount (.float (if 1.0 < y then y else 1.0)))
  | .name s =>
    match builtin? (canonicalName s) with
    | some b => .ok (some (builtin b))
    | none => .ok (some (named s))
  | .nothing => .ok none
  | .other => .ok none

end MaxAge

structure Death where
  enabled : Bool := false
  /-- Are new particles spawned? -/
  respawns : Bool := false
  condition : Filter
  count : Amount := .one
  offset : Triple Amount := ⟨.float 0.0, .float 0.0, .float 0.0⟩
  sizeFactor : Amount := .one
  speedFactor : Amount := .one
  setsSign : Bool := false
  sign : Amount := .float 0.0
  setsMaxAge : Bool := false
  maxAge : MaxAge := .amount .one
  actions : List Action := []

namespace Death

def toDatum (d : Death) : Datum := .object [
  ("enabled", .bool d.enabled),
  ("mode", .text (if d.respawns then "respawn" else "dissipate")),
  ("condition", d.condition.toDatum),
  ("respawnCount", d.count.toDatum),
  ("offset", .object [
    ("x", d.offset.x.toDatum), ("y", d.offset.y.toDatum), ("z", d.offset.z.toDatum)]),
  ("sizeMul", d.sizeFactor.toDatum),
  ("speedMul", d.speedFactor.toDatum),
  ("signMode", .text (if d.setsSign then "set" else "keep")),
  ("signValue", d.sign.toDatum),
  ("maxAgeEnabled", .bool d.setsMaxAge),
  ("maxAgeValueType", .text d.maxAge.kind),
  ("maxAgeValue", d.maxAge.value),
  ("varActions", .list (d.actions.map Action.toDatum))]

def isText (d : Datum) (s : String) : Bool :=
  match d with
  | .text t => t == s
  | _ => false

/-- Whether the greatest age is set, and to what. A line of text counts where it is not set. -/
def maxAgeOf (d : Datum) : Except Fault (Bool × MaxAge) := do
  let isSet := (d.getD "maxAgeEnabled").isOn
  let given ← MaxAge.ofParts (d.getD "maxAgeValueType") (d.getD "maxAgeValue")
  let spelled? ← MaxAge.ofText? (d.getD "maxAgeExpr").textOrEmpty
  return match isSet, spelled? with
    | false, some m => (true, m)
    | _, _ => (isSet, given)

def ofObject (d : Datum) : Except Fault Death := do
  let condition ← Filter.ofSource (d.getD "condition") true
  let count ← Amount.ofDatum (d.getD "respawnCount") .one
    { whole := true, lo := some (.int 0) }
  let offset ← (⟨"x", "y", "z"⟩ : Triple String).mapM fun key =>
    Amount.ofDatum ((d.getD "offset").getD key) (.float 0.0)
  let sizeFactor ← Amount.ofDatum (d.getD "sizeMul") .one
  let speedFactor ← Amount.ofDatum (d.getD "speedMul") .one
  let sign ← Amount.ofDatum (d.getD "signValue") (.float 0.0) { whole := true }
  let (setsMaxAge, maxAge) ← maxAgeOf d
  return {
    enabled := (d.getD "enabled").isOn
    respawns := isText (d.getD "mode") "respawn"
    condition, count, offset, sizeFactor, speedFactor
    setsSign := isText (d.getD "signMode") "set"
    sign, setsMaxAge, maxAge
    actions := ← Action.listOf (d.getD "varActions") }

def ofDatum (d : Datum) : Except Fault Death :=
  if d.isObject then ofObject d else do return { condition := ← Filter.create [] true }

end Death

structure Behavior where
  vars : List Variable := []
  script : String := ""
  tickActions : List TickAction := []
  death : Death

namespace Behavior

def toDatum (b : Behavior) : Datum := .object [
  ("emitterVars", .list (b.vars.map Variable.toDatum)),
  ("tickExpression", .text b.script),
  ("tickActions", .list (b.tickActions.map TickAction.toDatum)),
  ("death", b.death.toDatum)]

def variablesOf : Datum → Except Fault (List Variable)
  | .list items => items.mapM Variable.ofDatum
  | _ => .ok []

def scriptKeys : List String := ["tickExpression", "doTickExpression", "tickScript"]

def scriptOf (d : Datum) : String :=
  let given := (scriptKeys.map d.getD).find? fun s => !s.isNull
  Tick.cleanSource (given.getD .null).textOrEmpty

/-- The behavior of a document; what is no object gives the default one. -/
def ofDatum (d : Datum) : Except Fault Behavior :=
  if d.isObject then do
    return {
      vars := ← variablesOf (d.getD "emitterVars")
      script := scriptOf d
      tickActions := ← TickAction.listOf (d.getD "tickActions")
      death := ← Death.ofDatum (d.getD "death") }
  else do return { death := ← Death.ofDatum .null }

def variableNames (b : Behavior) : List String :=
  ((b.vars.map (·.name)).filter isIdent).eraseDups

def save (b : Behavior) : String := Json.render b.toDatum

def load? (text : String) : Option (Except Fault Behavior) := (Json.parse? text).map ofDatum

end Behavior

end EmitterLogic
