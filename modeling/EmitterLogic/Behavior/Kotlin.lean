import EmitterLogic.Behavior.Basic
import EmitterLogic.Action.Effect
import EmitterLogic.Condition.Kotlin
import EmitterLogic.Tick.Kotlin

/-!
Behaviors in generated code: a property for each variable, the bounds of the variables, and the
overrides for a tick and for the death of a particle.
-/

namespace EmitterLogic

open Kotlin Session

namespace Variable

def hasCode (v : Variable) : Bool := isIdent v.name

def numberToKotlin (v : Variable) (x : Float) : Except Fault String :=
  Kotlin.typed (.float x) v.isInt

/-- The property of a variable. -/
def toKotlin (v : Variable) : Except Fault (List String) := do
  if !v.hasCode then return []
  let type := if v.isInt then "Int" else "Double"
  return ["@CodecField",
    "var " ++ v.name ++ ": " ++ type ++ " = " ++ (← v.numberToKotlin v.initial), ""]

/-- The statement that keeps a variable within its bounds. -/
def boundToKotlin (v : Variable) : Except Fault (List String) := do
  if !v.hasCode || !v.isBounded then return []
  let lo ← v.numberToKotlin v.minValue
  let hi ← v.numberToKotlin v.maxValue
  let guarded (sign bound : String) : String :=
    "    if (" ++ v.name ++ " " ++ sign ++ " " ++ bound ++ ") " ++ v.name ++ " = " ++ bound
  return [
    if v.hasMin && v.hasMax then
      "    " ++ v.name ++ " = " ++ v.name ++ ".coerceIn(" ++ lo ++ ", " ++ hi ++ ")"
    else if v.hasMin then guarded "<" lo
    else guarded ">" hi]

def listToKotlin (vs : List Variable) : Except Fault (List String) := do
  return (← vs.mapM toKotlin).flatten

/-- The function that keeps variables within their bounds, none if there are no bounds. -/
def boundsToKotlin (vs : List Variable) : Except Fault (List String) := do
  let statements := (← vs.mapM boundToKotlin).flatten
  return if statements.isEmpty then []
    else "private fun applyEmitterVarBounds() \x7b" :: statements ++ ["\x7d", ""]

end Variable

def boundsCall (indent : String) (hasBounds : Bool) : List String :=
  if hasBounds then [indent ++ "applyEmitterVarBounds()"] else []

namespace TickAction

def valueMap : NameMap := [("tick", "tick")]

def conditionMap : NameMap :=
  [("tick", "tick"), ("age", "0"), ("maxAge", "0"), ("life", "0"), ("sign", "0"),
    ("respawnCount", "0")]

/-- The lines of an action, none if it names no variable. -/
def toKotlin (indent : String) (t : TickAction) : Live (List String) := do
  let statement ← lift (t.action.toKotlin valueMap .literal)
  if statement.isEmpty then return []
  let condition ← t.condition.toKotlin conditionMap .literal
  return if condition.isEmpty then [indent ++ statement]
    else
      [indent ++ "if (" ++ condition ++ ") \x7b", indent ++ indent ++ statement, indent ++ "\x7d"]

end TickAction

namespace Kotlin

/-- The override for a tick: the script, or the actions where there is no script. -/
def tick (indent script : String) (actions : List TickAction) (hasBounds : Bool) :
    Live (List String) := do
  let script := Tick.cleanSource script
  let body ←
    if script.isEmpty then do
      let lines := (← actions.mapM (TickAction.toKotlin indent)).flatten
      pure (if lines.isEmpty then [indent ++ "// modify emitter variables here"]
        else lines ++ boundsCall indent hasBounds)
    else pure (Tick.toKotlin indent script :: boundsCall indent hasBounds)
  return "override fun doTick() \x7b" :: body ++ ["\x7d"]

/-- The code of a greatest age by its kind and value. -/
def maxAge (kind value : Datum) : Except Fault String :=
  match kind with
  | .text "number" => integerOrVariable value (.int 1)
  | .text "var" =>
    let name := value.trimmedText
    .ok (if isIdent name then name else "1")
  | .text kind => .ok (if (MaxAge.builtin? kind).isSome then kind else "1")
  | _ => .ok "1"

end Kotlin

namespace Death

def valueMap : NameMap :=
  [("age", "age"), ("maxAge", "maxAge"), ("life", "maxAge"), ("sign", "oldData.sign"),
    ("respawnCount", "respawnCount")]

def conditionMap : NameMap := valueMap ++ [("reason", "reason")]

def signature : List String := [
  "override fun singleParticleDeathAction(",
  "    oldControler: ParticleControler,",
  "    oldData: ControlableParticleData,",
  "    respawnCount: Int,",
  "    reason: RemoveReason",
  "): List<Pair<ControlableParticleData, RelativeLocation>> \x7b"]

/-- The lines that change what a new particle takes from the dead one. -/
def particleToKotlin (d : Death) : Except Fault (List String) := do
  let one : Datum := .float 1.0
  let size ← decimalOrVariable d.sizeFactor.toDatum one
  let speed ← decimalOrVariable d.speedFactor.toDatum one
  let sign ← if d.setsSign then
      (integerOrVariable d.sign.toDatum (.int 0)).map fun s => ["sign = " ++ s]
    else .ok []
  let age ← if d.setsMaxAge then
      (Kotlin.maxAge (.text d.maxAge.kind) d.maxAge.value).map fun s =>
        ["maxAge = (" ++ s ++ ").toInt().coerceAtLeast(1)"]
    else .ok []
  return ["size = (size * " ++ size ++ ").toFloat()",
    "velocity = velocity.scale(" ++ speed ++ ")"] ++ sign ++ age

/-- The lines that spawn new particles. -/
def spawnToKotlin (d : Death) (indent : String) : Except Fault (List String) := do
  let twice := indent ++ indent
  let count ← integerOrVariable d.count.toDatum (.int 0)
  let particle ← d.particleToKotlin
  let offset ← d.offset.mapM fun a => decimalOrVariable a.toDatum (.int 0)
  return [
    indent ++ "val res = mutableListOf<Pair<ControlableParticleData, RelativeLocation>>()",
    indent ++ "repeat(maxOf(0, " ++ count ++ ")) \x7b",
    twice ++ "val data = oldData.clone().apply \x7b"] ++
    particle.map (twice ++ indent ++ ·) ++ [
    twice ++ "\x7d",
    twice ++ "res.add(data to RelativeLocation(" ++ String.intercalate ", " offset.toList ++ "))",
    indent ++ "\x7d",
    indent ++ "return res"]

/-- The body of the override for an enabled death. -/
def bodyToKotlin (d : Death) (indent : String) (hasBounds : Bool) : Live (List String) := do
  let condition ← d.condition.toKotlin conditionMap .literal
  let statements ← d.actions.mapM fun a => lift (a.toKotlin valueMap .literal)
  let spawn ← if d.respawns then lift (d.spawnToKotlin indent)
    else pure [indent ++ "return listOf()"]
  return [indent ++ "val age = oldControler.currentAge",
    indent ++ "val maxAge = oldControler.lifetime"] ++
    (if condition.isEmpty then [] else [indent ++ "if (!(" ++ condition ++ ")) return listOf()"]) ++
    (statements.filter (· != "")).map (indent ++ ·) ++
    boundsCall indent (hasBounds && !d.actions.isEmpty) ++ spawn

/-- The override for the death of a particle. -/
def toKotlin (d : Death) (indent : String) (hasBounds : Bool) : Live (List String) := do
  let body ← if d.enabled then d.bodyToKotlin indent hasBounds
    else pure [indent ++ "return listOf()"]
  return signature ++ body ++ ["\x7d"]

end Death

namespace Behavior

/-- A text in which no more than two line breaks follow one another; `n` have gone before. -/
def withoutBlankRuns : Nat → List Char → List Char
  | _, [] => []
  | n, c :: rest =>
    if c == '\n' then
      if n < 2 then c :: withoutBlankRuns (n + 1) rest else withoutBlankRuns n rest
    else c :: withoutBlankRuns 0 rest

/-- The code of a behavior. -/
def toKotlin (b : Behavior) : Live String := do
  let indent := (← get).config.indent
  let vars ← lift (Variable.listToKotlin b.vars)
  let bounds ← lift (Variable.boundsToKotlin b.vars)
  let hasBounds := !bounds.isEmpty
  let tick ← Kotlin.tick indent b.script b.tickActions hasBounds
  let death ← b.death.toKotlin indent hasBounds
  let text := String.intercalate "\n" (vars ++ bounds ++ tick ++ [""] ++ death)
  return String.ofList (Text.trim (withoutBlankRuns 0 text.toList))

def documentToKotlin (d : Datum) : Live String := do (← lift (ofDatum d)).toKotlin

end Behavior

def Filter.toKotlinAlone (f : Filter) (map : NameMap) : Live String := do
  let text ← f.toKotlin map .literal
  return if text.isEmpty then "true" else text

end EmitterLogic
