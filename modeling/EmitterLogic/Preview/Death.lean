import EmitterLogic.Preview.Basic

/-!
The death of a particle in the preview: it changes the variables of the behavior and tells which
particles come in its place.
-/

namespace EmitterLogic.Preview

open Staged

def deathContext (p : Particle) (tick : Nat) (reason : Datum) : Fields Datum :=
  [("age", .float p.age), ("maxAge", .float p.life), ("life", .float p.life), ("sign", .int p.sign),
    ("respawnCount", .int (p.respawns + 1)), ("tick", .int tick), ("reason", reason)]

/-- The greatest age of new particles. -/
def newLife (d : Death) (p : Particle) (s : Sight) : Except Fault Number :=
  if !d.setsMaxAge then .ok (.float p.life)
  else do
    let given ← match d.maxAge with
      | .amount a => a.resolve? s
      | .named name => s.number? (.text name)
      | .builtin b => s.number? (.text b.name)
    ({ whole := true, lo := some (.int 1) } : Bounds).clamp (given.getD p.life)

def spawnCount (d : Death) (s : Sight) : Except Fault Nat := do
  let n ← d.count.resolve s 1.0 { whole := true, lo := some (.int 0) }
  return (← truncated (← n.toFloat)).toNat

def resolveFloat (a : Amount) (s : Sight) (default : Float) : Except Fault Float := do
  return (← a.resolve? s).getD default

/-- A particle in the place of a dead one. -/
def spawnOf (d : Death) (p : Particle) (s : Sight) : Except Fault Spawn := do
  let offset ← d.offset.mapM fun a => resolveFloat a s 0.0
  let size ← resolveFloat d.sizeFactor s 1.0
  let speed ← resolveFloat d.speedFactor s 1.0
  let sign ← if d.setsSign then do
      let x ← resolveFloat d.sign s (← (Number.int p.sign).toFloat)
      truncated x
    else .ok p.sign
  return {
    position := ⟨p.position.x + offset.x, p.position.y + offset.y, p.position.z + offset.z⟩
    velocity := p.velocity.map (· * speed)
    size := p.size * size
    sign
    life := ← newLife d p s
    respawns := p.respawns + 1 }

/-- The particles that come in the place of a dead one. -/
def spawns (d : Death) (p : Particle) (s : Sight) : Except Fault (List Spawn) := do
  let n ← spawnCount d s
  if n == 0 then return []
  return List.replicate n (← spawnOf d p s)

/-- The death of a particle for a reason. -/
def runDeath (particle reason : Datum) : Staged (List Spawn) := do
  match (← get).behavior.map (·.death) with
  | none => return []
  | some d =>
    if !d.enabled then return []
    let p ← lift (Particle.ofDatum particle)
    let context := deathContext p (← get).tick reason
    if !(← live (d.condition.holds { context, vars := (← get).store })) then return []
    d.actions.forM (carryOut context)
    applyBounds
    if !d.respawns then return []
    lift (spawns d p { context, vars := (← get).store })

end EmitterLogic.Preview
