import EmitterLogic.Proofs.Behavior.Variable
import EmitterLogic.Proofs.Condition.ComputedCode
import EmitterLogic.Proofs.Preview.Adoption

/-!
The death of a particle. A death that is not wanted changes nothing. Any other one carries out its actions
one after the other, each on what those before it have left, puts the values between their bounds, and then
reads what it needs for the new particles from the store that it has changed.
-/

namespace EmitterLogic

open Binary64

namespace Staged

variable {α β : Type} {p q : Preview} {s s' : Session} {b : β}

theorem seq_returned {x : Staged α} {f : α → Staged β} (h : (x >>= f) p s = ((.ok b, q), s')) :
    ∃ a p' s₁, x p s = ((.ok a, p'), s₁) ∧ f a p' s₁ = ((.ok b, q), s') := by
  rcases ran : x p s with ⟨⟨result, p'⟩, s₁⟩
  cases result with
  | ok a => exact ⟨a, p', s₁, rfl, (seq_ok ran).symm.trans h⟩
  | error e => cases (seq_error ran).symm.trans h

theorem lift_returned {e : Except Fault α} {f : α → Staged β}
    (h : (Staged.lift e >>= f) p s = ((.ok b, q), s')) :
    ∃ a, e = .ok a ∧ f a p s = ((.ok b, q), s') := by
  cases e with
  | ok a => exact ⟨a, rfl, h⟩
  | error fault => cases h

theorem live_returned {x : Live α} {f : α → Staged β}
    (h : (Staged.live x >>= f) p s = ((.ok b, q), s')) :
    ∃ a s₁, x s = (.ok a, s₁) ∧ f a p s₁ = ((.ok b, q), s') := by
  obtain ⟨a, p', s₁, ran, rest⟩ := seq_returned h
  rw [live_run] at ran
  rcases found : x s with ⟨result, s₂⟩
  have same : x.run s = (result, s₂) := found
  rw [same] at ran
  cases ran
  exact ⟨a, _, rfl, rest⟩

end Staged

theorem Sight.number?_finite {s : Sight} {d : Datum} {x : Float} (h : s.number? d = .ok (some x)) :
    x.isFinite = true := by
  have plain (h : d.finite? = .ok (some x)) : x.isFinite = true := finite?_isFinite h
  cases d with
  | number n => exact plain h
  | text t =>
    simp only [Sight.number?] at h
    split at h
    · cases h
    · split at h
      · obtain ⟨y, _, finite⟩ := Option.bind_eq_some_iff.mp (Except.ok.inj h)
        exact isFinite_of_finiteOnly finite
      · split at h
        · exact read?_finite h
        · cases h
  | _ => exact plain h

theorem Sight.number?_getD {s : Sight} {d : Datum} {x? : Option Float} {default : Float}
    (h : s.number? d = .ok x?) (finite : default.isFinite = true) :
    (x?.getD default).isFinite = true := by
  cases x? with
  | none => exact finite
  | some x => exact number?_finite h

section Clamped

variable {x : Float} {n : Number}

theorem Bounds.clamp_least {l : Int} (hx : x.isFinite = true) (h : (Bounds.least l).clamp x = .ok n) :
    ∃ y, wholePart x = .ok y ∧ y.isFinite = true ∧ isWhole y = true ∧
      n = if (Number.int l).lt (.float y) then .float y else .int l := by
  rw [Bounds.clamp_eq rfl, least, if_pos rfl] at h
  obtain ⟨y, part, made⟩ := map_ok h
  obtain ⟨finite, whole⟩ := isWhole_wholePart hx part
  exact ⟨y, part, finite, whole, made.symm⟩

theorem Bounds.clamp_one (hx : x.isFinite = true) (h : (Bounds.least 1).clamp x = .ok n) :
    ∃ y, n.toFloat = .ok y ∧ isWhole y = true ∧ 1.0 ≤ y := by
  obtain ⟨y, _, finite, whole, rfl⟩ := clamp_least hx h
  split
  · next above =>
    refine ⟨y, rfl, whole, ?_⟩
    rw [Number.int_lt_float finite, Int.one_mul] at above
    rw [le_iff one_isFinite finite, units_one]
    exact Int.le_of_lt above
  · exact ⟨1.0, by decide, by decide, by decide⟩

theorem Bounds.clamp_zero (hx : x.isFinite = true) (h : (Bounds.least 0).clamp x = .ok n) :
    ∃ y k, n.toFloat = .ok y ∧ truncated x = .ok k ∧ truncated y = .ok (max 0 k) := by
  obtain ⟨y, part, finite, _, rfl⟩ := clamp_least hx h
  have same := truncated_wholePart hx part
  have value := truncated_eq finite
  have positive : (0 : Int) < (unitsOfOne : Nat) := Int.natCast_pos.mpr unitsOfOne_pos
  have order : (Number.int 0).lt (.float y) = true ↔ 0 < units y := by
    rw [Number.int_lt_float finite, Int.zero_mul]
  split
  · next above =>
    rw [order] at above
    have low : 0 ≤ (units y).tdiv (unitsOfOne : Nat) :=
      Int.tdiv_nonneg (Int.le_of_lt above) (Int.le_of_lt positive)
    refine ⟨y, _, rfl, same.symm.trans value, ?_⟩
    rw [value, Int.max_eq_right low]
  · next below =>
    rw [order] at below
    have low := Int.tdiv_le_tdiv positive (Int.not_lt.mp below)
    rw [Int.zero_tdiv] at low
    refine ⟨0.0, _, rfl, same.symm.trans value, ?_⟩
    rw [Int.max_eq_left low]
    decide +kernel

end Clamped

namespace Preview

open Staged

section Particles

variable {d : Death} {particle : Datum} {body : Particle} {s : Sight}

theorem particle_life_isFinite (h : Particle.ofDatum particle = .ok body) :
    body.life.isFinite = true := by
  obtain ⟨size, _, h⟩ := bind_ok h
  obtain ⟨position, _, h⟩ := bind_ok h
  obtain ⟨velocity, _, h⟩ := bind_ok h
  obtain ⟨age, _, h⟩ := bind_ok h
  obtain ⟨life, read, h⟩ := bind_ok h
  obtain ⟨sign, _, h⟩ := bind_ok h
  obtain ⟨respawns, _, h⟩ := bind_ok h
  cases h
  obtain ⟨x, value, made⟩ := bind_ok read
  cases made
  dsimp only
  split
  · exact zero_isFinite
  · exact finiteOrZero_isFinite value

/-- What a new particle has from the dead one and its death. -/
structure Succeeds (d : Death) (body : Particle) (plan : Spawn) : Prop where
  age : plan.toDatum.getD "age" = .float 0.0
  respawns : plan.respawns = body.respawns + 1
  kept : d.setsMaxAge = false → plan.life = .float body.life
  set : d.setsMaxAge = true → ∃ y, plan.life.toFloat = .ok y ∧ isWhole y = true ∧ 1.0 ≤ y

theorem newLife_set (on : d.setsMaxAge = true) (finite : body.life.isFinite = true) {n : Number}
    (h : newLife d body s = .ok n) : ∃ y, n.toFloat = .ok y ∧ isWhole y = true ∧ 1.0 ≤ y := by
  have clamped {v : Datum}
      (h : (s.number? v >>= fun x? => (Bounds.least 1).clamp (x?.getD body.life)) = .ok n) :
      ∃ y, n.toFloat = .ok y ∧ isWhole y = true ∧ 1.0 ≤ y := by
    obtain ⟨x?, found, clamped⟩ := bind_ok h
    exact Bounds.clamp_one (Sight.number?_getD found finite) clamped
  rw [newLife, on] at h
  cases age : d.maxAge with
  | amount a =>
    rw [age] at h
    exact clamped h
  | named w =>
    rw [age] at h
    exact clamped h
  | builtin b =>
    rw [age] at h
    exact clamped h

theorem succeeds_of_life (finite : body.life.isFinite = true) {plan : Spawn}
    (respawns : plan.respawns = body.respawns + 1) (aged : newLife d body s = .ok plan.life) :
    Succeeds d body plan := by
  refine ⟨rfl, respawns, fun off => ?_, fun on => newLife_set on finite aged⟩
  rw [newLife, off] at aged
  exact (Except.ok.inj aged).symm

theorem spawnOf_succeeds (finite : body.life.isFinite = true) {plan : Spawn}
    (h : spawnOf d body s = .ok plan) : Succeeds d body plan := by
  obtain ⟨offset, _, h⟩ := bind_ok h
  obtain ⟨size, _, h⟩ := bind_ok h
  obtain ⟨speed, _, h⟩ := bind_ok h
  dsimp only at h
  split at h
  · obtain ⟨own, _, h⟩ := bind_ok h
    obtain ⟨x, _, h⟩ := bind_ok h
    obtain ⟨sign, _, h⟩ := bind_ok h
    obtain ⟨life, aged, h⟩ := bind_ok h
    cases h
    exact succeeds_of_life finite rfl aged
  · obtain ⟨sign, _, h⟩ := bind_ok h
    obtain ⟨life, aged, h⟩ := bind_ok h
    cases h
    exact succeeds_of_life finite rfl aged

theorem spawnCount_eq {n : Nat} (h : spawnCount d s = .ok n) :
    ∃ x? k, d.count.resolve? s = .ok x? ∧ truncated (x?.getD 1.0) = .ok k ∧ n = (max 0 k).toNat := by
  obtain ⟨m, resolved, h⟩ := bind_ok h
  obtain ⟨x, value, h⟩ := bind_ok h
  obtain ⟨j, whole, h⟩ := bind_ok h
  cases h
  obtain ⟨x?, found, clamped⟩ := bind_ok resolved
  obtain ⟨y, k, value', count, least⟩ :=
    Bounds.clamp_zero (Sight.number?_getD found one_isFinite) clamped
  cases value.symm.trans value'
  cases whole.symm.trans least
  exact ⟨x?, k, found, count, rfl⟩

end Particles

section Stores

variable {p q : Preview} {s s' : Session} {context : Fields Datum}

/-- A store after an action, which may leave it as it is. -/
def performed (context : Fields Datum) (a : Action) (store : Fields Datum) :
    Except Fault (Fields Datum) := (a.applied? context store).map (·.getD store)

/-- A store after some actions, each on what those before it have left. -/
def performedAll (context : Fields Datum) (actions : List Action) (store : Fields Datum) :
    Except Fault (Fields Datum) := actions.foldlM (fun store a => performed context a store) store

/-- A store with the values of variables between their bounds. -/
def boundedAll (vs : List Variable) (store : Fields Datum) : Except Fault (Fields Datum) :=
  (stored vs).foldlM (fun store v => boundOne v store) store

theorem carryOut_returned {a : Action} {u : Unit}
    (h : carryOut context a p s = ((.ok u, q), s')) :
    performed context a p.store = .ok q.store ∧ q = { p with store := q.store } ∧ s' = s := by
  obtain ⟨store?, applied, rest⟩ := lift_returned (e := a.applied? context p.store) h
  rw [performed, applied]
  cases store? with
  | none =>
    cases rest
    exact ⟨rfl, rfl, rfl⟩
  | some store =>
    cases rest
    exact ⟨rfl, rfl, rfl⟩

theorem actions_returned {actions : List Action} {u : Unit}
    (h : actions.forM (carryOut context) p s = ((.ok u, q), s')) :
    performedAll context actions p.store = .ok q.store ∧ q = { p with store := q.store } ∧
      s' = s := by
  induction actions generalizing p s with
  | nil =>
    cases h
    exact ⟨rfl, rfl, rfl⟩
  | cons a rest ih =>
    obtain ⟨_, p', s₁, first, later⟩ := seq_returned h
    obtain ⟨one, same, rfl⟩ := carryOut_returned first
    obtain ⟨others, same', rfl⟩ := ih later
    refine ⟨?_, ?_, rfl⟩
    · rw [performedAll, List.foldlM_cons, bind_of_ok one]
      exact others
    · rw [same', same]

theorem boundEach_returned {vs : List Variable} {u : Unit}
    (h : boundEach vs p s = ((.ok u, q), s')) :
    vs.foldlM (fun store v => boundOne v store) p.store = .ok q.store ∧
      q = { p with store := q.store } ∧ s' = s := by
  induction vs generalizing p with
  | nil =>
    cases h
    exact ⟨rfl, rfl, rfl⟩
  | cons v rest ih =>
    obtain ⟨store, one, h⟩ := lift_returned (e := boundOne v p.store) h
    obtain ⟨others, same, rfl⟩ := ih (p := { p with store }) h
    refine ⟨?_, ?_, rfl⟩
    · rw [List.foldlM_cons, bind_of_ok one]
      exact others
    · rw [same]

theorem applyBounds_returned {u : Unit} (h : applyBounds p s = ((.ok u, q), s')) :
    boundedAll p.vars p.store = .ok q.store ∧ q = { p with store := q.store } ∧ s' = s :=
  boundEach_returned h

end Stores

section Deaths

variable {d : Death} {body : Particle} {p q : Preview} {s s' : Session} {particle reason : Datum}
  {plans : List Spawn}

/-- The particles that a death spawns, for what is in sight after its actions. -/
structure Spawned (d : Death) (body : Particle) (sight : Sight) (plans : List Spawn) : Prop where
  count : ∃ x? k, d.count.resolve? sight = .ok x? ∧ truncated (x?.getD 1.0) = .ok k ∧
    plans.length = (max 0 k).toNat
  equal : ∀ plan ∈ plans, plans = List.replicate plans.length plan
  each : ∀ plan ∈ plans, Succeeds d body plan

theorem spawns_spawned {sight : Sight} (finite : body.life.isFinite = true)
    (h : spawns d body sight = .ok plans) : Spawned d body sight plans := by
  obtain ⟨n, counted, h⟩ := bind_ok h
  obtain ⟨x?, k, resolved, truncated, rfl⟩ := spawnCount_eq counted
  split at h
  · next none =>
    cases h
    exact ⟨⟨x?, k, resolved, truncated, (beq_iff_eq.mp none).symm⟩, List.forall_mem_nil _,
      List.forall_mem_nil _⟩
  · obtain ⟨plan, made, h⟩ := bind_ok h
    cases h
    refine ⟨⟨x?, k, resolved, truncated, List.length_replicate⟩, fun other mem => ?_,
      fun other mem => ?_⟩
    · rw [List.eq_of_mem_replicate mem, List.length_replicate]
    · rw [List.eq_of_mem_replicate mem]
      exact spawnOf_succeeds finite made

/-- What a death does whose condition holds. -/
structure Died (d : Death) (body : Particle) (reason : Datum) (p : Preview) (plans : List Spawn)
    (q : Preview) : Prop where
  store : ∃ acted, performedAll (deathContext body p.tick reason) d.actions p.store = .ok acted ∧
    boundedAll p.vars acted = .ok q.store
  dissipated : d.respawns = false → plans = []
  respawned : d.respawns = true →
    Spawned d body { context := deathContext body p.tick reason, vars := q.store } plans

theorem died_of_returned (finite : body.life.isFinite = true)
    (h : (do
      d.actions.forM (carryOut (deathContext body p.tick reason))
      applyBounds
      if !d.respawns then return []
      lift (spawns d body { context := deathContext body p.tick reason, vars := (← get).store }) :
      Staged (List Spawn)) p s = ((.ok plans, q), s')) :
    q = { p with store := q.store } ∧ Died d body reason p plans q := by
  obtain ⟨_, r, s₁, performed, later⟩ := seq_returned h
  obtain ⟨_, r', s₂, bounded, last⟩ := seq_returned later
  obtain ⟨acted, same, rfl⟩ := actions_returned performed
  obtain ⟨within, same', rfl⟩ := applyBounds_returned bounded
  have vars : r.vars = p.vars := by rw [same, Preview.vars, Preview.vars]
  rw [vars] at within
  rw [same] at same'
  cases respawns : d.respawns with
  | false =>
    rw [respawns] at last
    cases last
    refine ⟨same', ⟨r.store, acted, within⟩, fun _ => rfl, fun on => ?_⟩
    rw [respawns] at on
    cases on
  | true =>
    rw [respawns] at last
    obtain ⟨_, _, _, ⟨⟩, last⟩ := seq_returned last
    cases made : spawns d body { context := deathContext body p.tick reason, vars := r'.store } with
    | error fault =>
      rw [made] at last
      cases last
    | ok plans' =>
      rw [made] at last
      cases last
      refine ⟨same', ⟨r.store, acted, within⟩, fun off => ?_, fun _ => spawns_spawned finite made⟩
      rw [respawns] at off
      cases off

/-- A death that returns changes the store alone. It changes nothing and spawns nothing where it is not
enabled or its condition does not hold, and otherwise does what its actions, the bounds and its mode say. -/
theorem runDeath_returned (returned : runDeath particle reason p s = ((.ok plans, q), s')) :
    q = { p with store := q.store } ∧
    ((∀ d, p.behavior.map (·.death) = some d → d.enabled = false) → plans = [] ∧ q = p) ∧
    ∀ d, p.behavior.map (·.death) = some d → d.enabled = true →
      ∃ body holds, Particle.ofDatum particle = .ok body ∧
        (d.condition.holds { context := deathContext body p.tick reason, vars := p.store } s).1 =
          .ok holds ∧
        (holds = false → plans = [] ∧ q = p) ∧ (holds = true → Died d body reason p plans q) := by
  obtain ⟨_, _, _, ⟨⟩, h⟩ := seq_returned returned
  cases found : p.behavior.map (·.death) with
  | none =>
    rw [found] at h
    cases h
    exact ⟨rfl, fun _ => ⟨rfl, rfl⟩, (by rintro d ⟨⟩)⟩
  | some d =>
    rw [found] at h
    cases enabled : d.enabled with
    | false =>
      simp only [enabled, Bool.not_false, if_true] at h
      cases h
      refine ⟨rfl, fun _ => ⟨rfl, rfl⟩, fun e same on => ?_⟩
      cases same
      rw [enabled] at on
      cases on
    | true =>
      have idle (off : ∀ e, some d = some e → e.enabled = false) : plans = [] ∧ q = p := by
        rw [off d rfl] at enabled
        cases enabled
      simp only [enabled, Bool.not_true, Bool.false_eq_true, if_false] at h
      obtain ⟨body, read, h⟩ := lift_returned h
      obtain ⟨_, _, _, ⟨⟩, h⟩ := seq_returned h
      obtain ⟨_, _, _, ⟨⟩, h⟩ := seq_returned h
      obtain ⟨holds, s₁, decided, h⟩ := live_returned h
      cases holds with
      | false =>
        cases h
        refine ⟨rfl, idle, fun e same _ => ?_⟩
        cases same
        exact ⟨body, false, read, by rw [decided], fun _ => ⟨rfl, rfl⟩, (by rintro ⟨⟩)⟩
      | true =>
        obtain ⟨frame, died⟩ := died_of_returned (particle_life_isFinite read) h
        refine ⟨frame, idle, fun e same _ => ?_⟩
        cases same
        exact ⟨body, true, read, by rw [decided], (by rintro ⟨⟩), fun _ => died⟩

/-- A death that counts up a variable and spawns as many particles as this comes to. -/
def doubling : Datum := .object [
  ("emitterVars", .list [.object [("name", .text "n"), ("type", .text "int"), ("defaultValue", .int 1)]]),
  ("death", .object [("enabled", .bool true), ("mode", .text "respawn"), ("respawnCount", .text "n"),
    ("maxAgeEnabled", .bool true), ("maxAgeValueType", .text "age"),
    ("varActions", .list [.object [("varName", .text "n"), ("op", .text "inc")]])])]

def doubled : Preview := ((Call.adopt doubling).run {} {}).1.2

def aged : Datum := .object [("age", .float 5.5), ("life", .int 30), ("respawnCount", .int 1)]

theorem doubled_course :
    doubled.behavior.any (fun b => b.death.enabled && b.death.respawns && b.death.setsMaxAge) = true ∧
    (runDeath aged (.text "AGE") doubled {}).1.1.toOption.map List.length = some 2 := by
  decide +kernel

theorem runDeath_returned_doubled : ∃ plans q s',
    runDeath aged (.text "AGE") doubled {} = ((.ok plans, q), s') ∧ q.tick = doubled.tick ∧
      plans.length = 2 ∧ (∀ plan ∈ plans, plans = List.replicate plans.length plan) ∧
        ∀ plan ∈ plans, ∃ y, plan.life.toFloat = .ok y ∧ isWhole y = true ∧ 1.0 ≤ y := by
  obtain ⟨enabled, two⟩ := doubled_course
  obtain ⟨b, adopted, on⟩ := (Option.any_eq_true _ _).mp enabled
  rw [Bool.and_eq_true, Bool.and_eq_true] at on
  obtain ⟨⟨enabled, respawns⟩, sets⟩ := on
  have death : doubled.behavior.map (·.death) = some b.death := by
    rw [adopted]
    rfl
  obtain ⟨plans, returned, length⟩ := Option.map_eq_some_iff.mp two
  rcases ran : runDeath aged (.text "AGE") doubled {} with ⟨⟨result, q⟩, s'⟩
  rw [ran] at returned
  cases ok_of_toOption returned
  obtain ⟨frame, _, active⟩ := runDeath_returned ran
  obtain ⟨body, holds, _, _, idle, died⟩ := active b.death death enabled
  cases holds with
  | false =>
    rw [(idle rfl).1] at length
    cases length
  | true =>
    have spawned := (died rfl).respawned respawns
    refine ⟨plans, q, s', rfl, ?_, length, spawned.equal, fun plan mem =>
      (spawned.each plan mem).set sets⟩
    rw [frame]

end Deaths

end Preview

end EmitterLogic
