import EmitterLogic.Proofs.Preview.Invariant
import EmitterLogic.Proofs.Preview.Signature

/-!
The adoption of a document. It keeps a preview sound, even where it faults, and decides whether the
script is compiled.
-/

namespace EmitterLogic

theorem Behavior.variablesOf_sound {d : Datum} {vs : List Variable}
    (h : Behavior.variablesOf d = .ok vs) : ∀ v ∈ vs, v.Sound := by
  cases d with
  | list items => exact forall_of_mapM_ok (fun _ _ => Variable.ofDatum_sound) h
  | _ =>
    cases h
    exact nofun

theorem Behavior.ofDatum_sound {d : Datum} {b : Behavior} (h : Behavior.ofDatum d = .ok b) :
    ∀ v ∈ b.vars, v.Sound := by
  rw [Behavior.ofDatum] at h
  split at h
  · obtain ⟨vs, read, h⟩ := bind_ok h
    obtain ⟨actions, _, h⟩ := bind_ok h
    obtain ⟨death, _, h⟩ := bind_ok h
    cases h
    exact Behavior.variablesOf_sound read
  · obtain ⟨death, _, h⟩ := bind_ok h
    cases h
    exact nofun

namespace Preview

open Staged

theorem startingValues_names {vs : List Variable} {values : Fields Datum}
    (h : startingValues vs = .ok values) : values.keys = (stored vs).map (·.name) := by
  rw [startingValues] at h
  generalize stored vs = ws at h ⊢
  induction ws generalizing values with
  | nil =>
    cases h
    rfl
  | cons v ws ih =>
    obtain ⟨value, values', first, rest, rfl⟩ := mapM_cons_ok h
    obtain ⟨x, _, first⟩ := bind_ok first
    cases first
    exact congrArg (v.name :: ·) (ih rest)

theorem startingValues_floats {vs : List Variable} {values : Fields Datum}
    (h : startingValues vs = .ok values) : ∀ value ∈ values, ∃ x, value.2 = .float x := by
  refine forall_of_mapM_ok (fun v value given => ?_) h
  obtain ⟨x, _, given⟩ := bind_ok given
  cases given
  exact ⟨x, rfl⟩

theorem floats_freshStore {values : Fields Datum} (h : ∀ value ∈ values, ∃ x, value.2 = .float x) :
    Floats (freshStore values) := by
  suffices general : ∀ store, Floats store → Floats (store.merge values) from general [] floats_nil
  induction values with
  | nil => exact fun _ floats => floats
  | cons value values ih =>
    intro store floats
    obtain ⟨x, number⟩ := h value List.mem_cons_self
    refine ih (fun v hv => h v (List.mem_cons_of_mem value hv)) (store.put value.1 value.2) ?_
    rw [number]
    exact floats_put floats value.1 x

theorem has_completed (store values : Fields Datum) (key : String) :
    (completed store values).has key = (store.has key || values.has key) := by
  induction values generalizing store with
  | nil => exact (Bool.or_false _).symm
  | cons value values ih =>
    have step : completed store (value :: values) =
        completed (if store.has value.1 then store else store.put value.1 value.2) values := rfl
    rw [step, ih, Fields.has_cons]
    split
    · next present =>
      by_cases here : value.1 = key
      · subst here
        simp [present]
      · rw [beq_eq_false_iff_ne.mpr here, Bool.false_or]
    · rw [Fields.has_put, Bool.or_assoc, Bool.or_left_comm]

theorem floats_completed {store values : Fields Datum} (floats : Floats store)
    (h : ∀ value ∈ values, ∃ x, value.2 = .float x) : Floats (completed store values) := by
  induction values generalizing store with
  | nil => exact floats
  | cons value values ih =>
    have rest := fun v hv => h v (List.mem_cons_of_mem value hv)
    have step : completed store (value :: values) =
        completed (if store.has value.1 then store else store.put value.1 value.2) values := rfl
    rw [step]
    split
    · exact ih floats rest
    · obtain ⟨x, number⟩ := h value List.mem_cons_self
      rw [number]
      exact ih (floats_put floats value.1 x) rest

theorem Sound.keys_of_signature {p : Preview} (h : p.Sound) {vs : List Variable}
    (same : signatureOf vs = p.signature) (key : String) :
    p.store.has key = true ↔ key ∈ (stored vs).map (·.name) := by
  rw [h.signature] at same
  cases before : p.behavior with
  | none =>
    rw [before] at same
    exact absurd same (signatureOf_ne_empty vs)
  | some b =>
    rw [before] at same
    have vars : p.vars = b.vars := by rw [Preview.vars, before]; rfl
    rw [signatureOf_names same, h.keys key, vars]

/-- The store of a behavior that is adopted. -/
def adoptedStore (p : Preview) (vs : List Variable) (values : Fields Datum) : Fields Datum :=
  if signatureOf vs == p.signature then completed p.store values else freshStore values

theorem floats_adoptedStore {p : Preview} (h : p.Sound) {vs : List Variable} {values : Fields Datum}
    (starting : startingValues vs = .ok values) : Floats (adoptedStore p vs values) := by
  rw [adoptedStore]
  split
  · exact floats_completed h.floats (startingValues_floats starting)
  · exact floats_freshStore (startingValues_floats starting)

theorem has_adoptedStore {p : Preview} (h : p.Sound) {vs : List Variable} {values : Fields Datum}
    (starting : startingValues vs = .ok values) (key : String) :
    (adoptedStore p vs values).has key = true ↔ key ∈ (stored vs).map (·.name) := by
  have names : values.has key = true ↔ key ∈ (stored vs).map (·.name) := by
    rw [Fields.has_iff_mem, startingValues_names starting]
  rw [adoptedStore]
  split
  · next same =>
    rw [has_completed, Bool.or_eq_true, h.keys_of_signature (beq_iff_eq.mp same), names, or_self]
  · rw [freshStore, Fields.has_merge, Fields.has_nil, Bool.false_or, names]

theorem sound_adopted {p : Preview} (h : p.Sound) {b : Behavior} (vars : ∀ v ∈ b.vars, v.Sound)
    {values : Fields Datum} (starting : startingValues b.vars = .ok values) :
    Sound { p with
      signature := signatureOf b.vars
      store := adoptedStore p b.vars values
      behavior := some b } where
  vars := vars
  floats := floats_adoptedStore h starting
  signature := rfl
  keys := has_adoptedStore h starting

def recompiled (c : Option Tick.Compiled) (b : Behavior) : Except Fault (Option Tick.Compiled) :=
  if c.map (·.source) != some b.script then compiledScript b else .ok c

theorem recompile_having (c : Option Tick.Compiled) (b : Behavior) :
    Leads (Having fun b' c' => b' = some b ∧ c' = c) (recompile b)
      (Having fun b' c' => b' = some b ∧ recompiled c b = .ok c') (Having fun _ c' => c' = c) := by
  have fault {p : Preview} (h : Having (fun b' c' => b' = some b ∧ c' = c) p) :
      Having (fun _ c' => c' = c) p := ⟨h.sound, h.script.2⟩
  refine .look fun p h => Leads.here ?_ h
  rw [h.script.2]
  split
  · next stale =>
    refine .lifted (fun _ h => fault h) fun compiled found => .change fun q hq => ?_
    have new : recompiled c b = .ok compiled := by rw [recompiled, if_pos stale, found]
    exact ⟨hq.sound.values rfl rfl hq.sound.floats fun _ => rfl, hq.script.1, new⟩
  · next kept =>
    refine .value fun q hq => ⟨hq.sound, hq.script.1, ?_⟩
    rw [recompiled, if_neg kept, hq.script.2]

theorem adopt_having (c : Option Tick.Compiled) (document : Datum) :
    Leads (Having fun _ c' => c' = c) (adopt document)
      (fun p => p.Settled ∧ ∃ b, Behavior.ofDatum document = .ok b ∧
        p.behavior = some b ∧ recompiled c b = .ok p.compiled)
      (Having fun _ c' => c' = c) := by
  refine .lifted (fun _ h => h) fun b read => .lifted (fun _ h => h) fun values starting => ?_
  refine .seq (M := Having fun b' c' => b' = some b ∧ c' = c) (.change fun p h => ?_) fun _ => ?_
  · exact ⟨sound_adopted h.sound (Behavior.ofDatum_sound read) starting, rfl, h.script⟩
  · refine (recompile_having c b).seq fun _ => ?_
    exact applyBounds_having.weaken (fun _ h => h) fun p h => ⟨h.2, b, read, h.1.script⟩

end Preview

end EmitterLogic

namespace EmitterLogic.Preview

open Staged

inductive Call where
  | adopt (document : Datum)
  | tick
  | death (particle reason : Datum)

namespace Call

def run : Call → Staged Unit
  | adopt document => Preview.adopt document
  | tick => runTick
  | death particle reason => discard (runDeath particle reason)

/-- The behaviors that have been adopted, the latest first. -/
def history (call : Call) (bs : List Behavior) : List Behavior :=
  match call with
  | adopt document =>
    match Behavior.ofDatum document with
    | .ok b => b :: bs
    | .error _ => bs
  | tick => bs
  | death _ _ => bs

end Call

/-- Previews that calls lead to, in any sessions, with the behaviors that have been adopted. Where
`faults` holds, some of the calls may fault. -/
inductive Reached (faults : Prop) : List Behavior → Preview → Prop where
  | fresh (draws : Draws) : Reached faults [] { draws }
  | returned {bs : List Behavior} {p q : Preview} {s s' : Session} (call : Call) :
      Reached faults bs p → call.run p s = ((.ok (), q), s') → Reached faults (call.history bs) q
  | faulted {bs : List Behavior} {p q : Preview} {s s' : Session} {f : Fault} (call : Call) :
      faults → Reached faults bs p → call.run p s = ((.error f, q), s') → Reached faults bs q

theorem Reached.next {faults : Prop} {bs : List Behavior} {p : Preview} (h : Reached faults bs p)
    (call : Call) (s : Session) (returns : (call.run p s).1.1.isOk = true) :
    Reached faults (call.history bs) (call.run p s).1.2 := by
  rcases ran : call.run p s with ⟨⟨result, q⟩, s'⟩
  rw [ran] at returns
  cases result with
  | ok u => exact .returned call h ran
  | error f => cases returns

theorem Reached.settled {bs : List Behavior} {p : Preview} (h : Reached False bs p) :
    p.Settled ∧ p.behavior = bs.head? := by
  induction h with
  | fresh draws => exact ⟨(sound_fresh draws).settled_of_none rfl, rfl⟩
  | @returned bs p q s s' call _ ran ih =>
    obtain ⟨settled, adopted⟩ := ih
    cases call with
    | adopt document =>
      obtain ⟨settled', b, read, new, _⟩ :=
        (adopt_having p.compiled document).of_ok ran ⟨settled.toSound, rfl⟩
      refine ⟨settled', ?_⟩
      rw [Call.history, read]
      exact new
    | tick =>
      obtain ⟨having, settled'⟩ := (runTick_having (C := fun b _ => b = bs.head?)).of_ok ran
        ⟨settled.toSound, adopted⟩
      exact ⟨settled', having.script⟩
    | death particle reason =>
      have kept := (runDeath_keeps (P := fun p => Having (fun b _ => b = bs.head?) p ∧ p.Settled)
        (fun _ h => h.1) (fun _ having settled => ⟨having, settled⟩) particle reason).discarded
      obtain ⟨having, settled'⟩ := kept.of_ok ran ⟨⟨settled.toSound, adopted⟩, settled⟩
      exact ⟨settled', having.script⟩
  | faulted _ never => exact never.elim

theorem reached_store {bs : List Behavior} {p : Preview} (h : Reached False bs p) :
    p.behavior = bs.head? ∧
    (∀ key, key ∈ p.store.keys ↔ key ≠ "" ∧ key ∈ p.vars.map (·.name)) ∧
    (∀ key d, p.store.get? key = some d → ∃ x : Float, d = .float x ∧ x.isFinite = true) ∧
    ∀ v : Variable, v.LastIn p.vars → v.name ≠ "" →
      ∃ x : Float, p.store.get? v.name = some (.float x) ∧ (v.hasMin = true → v.minValue ≤ x) ∧
        (v.hasMax = true → x ≤ v.maxValue) ∧ (v.isInt = true → isWhole x = true) := by
  obtain ⟨settled, adopted⟩ := h.settled
  have keys (key : String) : key ∈ p.store.keys ↔ key ≠ "" ∧ key ∈ p.vars.map (·.name) := by
    rw [← Fields.has_iff_mem, settled.keys, mem_names_stored]
  refine ⟨adopted, keys, ?_, ?_⟩
  · intro key d found
    have present : p.store.has key = true := Fields.has_iff_get?.mpr ⟨d, found⟩
    obtain ⟨named, declared⟩ := (keys key).mp (Fields.has_iff_mem.mp present)
    obtain ⟨v, last, rfl⟩ := Variable.exists_lastIn declared
    obtain ⟨x, value, admits⟩ := settled.holds v last named
    exact ⟨x, Option.some.inj (found.symm.trans value), admits.finite⟩
  · intro v last named
    obtain ⟨x, value, admits⟩ := settled.holds v last named
    exact ⟨x, value, admits.low, admits.high, admits.whole⟩

/-- An integer that an action takes beyond its greatest value. -/
def counting : Datum := .object [
  ("emitterVars", .list [.object [
    ("name", .text "n"), ("type", .text "int"), ("maxEnabled", .bool true), ("maxValue", .int 2)]]),
  ("tickActions", .list [.object [("varName", .text "n"), ("op", .text "add"), ("value", .int 5)]])]

def counted : Preview := (Call.tick.run ((Call.adopt counting).run {} {}).1.2 {}).1.2

theorem counted_course :
    ((Call.adopt counting).run {} {}).1.1.isOk = true ∧
    (Call.tick.run ((Call.adopt counting).run {} {}).1.2 {}).1.1.isOk = true ∧
    counted.vars.all (fun v =>
      v.isInt && v.hasMax && v.maxValue.isFinite && decide (v.maxValue ≤ 2.0)) = true ∧
    "n" ∈ counted.vars.map (·.name) := by
  decide +kernel

theorem counted_vars {v : Variable} (hv : v ∈ counted.vars) :
    v.isInt = true ∧ v.hasMax = true ∧ v.maxValue.isFinite = true ∧ v.maxValue ≤ 2.0 := by
  have one := List.all_eq_true.mp counted_course.2.2.1 v hv
  simp only [Bool.and_eq_true, decide_eq_true_eq] at one
  obtain ⟨⟨⟨int, hasMax⟩, finite⟩, least⟩ := one
  exact ⟨int, hasMax, finite, least⟩

theorem reached_store_counted :
    (∃ bs, Reached False bs counted) ∧ "n" ∈ counted.store.keys ∧
      ∃ x : Float, counted.store.get? "n" = some (.float x) ∧ x.isFinite = true ∧ x ≤ 2.0 ∧
        isWhole x = true := by
  obtain ⟨adopts, ticks, _, declared⟩ := counted_course
  have start : Reached False [] {} := .fresh {}
  have reached : Reached False _ counted :=
    (start.next (.adopt counting) {} adopts).next .tick {} ticks
  obtain ⟨_, keys, finite, bounds⟩ := reached_store reached
  obtain ⟨v, last, named⟩ := Variable.exists_lastIn declared
  obtain ⟨x, value, _, high, whole⟩ := bounds v last (by rw [named]; decide)
  obtain ⟨int, hasMax, finite', least⟩ := counted_vars last.mem
  obtain ⟨_, same, finiteX⟩ := finite v.name _ value
  cases same
  rw [named] at value
  have below : x ≤ 2.0 := Binary64.le_trans finiteX finite' (by decide) (high hasMax) least
  exact ⟨⟨_, reached⟩, (keys "n").mpr ⟨by decide, declared⟩, x, value, finiteX, below, whole int⟩

end EmitterLogic.Preview
