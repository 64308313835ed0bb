import EmitterLogic.Preview.Basic
import EmitterLogic.Proofs.Fault
import EmitterLogic.Proofs.Preview.Bounds
import EmitterLogic.Proofs.Tick.StoreChange
import EmitterLogic.Preview.Death

namespace EmitterLogic.Staged

variable {α β : Type} {P P' Q Q' E I M : Preview → Prop}

def Leads (P : Preview → Prop) (x : Staged α) (Q E : Preview → Prop) : Prop :=
  ∀ p s, P p → match (x p s).1 with
    | (.ok _, q) => Q q
    | (.error _, q) => E q

section Runs

variable {x : Staged α} {f : α → Staged β} {p q : Preview} {s s' : Session}

theorem seq_ok {a : α} (h : x p s = ((.ok a, q), s')) : (x >>= f) p s = f a q s' := by
  simp only [bind, ExceptT.bind, ExceptT.mk, StateT.bind, h]
  rfl

theorem seq_error {e : Fault} (h : x p s = ((.error e, q), s')) :
    (x >>= f) p s = ((.error e, q), s') := by
  simp only [bind, ExceptT.bind, ExceptT.mk, StateT.bind, h]
  rfl

theorem seq_congr {x' : Staged α} (h : x p s = x' p s) : (x >>= f) p s = (x' >>= f) p s := by
  simp only [bind, ExceptT.bind, ExceptT.mk, StateT.bind, h]

theorem live_run (x : Live α) (p : Preview) (s : Session) :
    live x p s = (((x.run s).1, p), (x.run s).2) := rfl

end Runs

namespace Leads

theorem of_ok {x : Staged α} (h : Leads P x Q E) {p q : Preview} {s s' : Session} {a : α}
    (run : x p s = ((.ok a, q), s')) (hp : P p) : Q q := by
  have after := h p s hp
  rw [run] at after
  exact after

theorem of_error {x : Staged α} (h : Leads P x Q E) {p q : Preview} {s s' : Session} {f : Fault}
    (run : x p s = ((.error f, q), s')) (hp : P p) : E q := by
  have after := h p s hp
  rw [run] at after
  exact after

theorem weaken {x : Staged α} (h : Leads P x Q E) (before : ∀ p, P' p → P p)
    (after : ∀ p, Q p → Q' p) : Leads P' x Q' E := by
  intro p s hp
  have reached := h p s (before p hp)
  rcases run : (x p s).1 with ⟨result, q⟩
  rw [run] at reached
  cases result with
  | ok a => exact after q reached
  | error f => exact reached

theorem here {x : Staged α} (h : Leads P x Q E) {p : Preview} (hp : P p) :
    Leads (· = p) x Q E := by
  intro q s e
  subst e
  exact h q s hp

theorem value {a : α} (h : ∀ p, P p → Q p) : Leads P (pure a) Q E := fun p _ hp => h p hp

theorem refuse {f : Fault} (h : ∀ p, P p → E p) : Leads P (throw f : Staged α) Q E :=
  fun p _ hp => h p hp

theorem lift {e : Except Fault α} (hE : ∀ p, P p → E p) : Leads P (Staged.lift e) P E := by
  cases e with
  | ok a => exact value fun _ hp => hp
  | error f => exact refuse hE

theorem change {f : Preview → Preview} (h : ∀ p, P p → Q (f p)) : Leads P (modify f) Q E :=
  fun p _ hp => h p hp

theorem look {f : Preview → Staged α} (h : ∀ p, P p → Leads (· = p) (f p) Q E) :
    Leads P (get >>= f) Q E :=
  fun p s hp => h p hp p s rfl

theorem seq {x : Staged α} {f : α → Staged β} (hx : Leads P x M E)
    (hf : ∀ a, Leads M (f a) Q E) : Leads P (x >>= f) Q E := by
  intro p s hp
  have before := hx p s hp
  rcases run : x p s with ⟨⟨result, q⟩, s'⟩
  rw [run] at before
  cases result with
  | ok a =>
    rw [seq_ok run]
    exact hf a q s' before
  | error f =>
    rw [seq_error run]
    exact before

theorem discarded {x : Staged α} (h : Leads P x Q E) : Leads P (discard x) Q E :=
  seq h fun _ => value fun _ hp => hp

theorem lifted {e : Except Fault α} {f : α → Staged β} (hE : ∀ p, P p → E p)
    (hf : ∀ a, e = .ok a → Leads P (f a) Q E) : Leads P (Staged.lift e >>= f) Q E := by
  cases e with
  | ok a => exact hf a rfl
  | error f => exact fun p _ hp => hE p hp

theorem lived {x : Live α} {f : α → Staged β} (hE : ∀ p, P p → E p)
    (hf : ∀ a s, (x.run s).1 = .ok a → Leads P (f a) Q E) :
    Leads P (Staged.live x >>= f) Q E := by
  intro p s hp
  have run := live_run x p s
  cases found : (x.run s).1 with
  | ok a =>
    rw [found] at run
    rw [seq_ok run]
    exact hf a s found p (x.run s).2 hp
  | error e =>
    rw [found] at run
    rw [seq_error run]
    exact hE p hp

theorem each {l : List α} {f : α → Staged Unit} (h : ∀ a ∈ l, Leads I (f a) I E) :
    Leads I (l.forM f) I E := by
  induction l with
  | nil => exact value fun _ hp => hp
  | cons a l ih =>
    have step : (a :: l).forM f = f a >>= fun _ => l.forM f := rfl
    rw [step]
    exact (h a List.mem_cons_self).seq fun _ => ih fun b hb => h b (List.mem_cons_of_mem a hb)

end Leads

end EmitterLogic.Staged

namespace EmitterLogic

namespace Preview

open Staged

/-- The declarations are sound, the signature is theirs, and the store has a number for each of
their names and for nothing else. -/
structure Sound (p : Preview) : Prop where
  vars : ∀ v ∈ p.vars, v.Sound
  floats : Floats p.store
  signature : p.signature = (p.behavior.map fun b => signatureOf b.vars).getD ""
  keys : ∀ key, p.store.has key = true ↔ key ∈ (stored p.vars).map (·.name)

structure Settled (p : Preview) : Prop extends Sound p where
  holds : ∀ v : Variable, v.LastIn p.vars → v.name ≠ "" → Holds p.store v

theorem sound_fresh (draws : Draws) : Sound { draws } where
  vars := nofun
  floats := floats_nil
  signature := rfl
  keys _ := ⟨nofun, nofun⟩

theorem Sound.settled_of_none {p : Preview} (h : p.Sound) (none : p.behavior = none) :
    p.Settled where
  toSound := h
  holds v last := by
    obtain ⟨l, l', split, _⟩ := last
    rw [Preview.vars, none] at split
    exact absurd split (by simp)

theorem Sound.values {p q : Preview} (h : p.Sound) (behavior : q.behavior = p.behavior)
    (signature : q.signature = p.signature) (floats : Floats q.store)
    (has : ∀ key, q.store.has key = p.store.has key) : q.Sound := by
  have vars : q.vars = p.vars := by rw [Preview.vars, Preview.vars, behavior]
  refine ⟨?_, floats, ?_, fun key => ?_⟩
  · rw [vars]
    exact h.vars
  · rw [signature, behavior]
    exact h.signature
  · rw [has, vars]
    exact h.keys key

theorem applyBounds_ok {p : Preview} (h : p.Sound) (s : Session) :
    ∃ store, applyBounds p s = ((.ok (), { p with store }), s) ∧ Settled { p with store } := by
  have sound : ∀ v ∈ stored p.vars, v.Sound := fun v hv => h.vars v (mem_stored.mp hv).1
  obtain ⟨store, run, bounded⟩ := boundEach_ok sound h.floats s
  refine ⟨store, run, h.values rfl rfl bounded.floats bounded.has, fun v last named => ?_⟩
  have present : p.store.has v.name = true :=
    (h.keys v.name).mpr (mem_names_stored.mpr ⟨named, List.mem_map_of_mem last.mem⟩)
  exact bounded.holds v (lastIn_stored last named) present

structure Having (C : Option Behavior → Option Tick.Compiled → Prop) (p : Preview) : Prop where
  sound : p.Sound
  script : C p.behavior p.compiled

section Steps

variable {C : Option Behavior → Option Tick.Compiled → Prop}

theorem applyBounds_having {E : Preview → Prop} :
    Leads (Having C) applyBounds (fun p => Having C p ∧ p.Settled) E := by
  intro p s h
  obtain ⟨store, run, settled⟩ := applyBounds_ok h.sound s
  rw [run]
  exact ⟨⟨settled.toSound, h.script⟩, settled⟩

theorem applied_keeps {a : Action} {context store store' : Fields Datum} (floats : Floats store)
    (h : a.applied? context store = .ok (some store')) :
    Floats store' ∧ ∀ key, store'.has key = store.has key := by
  rw [Action.applied?] at h
  split at h
  · cases h
  · cases found : store.get? a.varName with
    | none =>
      rw [found] at h
      cases h
    | some d =>
      rw [found] at h
      obtain ⟨x, _, h⟩ := bind_ok h
      obtain ⟨value, _, h⟩ := bind_ok h
      cases h
      have present : store.has a.varName = true := Fields.has_iff_get?.mpr ⟨d, found⟩
      exact ⟨floats_put floats _ _, has_put_of_has present _⟩

theorem carryOut_having (context : Fields Datum) (a : Action) :
    Leads (Having C) (carryOut context a) (Having C) (Having C) := by
  refine .look fun p h => .lifted (fun q e => e ▸ h) fun result applied => ?_
  cases result with
  | none => exact .value fun q e => e ▸ h
  | some store =>
    obtain ⟨floats, has⟩ := applied_keeps h.sound.floats applied
    refine .change fun q e => ?_
    subst e
    exact ⟨h.sound.values rfl rfl floats has, h.script⟩

theorem carryOutAtTick_having (context : Fields Datum) (t : TickAction) :
    Leads (Having C) (carryOutAtTick context t) (Having C) (Having C) := by
  refine .look fun p h => ?_
  refine .lived (fun q e => e ▸ h) fun holds _ _ => ?_
  split
  · exact (carryOut_having context t.action).here h
  · exact .value fun q e => e ▸ h

theorem floats_changed {store store' : Fields Datum} (floats : Floats store)
    (h : Tick.Store.Changed store store') : Floats store' := by
  intro key d found
  rcases h.value key with same | ⟨_, x, _, new⟩
  · exact floats key d (same.symm.trans found)
  · exact ⟨x, Option.some.inj (found.symm.trans new)⟩

theorem has_changed {store store' : Fields Datum} (h : Tick.Store.Changed store store')
    (key : String) : store'.has key = store.has key := by
  rw [Bool.eq_iff_iff, Fields.has_iff_mem, Fields.has_iff_mem, h.keys]

theorem runScript_having : Leads (Having C) runScript (Having C) (Having C) := by
  refine .look fun p h => ?_
  cases p.compiled with
  | none => exact .value fun q e => e ▸ h
  | some script =>
    refine .lived (fun q e => e ▸ h) fun outcome s ran => ?_
    have changed : Tick.Store.Changed p.store outcome.store := by
      cases ran
      exact script.run_changed p.store (.int p.tick) p.draws none s
    refine .seq (M := Having C) (.change fun q e => ?_) fun _ => ?_
    · subst e
      exact ⟨h.sound.values rfl rfl (floats_changed h.sound.floats changed) (has_changed changed),
        h.script⟩
    · exact .lifted (fun _ h => h) fun _ _ => .value fun _ h => h

theorem runTick_having :
    Leads (Having C) runTick (fun p => Having C p ∧ p.Settled) (Having C) := by
  refine .seq (M := Having C) (.change fun p h => ?_) fun _ => .look fun p h => ?_
  · exact ⟨h.sound.values rfl rfl h.sound.floats fun _ => rfl, h.script⟩
  cases none : p.behavior with
  | none =>
    refine .value fun q e => ?_
    subst e
    exact ⟨h, h.sound.settled_of_none none⟩
  | some b =>
    dsimp only
    split
    · exact ((Leads.each fun t _ => carryOutAtTick_having _ t).here h).seq fun _ =>
        applyBounds_having
    · exact (runScript_having.here h).seq fun _ => applyBounds_having

theorem runDeath_keeps {P : Preview → Prop} (having : ∀ p, P p → Having C p)
    (settled : ∀ p, Having C p → p.Settled → P p) (particle reason : Datum) :
    Leads P (runDeath particle reason) P (Having C) := by
  refine .look fun p h => Leads.here ?_ h
  cases p.behavior.map (·.death) with
  | none => exact .value fun _ h => h
  | some d =>
    dsimp only
    split
    · exact .value fun _ h => h
    refine .lifted having fun body _ => .look fun p h => .look fun q e => ?_
    subst e
    refine .lived (fun _ e => e ▸ having q h) fun holds _ _ => Leads.here ?_ h
    split
    · exact .value fun _ h => h
    have actions : Leads P (d.actions.forM (carryOut (deathContext body q.tick reason))) (Having C)
        (Having C) :=
      (Leads.each fun a _ => carryOut_having _ a).weaken having fun _ h => h
    refine actions.seq fun _ => (applyBounds_having).seq fun _ => ?_
    split
    · exact .value fun r h => settled r h.1 h.2
    · exact .look fun r h => (Leads.lift fun _ h => having _ h).here (settled r h.1 h.2)

end Steps

end Preview

end EmitterLogic
