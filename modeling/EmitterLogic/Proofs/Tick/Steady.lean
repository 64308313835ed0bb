import EmitterLogic.Proofs.Script.Returned
import EmitterLogic.Tick.Host

namespace EmitterLogic.Tick

open Script

namespace Call

theorem unclocked_nameOf (v : Value) : Unclocked (nameOf v) := by
  rw [nameOf]
  split
  · exact .value _
  · refine .look (fun m k => by rw [textOf_clocked]) fun m => ?_
    cases m.textOf v with
    | ok s => exact .value _
    | error e => exact .raise _

theorem unclocked_number (v default : Value) : Unclocked (number v default) := .orRefuse _

theorem unclocked_read (name default : Value) : Unclocked (read name default) :=
  (unclocked_nameOf name).seq fun _ => .look (fun _ _ => rfl) fun _ => .orRefuse _

theorem unclocked_write (name x : Value) : Unclocked (write name x) := by
  refine (unclocked_nameOf name).seq fun _ => .look (fun _ _ => rfl) fun m => ?_
  refine (Unclocked.orRefuse _).seq fun stored => ?_
  exact (Unclocked.stored fun _ _ => rfl).seq fun _ => .value _

theorem unclocked_change (name v : Value) (f : Float → Float → Float) :
    Unclocked (change name v f) := by
  refine (unclocked_read name zero).seq fun old => ?_
  exact (unclocked_number v zero).seq fun x => unclocked_write name _

theorem unclocked_draw : Unclocked draw := fun _ _ => rfl

end Call

open Call

theorem unclocked_clamped (v lo hi : Value) : Unclocked (clamped v lo hi) := by
  refine (unclocked_number v zero).seq fun x => ?_
  refine (unclocked_number lo (.float x)).seq fun low => ?_
  exact (unclocked_number hi (.float x)).seq fun high => .value _

theorem unclocked_randomBounds (lo hi : Value) : Unclocked (randomBounds lo hi) :=
  (unclocked_number _ zero).seq fun _ => (unclocked_number _ _).seq fun _ => .value _

theorem unclocked_randomFloat (lo hi : Float) : Unclocked (randomFloat lo hi) :=
  unclocked_draw.seq fun _ => .value _

theorem unclocked_randomInt (lo hi : Float) : Unclocked (randomInt lo hi) := by
  refine (Unclocked.orRefuse _).seq fun first => (Unclocked.orRefuse _).seq fun last => ?_
  refine .choose _ (.orRefuse _) ?_
  refine unclocked_draw.seq fun u => (Unclocked.orRefuse _).seq fun low => ?_
  exact (Unclocked.orRefuse _).seq fun high => .orRefuse _

theorem unclocked_applyHelper (h : Helper) (args : List Value) : Unclocked (applyHelper h args) := by
  have float {c : Call Float} (h : Unclocked c) : Unclocked (do return Value.float (← c)) :=
    h.seq fun _ => .value _
  cases h with
  | setVar => exact unclocked_write _ _
  | getVar => exact float (unclocked_read _ _)
  | hasVar => exact (unclocked_nameOf _).seq fun _ => .look (fun _ _ => rfl) fun _ => .value _
  | addVar => exact unclocked_change _ _ _
  | subVar => exact unclocked_change _ _ _
  | mulVar => exact unclocked_change _ _ _
  | divVar =>
    refine (unclocked_number _ _).seq fun y => (unclocked_read _ _).seq fun x => ?_
    exact .choose _ (.value _) (unclocked_write _ _)
  | incVar => exact unclocked_change _ _ _
  | decVar => exact unclocked_change _ _ _
  | clampVar =>
    exact (unclocked_read _ _).seq fun x => (unclocked_clamped _ _ _).seq fun _ => unclocked_write _ _
  | rand => exact (unclocked_randomBounds _ _).seq fun _ => float (unclocked_randomFloat _ _)
  | randInt => exact (unclocked_randomBounds _ _).seq fun _ => float (unclocked_randomInt _ _)
  | clamp => exact float (unclocked_clamped _ _ _)
  | plain f => exact .orRefuse _

theorem unclocked_callNative (f : Native) (args : List Value) : Unclocked (callNative f args) := by
  cases f with
  | math f => exact Unclocked.callBinding (.math f) args
  | random => exact Unclocked.callBinding .random args
  | helper h =>
    rw [callNative, callHelper]
    split
    · exact .choose _ (.look (fun _ _ => rfl) fun _ => .raise _) (unclocked_applyHelper h args)
    · exact unclocked_applyHelper h args

theorem orFault_steady {α : Type} (e : Except Fault α) :
    Unclocked (orFault e : Run State α) ∧ Returnless (orFault e : Run State α) := by
  let s : Standing := { env := rootEnv }
  exact ⟨Unclocked.sequential.orFault (n := 0) (s := s) e,
    Returnless.sequential.orFault (n := 0) (s := s) e⟩

theorem read_steady (s : State) (name : String) :
    Unclocked (s.read name) ∧ Returnless (s.read name) := by
  rw [State.read]
  cases s.globals.get? name with
  | some v => exact ⟨.value v, .of_ok fun _ => ⟨v, rfl⟩⟩
  | none =>
    obtain ⟨unclocked, returnless⟩ := orFault_steady (s.store.read name zero)
    exact ⟨unclocked.seq fun _ => .value _, returnless.seq fun _ => .of_ok fun _ => ⟨_, rfl⟩⟩

theorem write_steady (s : State) (name : String) (v : Value) :
    let run : Run State Unit :=
      if s.globals.has name then
        modify fun m => { m with host := { s with globals := s.globals.put name v } }
      else do
        let (_, store) ← orFault (s.store.write name v)
        modify fun m => { m with host := { s with store } }
    Unclocked run ∧ Returnless run := by
  obtain ⟨unclocked, returnless⟩ := orFault_steady (s.store.write name v)
  constructor
  · refine .choose _ (.stored fun _ _ => rfl) ?_
    exact unclocked.seq fun _ => .stored fun _ _ => rfl
  · refine .choose _ (.of_ok fun _ => ⟨(), rfl⟩) ?_
    exact returnless.seq fun _ => .of_ok fun _ => ⟨(), rfl⟩

theorem host_steady : host.Steady where
  read name := .look (fun _ _ => rfl) fun m => (read_steady m.host name).1
  write name v := .look (fun _ _ => rfl) fun m => (write_steady m.host name v).1
  call := unclocked_callNative
  read_ends name m := (read_steady m.host name).2 m
  write_ends name v m := (write_steady m.host name v).2 m

end EmitterLogic.Tick
