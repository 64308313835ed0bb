import EmitterLogic.Proofs.Script.HostChange
import EmitterLogic.Proofs.Script.InRange
import EmitterLogic.Tick.Run

/-!
What tick scripts make of the store: its names stay as they are, and a value that changes becomes a
finite number under a name that scripts can spell.
-/

namespace EmitterLogic.Tick

open Script

variable {α β : Type}

structure Store.Changed (s s' : Store) : Prop where
  keys : Fields.keys s' = Fields.keys s
  value (key : String) : Fields.get? s' key = Fields.get? s key ∨
    isName key = true ∧ ∃ x : Float, x.isFinite = true ∧ Fields.get? s' key = some (.float x)

namespace Store.Changed

theorem refl (s : Store) : Changed s s := ⟨rfl, fun _ => .inl rfl⟩

theorem trans {s s' s'' : Store} (h : Changed s s') (h' : Changed s' s'') : Changed s s'' := by
  refine ⟨h'.keys.trans h.keys, fun key => ?_⟩
  rcases h'.value key with same | new
  · rw [same]
    exact h.value key
  · exact .inr new

end Store.Changed

theorem finiteOf_isFinite {v default : Value} {x : Float} (h : finiteOf v default = .ok x) :
    x.isFinite = true := by
  rcases isFinite_of_finiteOf h with finite | rfl
  · exact finite
  · decide

theorem Store.changed_put {s : Store} {name : String} {x : Float} (hs : s.holds name = true)
    (hx : x.isFinite = true) : Store.Changed s (Fields.put s name (.float x)) := by
  simp only [Store.holds, Bool.and_eq_true] at hs
  refine ⟨Store.keys_put_of_has hs.2 _, fun key => ?_⟩
  rw [Fields.get?_put]
  by_cases here : key = name
  · subst here
    exact .inr ⟨hs.1, x, hx, by rw [beq_self_eq_true, if_pos rfl]⟩
  · rw [beq_eq_false_iff_ne.mpr here]
    exact .inl rfl

theorem Store.changed_write {s s' : Store} {name : String} {v : Value} {x : Float}
    (h : s.write name v = .ok (x, s')) : Store.Changed s s' := by
  simp only [Store.write] at h
  split at h
  · next hs =>
    cases hv : finiteOf v zero with
    | error f =>
      rw [hv] at h
      cases h
    | ok y =>
      rw [hv] at h
      cases h
      exact Store.changed_put hs (finiteOf_isFinite hv)
  · cases h
    exact Store.Changed.refl s

def State.Changed (a b : State) : Prop := Store.Changed a.store b.store

namespace Call

def Safe (Q : α → Prop) (c : Call α) : Prop := ∀ m,
  State.Changed m.host (c m).2.host ∧ (c m).2.host.globals = m.host.globals ∧
    ∀ a, (c m).1 = .ok a → Q a

namespace Safe

variable {Q : α → Prop} {R : β → Prop}

theorem of_host {c : Call α} (store : ∀ m, (c m).2.host.store = m.host.store)
    (globals : ∀ m, (c m).2.host.globals = m.host.globals) (h : ∀ m a, (c m).1 = .ok a → Q a) :
    Safe Q c := by
  intro m
  rw [State.Changed, store m]
  exact ⟨Store.Changed.refl _, globals m, h m⟩

theorem value {a : α} (h : Q a) : Safe Q (pure a) := by
  refine of_host (fun _ => rfl) (fun _ => rfl) fun m b e => ?_
  cases e
  exact h

theorem refuse (why : Refusal) : Safe Q (throw why : Call α) :=
  of_host (fun _ => rfl) (fun _ => rfl) fun _ _ e => by cases e

theorem look {f : Machine State → Call α} (h : ∀ m, Safe Q (f m)) : Safe Q (get >>= f) :=
  fun m => h m m

theorem seq {c : Call α} {f : α → Call β} (hc : Safe Q c) (hf : ∀ a, Q a → Safe R (f a)) :
    Safe R (c >>= f) := by
  intro m
  obtain ⟨changed, globals, range⟩ := hc m
  simp only [bind, ExceptT.bind, ExceptT.mk, StateT.bind]
  rcases h : c m with ⟨result, after⟩
  rw [h] at changed globals range
  cases result with
  | error why =>
    refine ⟨changed, globals, fun a e => ?_⟩
    cases e
  | ok a =>
    obtain ⟨changed', globals', range'⟩ := hf a (range a rfl) after
    exact ⟨Store.Changed.trans changed changed', globals'.trans globals, range'⟩

theorem orRefuse {e : Except Fault α} (h : ∀ a, e = .ok a → Q a) : Safe Q (orRefuse e : Call α) := by
  cases e with
  | ok a => exact value (h a rfl)
  | error f => exact refuse (.fault f)

theorem anyway (e : Except Fault α) : Safe (fun _ => True) (Script.orRefuse e : Call α) :=
  orRefuse fun _ _ => trivial

theorem nameOf (v : Value) : Safe (fun _ => True) (nameOf v) := by
  rw [Call.nameOf]
  split
  · exact value trivial
  · refine look fun m => ?_
    cases m.textOf v with
    | ok s => exact value trivial
    | error e => exact refuse e.refusal

theorem number (v default : Value) : Safe (fun _ => True) (number v default) := anyway _

theorem read (name default : Value) : Safe (fun _ => True) (read name default) :=
  (nameOf name).seq fun _ _ => look fun _ => anyway _

theorem float {c : Call Float} (h : Safe (fun _ => True) c) :
    Safe Value.InRange (do return .float (← c)) := h.seq fun x _ => value (Value.inRange_float x)

theorem store (s : Store) (name : String) (v : Value) {m : Machine State} (hs : m.host.store = s) :
    let r := (do
      let (y, store) ← Script.orRefuse (s.write name v)
      modify fun m => { m with host := { m.host with store } }
      return .float y : Call Value) m
    State.Changed m.host r.2.host ∧ r.2.host.globals = m.host.globals ∧
      ∀ w, r.1 = .ok w → w.InRange := by
  cases h : s.write name v with
  | error f => exact refuse (.fault f) m
  | ok written =>
    obtain ⟨y, s'⟩ := written
    have changed := Store.changed_write h
    rw [← hs] at changed
    refine ⟨changed, rfl, fun w e => ?_⟩
    cases e
    exact Value.inRange_float y

theorem write (name : Value) (x : Value) : Safe Value.InRange (write name x) :=
  (nameOf name).seq fun name _ m => store m.host.store name x rfl

theorem change (name v : Value) (f : Float → Float → Float) :
    Safe Value.InRange (change name v f) :=
  (read name zero).seq fun _ _ => (number v zero).seq fun _ _ => write name _

theorem draw : Safe (fun _ => True) draw :=
  of_host (fun _ => rfl) (fun _ => rfl) fun _ _ _ => trivial

theorem clamped (v lo hi : Value) : Safe (fun _ => True) (clamped v lo hi) := by
  refine (number v zero).seq fun x _ => ?_
  refine (number lo (.float x)).seq fun low _ => ?_
  exact (number hi (.float x)).seq fun high _ => value trivial

theorem randomBounds (lo hi : Value) : Safe (fun _ => True) (randomBounds lo hi) :=
  (number _ zero).seq fun _ _ => (number _ _).seq fun _ _ => value trivial

theorem randomFloat (lo hi : Float) : Safe (fun _ => True) (randomFloat lo hi) :=
  draw.seq fun _ _ => value trivial

theorem randomInt (lo hi : Float) : Safe (fun _ => True) (randomInt lo hi) := by
  refine (anyway _).seq fun first _ => (anyway _).seq fun last _ => ?_
  split
  · exact anyway _
  · refine draw.seq fun u _ => (anyway _).seq fun first _ => ?_
    exact (anyway _).seq fun second _ => anyway _

theorem callMath (f : MathFn) (args : List Value) :
    Safe Value.InRange (Script.orRefuse (callMath f args) : Call Value) := by
  refine orRefuse fun v h => ?_
  obtain ⟨xs, _, result⟩ := bind_ok h
  cases result
  exact Value.inRange_float _

theorem applyHelper (h : Helper) (args : List Value) : Safe Value.InRange (applyHelper h args) := by
  cases h with
  | setVar => exact write _ _
  | getVar => exact (read _ _).float
  | hasVar => exact (nameOf _).seq fun _ _ => look fun _ => value (Value.inRange_bool _)
  | addVar => exact change _ _ _
  | subVar => exact change _ _ _
  | mulVar => exact change _ _ _
  | divVar =>
    refine (number _ _).seq fun y _ => (read _ _).seq fun x _ => ?_
    split
    · exact value (Value.inRange_float x)
    · exact write _ _
  | incVar => exact change _ _ _
  | decVar => exact change _ _ _
  | clampVar => exact (read _ _).seq fun x _ => (clamped _ _ _).seq fun _ _ => write _ _
  | rand => exact (randomBounds _ _).seq fun _ _ => (randomFloat _ _).float
  | randInt => exact (randomBounds _ _).seq fun _ _ => (randomInt _ _).float
  | clamp => exact (clamped _ _ _).float
  | plain f => exact callMath f args

theorem callHelper (h : Helper) (args : List Value) : Safe Value.InRange (callHelper h args) := by
  rw [Tick.callHelper]
  split
  · split
    · exact look fun m => refuse _
    · exact applyHelper h args
  · exact applyHelper h args

theorem callNative (f : Native) (args : List Value) : Safe Value.InRange (callNative f args) := by
  cases f with
  | helper h => exact callHelper h args
  | math f => exact callMath f args
  | random =>
    refine of_host (fun _ => rfl) (fun _ => rfl) fun m v e => ?_
    cases e
    exact Value.inRange_float _

end Safe

end Call

theorem State.read_host (s : State) (name : String) (m : Machine State) :
    (s.read name m).2.host = m.host := by
  rw [State.read]
  cases s.globals.get? name with
  | some v => rfl
  | none =>
    cases s.store.read name zero with
    | ok x => rfl
    | error f => rfl

theorem host_read_host (name : String) (m : Machine State) :
    (host.read name m).2.host = m.host := State.read_host m.host name m

theorem host_write_changed (name : String) (v : Value) (m : Machine State) :
    State.Changed m.host (host.write name v m).2.host := by
  change State.Changed m.host ((if m.host.globals.has name then
      modify fun after =>
        { after with host := { m.host with globals := m.host.globals.put name v } }
    else do
      let (_, store) ← orFault (m.host.store.write name v)
      modify fun after => { after with host := { m.host with store } } : Run State Unit) m).2.host
  split
  · exact Store.Changed.refl _
  · cases h : m.host.store.write name v with
    | error f => exact Store.Changed.refl _
    | ok written => exact Store.changed_write h

theorem host_along : host.Along State.Changed where
  refl a := Store.Changed.refl a.store
  trans h h' := Store.Changed.trans h h'
  read name m := by
    rw [host_read_host]
    exact Store.Changed.refl _
  write := host_write_changed
  call f args m := (Call.Safe.callNative f args m).1

theorem runWith_changed (limit fuel : Nat) (p : Program) (m : Machine State) :
    Store.Changed m.host.store (runWith host limit fuel p m).2.host.store :=
  runWith_along host_along limit fuel p m

theorem run_changed (limit : Nat) (p : Program) (m : Machine State) :
    Store.Changed m.host.store (run host limit p m).2.host.store :=
  runWith_changed limit (fuelFor limit) p m.rewound

theorem run_store (limit : Nat) (p : Program) (store : Store) (tick : Float)
    (draws mathDraws : Draws) (wording : Wording) :
    let m := machineFor store tick draws mathDraws wording
    Store.Changed store (run host limit p m).2.host.store ∧
      ∀ fuel, Store.Changed store (runWith host limit fuel p m).2.host.store :=
  ⟨run_changed limit p (machineFor store tick draws mathDraws wording),
    fun fuel => runWith_changed limit fuel p (machineFor store tick draws mathDraws wording)⟩

theorem runProgram_changed (source : String) (p : Program) (store : Store) (tick : Float)
    (draws : Draws) (limit fuel : Nat) (s : Session) :
    Store.Changed store (runProgram source p store tick draws limit fuel s).1.store := by
  have changed := runWith_changed limit fuel p (machineFor store tick draws s.draws s.wording)
  rcases ran : runWith host limit fuel p (machineFor store tick draws s.draws s.wording) with
    ⟨result, m⟩
  rw [ran] at changed
  have same : (runProgram source p store tick draws limit fuel s).1.store = m.host.store := by
    simp only [runProgram, bind, StateT.bind, get, getThe, MonadStateOf.get, StateT.get, pure, ran]
    cases result with
    | ok v => rfl
    | error i => cases i <;> rfl
  rw [same]
  exact changed

theorem Compiled.runWithin_changed (c : Compiled) (store : Store) (tick : Datum) (draws : Draws)
    (limit fuel : Nat) (s : Session) :
    Store.Changed store (c.runWithin store tick draws limit fuel s).1.store := by
  rw [Compiled.runWithin]
  cases c.program? with
  | none => exact Store.Changed.refl store
  | some p =>
    cases finiteOf (flatValue tick) zero with
    | error f => exact Store.Changed.refl store
    | ok x => exact runProgram_changed c.source p store x draws limit fuel s

theorem Compiled.run_changed (c : Compiled) (store : Store) (tick : Datum) (draws : Draws)
    (limit : Option Nat) (s : Session) :
    Store.Changed store (c.run store tick draws limit s).1.store :=
  c.runWithin_changed store tick draws _ _ s

end EmitterLogic.Tick
