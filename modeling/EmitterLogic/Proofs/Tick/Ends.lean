import EmitterLogic.Proofs.Datum.InRange
import EmitterLogic.Proofs.Script.Fueled
import EmitterLogic.Proofs.Script.GivingUp
import EmitterLogic.Proofs.Script.Sound
import EmitterLogic.Proofs.Tick.StoreChange

/-!
How runs of tick scripts end. Over a store of numbers the errors of a script are reported and go no
further; what passes through is a tick that is no number, and an element at an infinite position.
-/

namespace EmitterLogic.Tick

open Script

structure State.InRange (s : State) : Prop where
  store (key : String) (d : Datum) (found : Fields.get? s.store key = some d) : d.InRange
  globals : FieldsHold Value.InRange s.globals

theorem flatValue_inRange {d : Datum} (h : d.InRange) : (flatValue d).InRange := by
  cases h with
  | number h => exact h
  | _ => exact ⟨_, rfl⟩

theorem zero_inRange : zero.InRange := Value.inRange_float _

theorem finiteOf_ok {v default : Value} (hv : v.InRange) (hd : default.InRange) :
    ∃ x, finiteOf v default = .ok x := by
  obtain ⟨x, first⟩ := hv
  obtain ⟨y, second⟩ := hd
  rw [finiteOf, bind_of_ok first]
  split
  · exact ⟨x, rfl⟩
  · rw [bind_of_ok second]
    exact ⟨_, rfl⟩

theorem tooLarge_of_finiteOf {v default : Value} {f : Fault} (h : finiteOf v default = .error f)
    (hd : default.InRange) : f = .tooLarge := by
  cases value : v.toNumber with
  | ok x =>
    obtain ⟨y, found⟩ := finiteOf_ok ⟨x, value⟩ hd
    rw [h] at found
    cases found
  | error g =>
    rw [finiteOf, value] at h
    cases h
    cases v with
    | number n =>
      have value : n.toFloat = .error f := value
      cases n with
      | float x => cases value
      | int k =>
        simp only [Number.toFloat] at value
        split at value
        · cases value
        · cases value
          rfl
    | _ => cases value

theorem Store.Changed.inRange {s s' : Store} (h : Store.Changed s s')
    (range : ∀ key d, Fields.get? s key = some d → d.InRange) (key : String) (d : Datum)
    (found : Fields.get? s' key = some d) : d.InRange := by
  rcases h.value key with same | ⟨_, x, _, new⟩
  · exact range key d (same ▸ found)
  · rw [new] at found
    cases found
    exact Datum.InRange.float x

namespace Store

variable {s : Store} (range : ∀ key d, Fields.get? s key = some d → d.InRange)

include range in
theorem read_ok (name : String) {default : Value} (hd : default.InRange) :
    ∃ x, s.read name default = .ok x := by
  rw [Store.read]
  split
  · next d found =>
    have there : Fields.get? s name = some d := by
      split at found
      · exact found
      · cases found
    exact finiteOf_ok (flatValue_inRange (range name d there)) hd
  · exact finiteOf_ok hd zero_inRange

theorem write_ok (name : String) {v : Value} (hv : v.InRange) :
    ∃ written, s.write name v = .ok written := by
  rw [Store.write]
  split
  · obtain ⟨x, finite⟩ := finiteOf_ok hv zero_inRange
    rw [finite]
    exact ⟨_, rfl⟩
  · exact ⟨_, rfl⟩

end Store

section Host

theorem read_sound (name : String) :
    Sound State.InRange Event.never Value.InRange (host.read name) := by
  refine Sound.look fun m held => ?_
  rw [State.read]
  cases found : m.host.globals.get? name with
  | some v => exact Sound.value (held.host.globals name v found)
  | none =>
    obtain ⟨x, ok⟩ := Store.read_ok held.host.store name zero_inRange
    exact (Sound.ok (Q := fun _ => True) ok trivial).close fun y _ =>
      Sound.value (Value.inRange_float y)

theorem write_sound (name : String) {v : Value} (hv : v.InRange) :
    Sound State.InRange Event.never (fun _ => True) (host.write name v) := by
  refine Sound.look fun m held => Sound.either _ ?_ ?_
  · exact Sound.change fun after held' =>
      held'.setHost ⟨held.host.store, held.host.globals.put hv name⟩
  · obtain ⟨written, ok⟩ := Store.write_ok (s := m.host.store) name hv
    have kept := (Store.changed_write ok).inRange held.host.store
    refine (Sound.ok (Q := fun w : Float × Store => ∀ key d, Fields.get? w.2 key = some d → d.InRange)
      ok kept).close fun w hw => ?_
    exact Sound.change fun after held' => held'.setHost ⟨hw, held.host.globals⟩

theorem host_numeric : host.Numeric State.InRange where
  read name := (read_sound name).outside
  write name _ hv := (write_sound name hv).outside
  call f args m held := by
    obtain ⟨changed, globals, range⟩ := Call.Safe.callNative f args m
    refine ⟨range, changed.inRange held.host.store, ?_⟩
    have kept := held.host.globals
    rw [← globals] at kept
    exact kept

theorem write_eq (name : String) (v : Value) (m : Machine State) : host.write name v m =
    (if m.host.globals.has name then
      modify fun after => { after with host := { m.host with globals := m.host.globals.put name v } }
    else do
      let (_, store) ← orFault (m.host.store.write name v)
      modify fun after => { after with host := { m.host with store } } : Run State Unit) m := rfl

theorem host_fueled : host.Fueled where
  read name m := by
    have answer : host.read name m = m.host.read name m := rfl
    rw [answer, State.read]
    cases m.host.globals.get? name with
    | some v =>
      intro spent
      cases spent
    | none =>
      cases m.host.store.read name zero with
      | ok x =>
        intro spent
        cases spent
      | error f =>
        intro spent
        cases spent
  write name v m := by
    rw [write_eq]
    split
    · intro spent
      cases spent
    · cases m.host.store.write name v with
      | ok w =>
        intro spent
        cases spent
      | error f =>
        intro spent
        cases spent

end Host

theorem globalsFor_inRange (tick : Float) (place : Nat) :
    FieldsHold Value.InRange (globalsFor tick (.object place)) := by
  have all : ∀ f ∈ globalsFor tick (.object place), f.2.InRange := by
    refine List.forall_mem_append.mpr ⟨?_, List.forall_mem_map.mpr fun h _ => ⟨_, rfl⟩⟩
    simp only [List.forall_mem_cons]
    exact ⟨⟨_, rfl⟩, ⟨_, rfl⟩, ⟨_, rfl⟩, List.forall_mem_nil _⟩
  exact FieldsHold.of_forall_mem all

theorem machineFor_holds {store : Store} (h : ∀ e ∈ store, e.2.InRange) (tick : Float)
    (draws mathDraws : Draws) (wording : Wording) :
    (machineFor store tick draws mathDraws wording).Holds Value.InRange State.InRange := by
  have values (key : String) (d : Datum) (found : Fields.get? store key = some d) : d.InRange :=
    h (key, d) (Fields.mem_of_get? found)
  have empty : State.InRange ⟨store, [], draws, wording⟩ := ⟨values, .nil⟩
  have mathematics : FieldsHold Value.InRange ({ fields := mathFields } : ObjectCell).fields :=
    mathFields_hold (fun f => ⟨_, rfl⟩) Value.inRange_float
  have started := (start_holds empty mathDraws).addObject mathematics
  exact started.setHost ⟨values, globalsFor_inRange tick _⟩

section Runs

variable {source : String} {p : Program} {store : Store} {tick : Float} {draws : Draws}
  {limit fuel : Nat} {s : Session} {m : Machine State}

theorem runProgram_of_ok {v : Value}
    (ran : runWith host limit fuel p (machineFor store tick draws s.draws s.wording) = (.ok v, m)) :
    runProgram source p store tick draws limit fuel s =
      (⟨some (.ok true), m.host.store, m.host.draws⟩, { s with draws := m.draws }) := by
  simp only [runProgram, bind, StateT.bind, get, getThe, MonadStateOf.get, StateT.get, pure, ran]
  rfl

theorem runProgram_of_fault {f : Fault}
    (ran : runWith host limit fuel p (machineFor store tick draws s.draws s.wording) =
      (.error (.fault f), m)) :
    runProgram source p store tick draws limit fuel s =
      (⟨some (.error f), m.host.store, m.host.draws⟩, { s with draws := m.draws }) := by
  simp only [runProgram, bind, StateT.bind, get, getThe, MonadStateOf.get, StateT.get, pure, ran]
  rfl

theorem runProgram_of_spent
    (ran : runWith host limit fuel p (machineFor store tick draws s.draws s.wording) =
      (.error .outOfFuel, m)) :
    runProgram source p store tick draws limit fuel s =
      (⟨none, m.host.store, m.host.draws⟩, { s with draws := m.draws }) := by
  simp only [runProgram, bind, StateT.bind, get, getThe, MonadStateOf.get, StateT.get, pure, ran]
  rfl

theorem runProgram_of_error {i : Interrupt} (other : ∀ f, i ≠ .fault f) (fueled : i ≠ .outOfFuel)
    (ran : runWith host limit fuel p (machineFor store tick draws s.draws s.wording) =
      (.error i, m)) :
    runProgram source p store tick draws limit fuel s =
      (⟨some (.ok false), m.host.store, m.host.draws⟩,
        { s with draws := m.draws, log := reportAbort s.log source i }) := by
  simp only [runProgram, bind, StateT.bind, get, getThe, MonadStateOf.get, StateT.get, pure, ran]
  cases i with
  | fault f => exact absurd rfl (other f)
  | outOfFuel => exact absurd rfl fueled
  | _ => rfl

theorem answer?_eq_none :
    (runProgram source p store tick draws limit fuel s).1.answer? = none ↔
      (runWith host limit fuel p (machineFor store tick draws s.draws s.wording)).1 =
        .error .outOfFuel := by
  rcases ran : runWith host limit fuel p (machineFor store tick draws s.draws s.wording) with
    ⟨result, m⟩
  simp only [runProgram, bind, StateT.bind, get, getThe, MonadStateOf.get, StateT.get, pure, ran]
  cases result with
  | ok v =>
    refine iff_of_false (fun none => ?_) fun spent => ?_
    · cases none
    · cases spent
  | error i =>
    cases i with
    | outOfFuel => exact iff_of_true rfl rfl
    | _ =>
      refine iff_of_false (fun none => ?_) fun spent => ?_
      · cases none
      · cases spent

theorem runProgram_of_le {more : Nat} (le : fuel ≤ more)
    (answered : (runProgram source p store tick draws limit fuel s).1.answer? ≠ none) :
    runProgram source p store tick draws limit more s =
      runProgram source p store tick draws limit fuel s := by
  have goes : spent
      (runWith host limit fuel p (machineFor store tick draws s.draws s.wording)).1 = false := by
    rw [Bool.eq_false_iff, ne_eq, spent_iff]
    exact mt answer?_eq_none.mpr answered
  simp only [runProgram, bind, StateT.bind, get, getThe, MonadStateOf.get, StateT.get, pure,
    runWith_of_not_spent goes le]

theorem runProgram_answers (limited : 0 < limit) (enough : limit < fuel) :
    (runProgram source p store tick draws limit fuel s).1.answer? ≠ none :=
  mt answer?_eq_none.mp (runWith_fueled limited enough host_fueled p rfl)

theorem runProgram_cases (range : ∀ e ∈ store, e.2.InRange) :
    let m := machineFor store tick draws s.draws s.wording
    let result := (runWith host limit fuel p m).1
    let beyond := p.Overreaches host limit fuel m
    let ran := runProgram source p store tick draws limit fuel s
    (result = .error .outOfFuel ∧ ran.1.answer? = none ∧ ran.2.log = s.log) ∨
    (beyond ∧ ran.1.answer? = some (.error .infinite) ∧ ran.2.log = s.log) ∨
    (¬beyond ∧ (∃ v, result = .ok v) ∧ ran.1.answer? = some (.ok true) ∧ ran.2.log = s.log) ∨
    (¬beyond ∧ ∃ i, result = .error i ∧ i ≠ .outOfFuel ∧ ran.1.answer? = some (.ok false) ∧
      ran.2.log = reportAbort s.log source i) := by
  intro m result beyond ran
  have ends := (Sound.runWith host_numeric limit fuel p m
    (machineFor_holds range tick draws s.draws s.wording)).1
  rcases ended : runWith host limit fuel p m with ⟨e, last⟩
  rw [ended] at ends
  simp only [result, ran, ended]
  cases e with
  | ok v =>
    rw [runProgram_of_ok ended]
    exact .inr (.inr (.inl ⟨ends.2, ⟨v, rfl⟩, rfl, rfl⟩))
  | error i =>
    rcases Ends.error_cases ends with ⟨rfl, passed⟩ | ⟨other, within⟩
    · rw [runProgram_of_fault ended]
      exact .inr (.inl ⟨passed, rfl, rfl⟩)
    · by_cases spent : i = .outOfFuel
      · subst spent
        rw [runProgram_of_spent ended]
        exact .inl ⟨rfl, rfl, rfl⟩
      · rw [runProgram_of_error other spent ended]
        exact .inr (.inr (.inr ⟨within, i, rfl, spent, rfl, rfl⟩))

/-- A loop whose test always holds. -/
def endlessLoop : Program := ⟨[.whileLoop (.literal (.bool true)) .empty]⟩

theorem testFirst_endless {σ : Type} (n : Nat) (m : Machine σ) :
    (testFirst 0 (return true) (step 0) (return) n m).1 = .error .outOfFuel := by
  induction n generalizing m with
  | zero => rfl
  | succ n ih => exact ih { m with steps := m.steps + 1 + 1 }

theorem runProgram_endless (fuel : Nat) :
    (runProgram source endlessLoop store tick draws 0 fuel s).1.answer? = none := by
  rw [answer?_eq_none]
  let m := machineFor store tick draws s.draws s.wording
  have loop := testFirst_endless fuel { m with steps := m.steps + 1 }
  rcases ran : testFirst 0 (return true) (step 0) (return) fuel { m with steps := m.steps + 1 } with
    ⟨result, after⟩
  rw [ran] at loop
  obtain rfl : result = .error .outOfFuel := loop
  have body : execBody host 0 fuel (invoke host 0 fuel) rootEnv endlessLoop.body m =
      (.error .outOfFuel, after) := seq_error (f := fun _ => pure ()) ran
  rw [runWith, scriptValue, body]

end Runs

namespace Compiled

/-- A script with a program returns, with its errors reported, unless it comes to an element at an
infinite position; then that fault passes through, as does the one of a tick beyond the range. An answer
stays the same with more fuel. Under a limit there is one; without a limit a run may go on for ever, and
then no fuel gives one. -/
theorem run_returns (c : Compiled) {store : Store} (h : ∀ e ∈ store, e.2.InRange)
    (tick : Datum) (draws : Draws) (limit : Option Nat) (s : Session) (fuel : Nat) :
    let N := limit.getD s.config.scriptStepLimit
    let ran := c.runWithin store tick draws N fuel s
    match c.program?, finiteOf (flatValue tick) zero with
    | none, _ => ran = (⟨some (.ok false), store, draws⟩, s)
    | some _, .error f => f = .tooLarge ∧ ran = (⟨some (.error f), store, draws⟩, s)
    | some p, .ok x =>
      let m := machineFor store x draws s.draws s.wording
      let result := (runWith host N fuel p m).1
      let beyond := p.Overreaches host N fuel m
      (0 < N → N < fuel → ran.1.answer? ≠ none ∧ c.run store tick draws limit s = ran) ∧
      (ran.1.answer? ≠ none → ∀ more, fuel ≤ more → c.runWithin store tick draws N more s = ran) ∧
      ((result = .error .outOfFuel ∧ ran.1.answer? = none ∧ ran.2.log = s.log) ∨
       (beyond ∧ ran.1.answer? = some (.error .infinite) ∧ ran.2.log = s.log) ∨
       (¬beyond ∧ (∃ v, result = .ok v) ∧ ran.1.answer? = some (.ok true) ∧ ran.2.log = s.log) ∨
       (¬beyond ∧ ∃ i, result = .error i ∧ i ≠ .outOfFuel ∧ ran.1.answer? = some (.ok false) ∧
        ran.2.log = s.log.writeOnce "doTick" (c.source ++ ":" ++ i.message ++ detail i)
          ("script aborted: " ++ i.message))) := by
  intro N ran
  split
  · next none =>
    simp only [ran, runWithin, none]
    rfl
  · next p f found fault =>
    have unread : ran = (⟨some (.error f), store, draws⟩, s) := by
      simp only [ran, runWithin, found, fault]
      rfl
    exact ⟨tooLarge_of_finiteOf fault zero_inRange, unread⟩
  · next p x found finite =>
    intro m result beyond
    have started (given : Nat) : c.runWithin store tick draws N given s =
        runProgram c.source p store x draws N given s := by
      simp only [runWithin, found, finite]
    refine ⟨fun limited enough => ?_, fun answered more le => ?_, ?_⟩
    · have answers (given : Nat) (room : N < given) :
          (runProgram c.source p store x draws N given s).1.answer? ≠ none :=
        runProgram_answers limited room
      have least : c.run store tick draws limit s =
          runProgram c.source p store x draws N (N + 1) s := by
        rw [← started, ← fuelFor_pos limited]
        rfl
      simp only [ran, started]
      exact ⟨answers fuel enough, least.trans
        (runProgram_of_le enough (answers (N + 1) (Nat.lt_succ_self N))).symm⟩
    · simp only [ran, started] at answered ⊢
      exact runProgram_of_le le answered
    · simp only [ran, started]
      exact runProgram_cases h

end Compiled

/-- A script that asks a text for its element at infinity. -/
def readBeyond : Compiled :=
  ⟨"\"a\"[1/0]", .ok (some ⟨[.expr (.index (.text "a")
    (.binary (.arith .div) (.number 1.0) (.number 0.0)))]⟩)⟩

theorem run_returns_readBeyond :
    (∀ e ∈ ([("a", .float 0.0)] : Store), e.2.InRange) ∧ ∃ p, readBeyond.program? = some p ∧
      p.Overreaches host 200 201 (machineFor [("a", .float 0.0)] 1.0 {} {} ({} : Session).wording) ∧
      (readBeyond.run [("a", .float 0.0)] (.int 1) {} (some 200) {}).1.answer? =
        some (.error .infinite) := by
  have range : ∀ e ∈ ([("a", .float 0.0)] : Store), e.2.InRange := by
    rw [List.forall_mem_singleton]
    exact .float 0.0
  have faults : (readBeyond.run [("a", .float 0.0)] (.int 1) {} (some 200) {}).1.answer? =
      some (.error .infinite) := by rfl
  obtain ⟨limited, _, ends⟩ := Compiled.run_returns readBeyond range (.int 1) {} (some 200) {} 201
  obtain ⟨_, same⟩ := limited (by decide) (by decide)
  rw [← same, faults] at ends
  rcases ends with ⟨_, none, _⟩ | ⟨beyond, _⟩ | ⟨_, _, ok, _⟩ | ⟨_, _, _, _, ok, _⟩
  · cases none
  · exact ⟨range, _, rfl, beyond, faults⟩
  · cases ok
  · cases ok

theorem isOk_run_faults : ∃ c, Compiled.ofText "\"a\"[1/0]" ["a"] = .ok c ∧ c.isOk = true ∧
    ∀ b, (c.run [("a", .float 0.0)] (.int 1) {} none {}).1.answer? ≠ some (.ok b) := by
  have ran : (Compiled.ofText "\"a\"[1/0]" ["a"]).toOption.any (fun c => c.isOk &&
      !(c.run [("a", .float 0.0)] (.int 1) {} none {}).1.answer?.any Except.isOk) = true := by
    decide +kernel
  obtain ⟨c, found, holds⟩ := (Option.any_eq_true _ _).mp ran
  rw [Bool.and_eq_true] at holds
  refine ⟨c, ok_of_toOption found, holds.1, fun b returned => ?_⟩
  rw [returned] at holds
  cases holds.2

end EmitterLogic.Tick
