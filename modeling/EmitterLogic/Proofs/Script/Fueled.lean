import EmitterLogic.Proofs.Script.Fence

namespace EmitterLogic.Script

variable {σ α β : Type}

structure Host.Fueled (host : Host σ) : Prop where
  read (name : String) (m : Machine σ) : (host.read name m).1 ≠ .error .outOfFuel
  write (name : String) (v : Value) (m : Machine σ) : (host.write name v m).1 ≠ .error .outOfFuel

def Fueled (N : Nat) : RunRel σ := fun n s _ r r' =>
  Fenced N n s r r' ∧ ∀ m, m.steps ≤ N → N < m.steps + n → (r m).1 ≠ .error .outOfFuel

namespace Fueled

variable {N n : Nat} {s : Standing}

theorem of_fenced {r r' : Run σ α} (fence : Fenced N n s r r')
    (fueled : ∀ m, (r m).1 ≠ .error .outOfFuel) : Fueled N n s r r' :=
  ⟨fence, fun m _ _ => fueled m⟩

theorem of_steps {r : Run σ α} (steps : ∀ m, (r m).2.steps = m.steps)
    (fueled : ∀ m, (r m).1 ≠ .error .outOfFuel) : Fueled N n s r r :=
  of_fenced (Fenced.of_steps steps) fueled

theorem seq {x x' : Run σ α} {f f' : α → Run σ β} (hx : Fueled N n s x x')
    (hf : ∀ a, Fueled N n s (f a) (f' a)) : Fueled N n s (x >>= f) (x' >>= f') := by
  refine ⟨hx.1.seq fun a => (hf a).1, fun m within fuel => ?_⟩
  have first := hx.2 m within fuel
  rcases h : x m with ⟨result, after⟩
  rw [h] at first
  cases result with
  | error i =>
    rw [seq_error h]
    exact fun spent => first (congrArg Except.error (Except.error.inj spent))
  | ok a =>
    obtain ⟨_, grows, still⟩ := hx.1.within_of_ne within fuel h (nofun)
    rw [seq_ok h]
    exact (hf a).2 after still (by omega)

theorem sequential : Sequential (Fueled N : RunRel σ) where
  value _ := of_steps (fun _ => rfl) fun _ => nofun
  raise _ fueled _ _ := of_steps (fun _ => rfl) fun _ spent => fueled (Except.error.inj spent)
  seq := seq
  look _ h := ⟨Fenced.look fun m => (h m).1, fun m within fuel => (h m).2 m within fuel⟩

theorem ending {op : Run σ α → Run σ β} (hop : Ending op) {x x' : Run σ α}
    (h : Fueled N n s x x') : Fueled N n s (op x) (op x') :=
  ⟨h.1.ending hop, fun m within fuel spent => h.2 m within fuel ((hop.fueled x m).mp spent)⟩

theorem handled {x x' : Run σ Unit} {f f' : Value → Run σ Unit} (hx : Fueled N n s x x')
    (hf : ∀ v, Fueled N n s (f v) (f' v)) :
    Fueled N n s (handled x (some f)) (handled x' (some f')) := by
  refine ⟨hx.1.handled fun v => (hf v).1, fun m within fuel => ?_⟩
  have first := hx.2 m within fuel
  rcases h : x m with ⟨result, after⟩
  rw [h] at first
  cases result with
  | ok u =>
    simp only [Script.handled, h]
    exact first
  | error i =>
    cases caught : i.caught? with
    | none =>
      simp only [Script.handled, h, caught]
      exact first
    | some v =>
      have other : (Except.error i : Except Interrupt Unit) ≠ .error (.stepLimit N) := by
        intro e
        cases e
        cases caught
      obtain ⟨_, grows, still⟩ := hx.1.within_of_ne within fuel h other
      simp only [Script.handled, h, caught]
      exact (hf v).2 after still (by omega)

theorem inScope {f f' : Nat → Run σ α} (h : ∀ place, Fueled N n s (f place) (f' place)) :
    Fueled N n s (newScope >>= f) (newScope >>= f') := by
  have opened : Fueled N n s (newScope : Run σ Nat) newScope :=
    of_steps (fun _ => rfl) fun _ => nofun
  exact opened.seq h

section Counting

variable (hN : 0 < N)
include hN

theorem counted {x x' : Run σ α} (h : Fueled N n s x x') :
    Fueled N (n + 1) s (step N >>= fun _ => x) (step N >>= fun _ => x') := by
  refine ⟨Fenced.counted hN h.1, fun m within fuel => ?_⟩
  by_cases room : m.steps + 1 ≤ N
  · rw [seq_ok (Fenced.step_within room)]
    exact h.2 _ room (by simp only; omega)
  · rw [seq_error (Fenced.step_beyond hN (Nat.lt_of_not_le room))]
    exact nofun

theorem count : Fueled (σ := σ) N n s (step N) (step N) := by
  refine of_fenced (Fenced.count hN) fun m => ?_
  simp only [step]
  split
  · intro spent
    cases spent
  · intro spent
    cases spent

theorem finalized {x x' last last' : Run σ Unit} (hx : Fueled N n s x x')
    (hlast : Fueled N n s last last') :
    Fueled N n s (finalized x (some (step N >>= fun _ => last)))
      (finalized x' (some (step N >>= fun _ => last'))) := by
  have closing : Fueled N n s (step N >>= fun _ => last) (step N >>= fun _ => last') :=
    (count hN).seq fun _ => hlast
  refine ⟨Fenced.finalized hN hx.1 hlast.1, fun m within fuel => ?_⟩
  have first := hx.2 m within fuel
  obtain ⟨_, grows, _⟩ := hx.1 m within fuel
  rcases h : x m with ⟨result, after⟩
  rw [h] at first
  simp only [h] at grows
  have closes : ((step N >>= fun _ => last) after).1 ≠ .error .outOfFuel := by
    by_cases still : after.steps ≤ N
    · exact closing.2 after still (by omega)
    · -- a finalizer that is entered beyond the limit ends at its first step
      rw [seq_error (Fenced.step_beyond hN (Nat.lt_succ_of_lt (Nat.lt_of_not_le still)))]
      exact nofun
  rcases e : (step N >>= fun _ => last) after with ⟨result', done⟩
  rw [e] at closes
  cases result' with
  | ok u =>
    rw [finalized_ok h first e]
    exact first
  | error i =>
    rw [finalized_error h first e]
    exact closes

end Counting

section Hosts

variable {host : Host σ} (hF : host.Fueled)

include hF in
theorem readName (other : Host σ) (env : Env) (name : String) :
    Fueled N n s (readName host env name) (readName (host.replacedAfter N other) env name) :=
  sequential.readName (host.replacedAfter_has N other) env name
    (of_fenced (Fenced.outside fun _ within => if_pos within) (hF.read name))

include hF in
theorem writeName (other : Host σ) (env : Env) (name : String) (v : Value) :
    Fueled N n s (writeName host env name v)
      (writeName (host.replacedAfter N other) env name v) :=
  sequential.writeName (fun _ h => of_steps (fun m => (h m).1) fun _ => nofun)
    (host.replacedAfter_has N other) env name v
    (of_fenced (Fenced.outside fun _ within => if_pos within) (hF.write name v))

theorem writeMember (holder property v : Value) :
    Fueled (σ := σ) N n s (writeMember holder property v) (writeMember holder property v) :=
  sequential.writeMember (fun _ h => of_steps (fun m => (h m).1) fun _ => nofun) holder property v

theorem callNative (other : Host σ) (callee : String) (f : Native) (args : List Value) :
    Fueled N n s (callNative host callee f args)
      (callNative (host.replacedAfter N other) callee f args) := by
  refine of_fenced (Fenced.callNative callee f args) fun m => ?_
  rcases answer : host.call f args m with ⟨result, after⟩
  cases result with
  | ok v =>
    simp only [Script.callNative, outside, answer]
    intro spent
    cases spent
  | error why =>
    obtain ⟨e, failed⟩ := why.interrupt_eq callee
    simp only [Script.callNative, outside, answer, failed]
    intro spent
    cases spent

end Hosts

end Fueled

theorem fueled_compatible {N : Nat} (hN : 0 < N) {host : Host σ} (hF : host.Fueled)
    (other : Host σ) :
    Compatible host (host.replacedAfter N other) N N 0 (fun _ => True) (Fueled N) where
  toSequential := Fueled.sequential
  has_eq := host.replacedAfter_has N other
  count := Fueled.count hN
  list _ := Fueled.of_steps (fun _ => rfl) fun _ => nofun
  object _ := Fueled.of_steps (fun _ => rfl) fun _ => nofun
  closure _ := Fueled.of_steps (fun _ => rfl) fun _ => nofun
  reads := Fueled.readName hF other _
  writes := Fueled.writeName hF other _
  writesMember := Fueled.writeMember
  native := Fueled.callNative other
  binds _ _ _ _ := Fueled.of_steps (fun _ => rfl) fun _ => nofun
  leaves _ fueled _ :=
    Fueled.of_steps (fun _ => rfl) fun _ spent => fueled (Except.error.inj spent)
  counted := Fueled.counted hN
  exhausted x' _ := ⟨Fenced.exhausted _, fun m within fuel => absurd within (Nat.not_le_of_lt fuel)⟩
  lower h := ⟨h.1.lower, fun m within fuel => h.2 m within (by omega)⟩
  round h := h.ending goesOn_ending
  body h := h.ending bodyValue_ending
  handle := Fueled.handled
  finish := Fueled.finalized hN
  scope := Fueled.inScope
  enters _ := Fueled.inScope
  inner h := ⟨h.1.deeper, fun m within fuel => h.2 { m with depth := m.depth + 1 } within fuel⟩
  passes h := h
  known _ h := ⟨Fenced.look fun m => (h m fun _ _ => trivial).1,
    fun m within fuel => (h m fun _ _ => trivial).2 m within fuel⟩

theorem runWith_fueled {N fuel : Nat} (hN : 0 < N) (enough : N < fuel) {host : Host σ}
    (hF : host.Fueled) (p : Program) {m : Machine σ} (start : m.steps = 0) :
    (runWith host N fuel p m).1 ≠ .error .outOfFuel := by
  have script := ((fueled_compatible hN hF host).script fuel p.body).ending scriptValue_ending
  exact script.2 m (by omega) (by omega)

end EmitterLogic.Script
