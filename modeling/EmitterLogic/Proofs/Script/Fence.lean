import EmitterLogic.Proofs.Script.Compatible
import EmitterLogic.Script.Bindings

/-!
The limit of steps as a fence. A run that counts more steps than the limit ends with the limit, and
from then on asks nothing of its host.
-/

namespace EmitterLogic.Script

variable {σ α β : Type}

/-- A host in whose place another one answers once more than `N` steps are counted. -/
def Host.replacedAfter (N : Nat) (host other : Host σ) : Host σ where
  has := host.has
  read name := fun m => if m.steps ≤ N then host.read name m else other.read name m
  write name v := fun m => if m.steps ≤ N then host.write name v m else other.write name v m
  call f args := fun m => if m.steps ≤ N then host.call f args m else other.call f args m

theorem Host.replacedAfter_has (N : Nat) (host other : Host σ) :
    (host.replacedAfter N other).has = host.has := rfl

def Fenced (N : Nat) : RunRel σ := fun n _ _ r r' =>
  ∀ m, m.steps ≤ N → N < m.steps + n →
    r' m = r m ∧ m.steps ≤ (r m).2.steps ∧ (N < (r m).2.steps → (r m).1 = .error (.stepLimit N))

namespace Fenced

section Pieces

variable {N n : Nat} {s : Standing}

theorem of_steps {r : Run σ α} (h : ∀ m, (r m).2.steps = m.steps) : Fenced N n s r r := by
  intro m within _
  have same := h m
  exact ⟨rfl, by omega, fun beyond => by omega⟩

theorem value (a : α) : Fenced (σ := σ) N n s (pure a) (pure a) := of_steps fun _ => rfl

theorem raise (i : Interrupt) : Fenced (σ := σ) (α := α) N n s (throw i) (throw i) :=
  of_steps fun _ => rfl

theorem look {f f' : Machine σ → Run σ α} (h : ∀ m, Fenced N n s (f m) (f' m)) :
    Fenced N n s (get >>= f) (get >>= f') := by
  intro m within fuel
  exact h m m within fuel

theorem seq {x x' : Run σ α} {f f' : α → Run σ β} (hx : Fenced N n s x x')
    (hf : ∀ a, Fenced N n s (f a) (f' a)) : Fenced N n s (x >>= f) (x' >>= f') := by
  intro m within fuel
  obtain ⟨same, grows, fence⟩ := hx m within fuel
  rcases h : x m with ⟨result, after⟩
  rw [h] at same
  simp only [h] at grows fence
  cases result with
  | error i =>
    rw [seq_error h, seq_error same]
    exact ⟨rfl, grows, fun beyond => by rw [Except.error.inj (fence beyond)]⟩
  | ok a =>
    have still : after.steps ≤ N := by
      refine Nat.le_of_not_lt fun beyond => ?_
      cases fence beyond
    obtain ⟨same', grows', fence'⟩ := hf a after still (by omega)
    rw [seq_ok h, seq_ok same]
    exact ⟨same', by omega, fence'⟩

theorem sequential : Sequential (Fenced N : RunRel σ) where
  value := value
  raise i _ _ _ := raise i
  seq := seq
  look _ := look

theorem outside {r r' : Run σ α} (h : ∀ m, m.steps ≤ N → r' m = r m) :
    Fenced N n s (outside r) (outside r') := by
  intro m within _
  have same : Script.outside r' m = Script.outside r m := by simp only [Script.outside, h m within]
  have kept : (Script.outside r m).2.steps = m.steps := rfl
  exact ⟨same, by omega, fun beyond => by omega⟩

theorem lower {x x' : Run σ α} (h : Fenced N (n + 1) s x x') : Fenced N n s x x' := by
  intro m within fuel
  exact h m within (by omega)

theorem exhausted {limit : Nat} (x' : Run σ α) :
    Fenced N 0 s (step limit >>= fun _ => throw .outOfFuel) x' := by
  intro m within fuel
  omega

theorem deeper {x x' : Run σ α} (h : Fenced N n s x x') : Fenced N n s (deeper x) (deeper x') := by
  intro m within fuel
  obtain ⟨same, grows, fence⟩ := h { m with depth := m.depth + 1 } within fuel
  refine ⟨?_, grows, fence⟩
  simp only [Script.deeper, same]

theorem ending {op : Run σ α → Run σ β} (hop : Ending op) {x x' : Run σ α}
    (h : Fenced N n s x x') : Fenced N n s (op x) (op x') := by
  intro m within fuel
  obtain ⟨same, grows, fence⟩ := h m within fuel
  rw [hop.only x x' m same, hop.keeps x m]
  exact ⟨rfl, grows, fun beyond => hop.passes N x m (fence beyond)⟩

theorem within_of_ne {x x' : Run σ α} {m after : Machine σ} {result : Except Interrupt α}
    (h : Fenced N n s x x') (within : m.steps ≤ N) (fuel : N < m.steps + n)
    (e : x m = (result, after)) (ne : result ≠ .error (.stepLimit N)) :
    x' m = (result, after) ∧ m.steps ≤ after.steps ∧ after.steps ≤ N := by
  obtain ⟨same, grows, fence⟩ := h m within fuel
  rw [e] at same grows fence
  exact ⟨same, grows, Nat.le_of_not_lt fun beyond => ne (fence beyond)⟩

theorem handled {x x' : Run σ Unit} {f f' : Value → Run σ Unit} (hx : Fenced N n s x x')
    (hf : ∀ v, Fenced N n s (f v) (f' v)) :
    Fenced N n s (handled x (some f)) (handled x' (some f')) := by
  intro m within fuel
  rcases h : x m with ⟨result, after⟩
  cases result with
  | ok u =>
    obtain ⟨same, grows, still⟩ := hx.within_of_ne within fuel h (nofun)
    simp only [Script.handled, h, same]
    exact ⟨trivial, grows, fun beyond => absurd still (Nat.not_le_of_lt beyond)⟩
  | error i =>
    cases caught : i.caught? with
    | none =>
      obtain ⟨same, grows, fence⟩ := hx m within fuel
      rw [h] at same grows fence
      simp only [Script.handled, h, same, caught]
      exact ⟨trivial, grows, fence⟩
    | some v =>
      have other : (Except.error i : Except Interrupt Unit) ≠ .error (.stepLimit N) := by
        intro e
        cases e
        cases caught
      obtain ⟨same, grows, still⟩ := hx.within_of_ne within fuel h other
      obtain ⟨same', grows', fence'⟩ := hf v after still (by omega)
      simp only [Script.handled, h, same, caught]
      exact ⟨same', by omega, fence'⟩

end Pieces

section Counting

variable {N n : Nat} {s : Standing}

theorem step_within {m : Machine σ} (h : m.steps + 1 ≤ N) :
    step N m = (.ok (), { m with steps := m.steps + 1 }) := by
  simp only [step]
  rw [if_neg (by simp; omega)]

variable (hN : 0 < N)
include hN

theorem step_beyond {m : Machine σ} (h : N < m.steps + 1) :
    step N m = (.error (.stepLimit N), { m with steps := m.steps + 1 }) := by
  simp only [step]
  rw [if_pos (by simp; omega)]

theorem counted {x x' : Run σ α} (h : Fenced N n s x x') :
    Fenced N (n + 1) s (step N >>= fun _ => x) (step N >>= fun _ => x') := by
  intro m within fuel
  by_cases room : m.steps + 1 ≤ N
  · have counts := step_within room
    obtain ⟨same, grows, fence⟩ := h { m with steps := m.steps + 1 } room (by simp only; omega)
    rw [seq_ok counts, seq_ok counts]
    exact ⟨same, Nat.le_trans (Nat.le_succ _) grows, fence⟩
  · have ends := step_beyond hN (Nat.lt_of_not_le room)
    rw [seq_error ends, seq_error ends]
    exact ⟨rfl, Nat.le_succ _, fun _ => rfl⟩

theorem count : Fenced (σ := σ) N n s (step N) (step N) := by
  intro m within fuel
  by_cases room : m.steps + 1 ≤ N
  · rw [step_within room]
    exact ⟨rfl, Nat.le_succ _, fun beyond => by simp only at beyond; omega⟩
  · rw [step_beyond hN (Nat.lt_of_not_le room)]
    exact ⟨rfl, Nat.le_succ _, fun _ => rfl⟩

theorem finalized {x x' last last' : Run σ Unit} (hx : Fenced N n s x x')
    (hlast : Fenced N n s last last') :
    Fenced N n s (finalized x (some (step N >>= fun _ => last)))
      (finalized x' (some (step N >>= fun _ => last'))) := by
  have closing : Fenced N n s (step N >>= fun _ => last) (step N >>= fun _ => last') :=
    (count hN).seq fun _ => hlast
  intro m within fuel
  obtain ⟨same, grows, fence⟩ := hx m within fuel
  rcases h : x m with ⟨result, after⟩
  rw [h] at same
  simp only [h] at grows fence
  by_cases spent : result = .error .outOfFuel
  · subst spent
    simp only [Script.finalized, h, same]
    refine ⟨trivial, grows, fun beyond => ?_⟩
    cases fence beyond
  by_cases still : after.steps ≤ N
  · obtain ⟨same', grows', fence'⟩ := closing after still (by omega)
    rcases e : (step N >>= fun _ => last) after with ⟨result', done⟩
    rw [e] at same' grows' fence'
    cases result' with
    | ok u =>
      rw [finalized_ok h spent e, finalized_ok same spent same']
      refine ⟨rfl, Nat.le_trans grows grows', fun beyond => ?_⟩
      cases fence' beyond
    | error i =>
      rw [finalized_error h spent e, finalized_error same spent same']
      exact ⟨rfl, Nat.le_trans grows grows', fence'⟩
  · -- a finalizer that is entered beyond the limit ends at its first step
    have ends := step_beyond hN (Nat.lt_succ_of_lt (Nat.lt_of_not_le still))
    rw [finalized_error h spent (seq_error ends), finalized_error same spent (seq_error ends)]
    exact ⟨rfl, Nat.le_trans grows (Nat.le_succ _), fun _ => rfl⟩

end Counting

theorem callNative_steps (host : Host σ) (callee : String) (f : Native) (args : List Value)
    (m : Machine σ) : (callNative host callee f args m).2.steps = m.steps := by
  rcases h : host.call f args m with ⟨result, after⟩
  cases result with
  | ok v => simp only [Script.callNative, Script.outside, h]
  | error why => simp only [Script.callNative, Script.outside, h]

section Hosts

variable {N n : Nat} {s : Standing} {host other : Host σ}

theorem readName (env : Env) (name : String) :
    Fenced N n s (readName host env name) (readName (host.replacedAfter N other) env name) :=
  sequential.readName (host.replacedAfter_has N other) env name
    (outside fun _ within => if_pos within)

theorem writeName (env : Env) (name : String) (v : Value) :
    Fenced N n s (writeName host env name v)
      (writeName (host.replacedAfter N other) env name v) :=
  sequential.writeName (fun _ h => of_steps fun m => (h m).1) (host.replacedAfter_has N other)
    env name v (outside fun _ within => if_pos within)

theorem writeMember (holder property v : Value) :
    Fenced (σ := σ) N n s (writeMember holder property v) (writeMember holder property v) :=
  sequential.writeMember (fun _ h => of_steps fun m => (h m).1) holder property v

theorem callNative (callee : String) (f : Native) (args : List Value) :
    Fenced N n s (callNative host callee f args)
      (callNative (host.replacedAfter N other) callee f args) := by
  intro m within _
  have same : Script.outside ((host.replacedAfter N other).call f args) m =
      Script.outside (host.call f args) m := by
    simp only [Script.outside, Host.replacedAfter, if_pos within]
  have kept : (Script.callNative host callee f args m).2.steps = m.steps := by
    exact callNative_steps host callee f args m
  refine ⟨?_, by omega, fun beyond => by omega⟩
  simp only [Script.callNative, same]

end Hosts

end Fenced

theorem fenced_compatible {N : Nat} (hN : 0 < N) (host other : Host σ) (k : Nat) :
    Compatible host (host.replacedAfter N other) N N k (fun _ => True) (Fenced N) where
  toSequential := Fenced.sequential
  has_eq := host.replacedAfter_has N other
  count := Fenced.count hN
  list _ := Fenced.of_steps fun _ => rfl
  object _ := Fenced.of_steps fun _ => rfl
  closure _ := Fenced.of_steps fun _ => rfl
  reads := Fenced.readName _
  writes := Fenced.writeName _
  writesMember := Fenced.writeMember
  native := Fenced.callNative
  binds _ _ _ _ := Fenced.of_steps fun _ => rfl
  leaves i _ _ := Fenced.raise i
  counted := Fenced.counted hN
  exhausted _ _ := Fenced.exhausted _
  lower := Fenced.lower
  round h := h.ending goesOn_ending
  body h := h.ending bodyValue_ending
  handle := Fenced.handled
  finish := Fenced.finalized hN
  scope h := (Fenced.of_steps fun _ => rfl).seq h
  enters _ h := (Fenced.of_steps fun _ => rfl).seq h
  inner := Fenced.deeper
  passes h := h
  known _ h := Fenced.look fun m => h m fun _ _ => trivial

theorem Host.replacedAfter_self (N : Nat) (host : Host σ) : host.replacedAfter N host = host := by
  simp only [Host.replacedAfter, ite_self]

theorem fuelFor_pos {N : Nat} (hN : 0 < N) : fuelFor N = N + 1 := by
  have positive : ¬N = 0 := by omega
  simp only [fuelFor, beq_iff_eq, if_neg positive]

theorem runWith_fenced {N : Nat} (hN : 0 < N) (host other : Host σ) (k : Nat) (p : Program) :
    Fenced N (N + 1) { env := rootEnv } (runWith host N (N + 1) p)
      (runWith (host.replacedAfter N other) N (N + 1 + k) p) :=
  ((fenced_compatible hN host other k).script (N + 1) p.body).ending scriptValue_ending

theorem run_fenced {N : Nat} (hN : 0 < N) (host : Host σ) (p : Program) (m : Machine σ) :
    (N < (run host N p m).2.steps → (run host N p m).1 = .error (.stepLimit N)) ∧
    ((run host N p m).1 ≠ .error (.stepLimit N) → (run host N p m).2.steps ≤ N) ∧
    (∀ other, run (host.replacedAfter N other) N p m = run host N p m) ∧
    ∀ fuel, N < fuel → runWith host N fuel p m.rewound = run host N p m := by
  have start : m.rewound.steps ≤ N := Nat.zero_le N
  have fuel : N < m.rewound.steps + (N + 1) := by omega
  have ran (h : Host σ) : run h N p m = runWith h N (N + 1) p m.rewound := by
    simp only [run, fuelFor_pos hN]
  rw [ran host]
  have fence := (runWith_fenced hN host host 0 p m.rewound start fuel).2.2
  refine ⟨fence, ?_, ?_, ?_⟩
  · intro other
    exact Nat.le_of_not_lt fun beyond => other (fence beyond)
  · intro other
    rw [ran]
    exact (runWith_fenced hN host other 0 p m.rewound start fuel).1
  · intro given enough
    obtain ⟨k, rfl⟩ := Nat.exists_eq_add_of_lt enough
    have more := (runWith_fenced hN host host k p m.rewound start fuel).1
    rw [Host.replacedAfter_self] at more
    rw [← more]
    congr 1
    omega

/-- An endless loop whose finalizer returns. -/
def endlessAttempt : Program :=
  ⟨[.attempt (.mk [.whileLoop (.literal (.bool true)) (.block (.mk []))]) none
    (some (.mk [.returning (some (.number 1.0))]))]⟩

theorem run_fenced_endlessAttempt :
    0 < 3 ∧ 3 < (run bindingsHost 3 endlessAttempt (.start [])).2.steps ∧
      (run bindingsHost 3 endlessAttempt (.start [])).1 = .error (.stepLimit 3) := by
  have beyond : 3 < (run bindingsHost 3 endlessAttempt (.start [])).2.steps := by decide
  have fenced := run_fenced (by decide : 0 < 3) bindingsHost endlessAttempt (.start [])
  exact ⟨by decide, beyond, fenced.1 beyond⟩

end EmitterLogic.Script
