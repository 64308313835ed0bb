import EmitterLogic.Proofs.Script.GivingUp
import EmitterLogic.Proofs.Script.Limit
import EmitterLogic.Script.Bindings

/-!
How deep calls of functions nest. The machine counts the calls whose bodies are carried out; a call
that still works out the defaults of its parameters is open too, but not counted. So the bound on
open calls is one on bodies, and holds for all calls where none is made for a default. Calls nest as
deep after a piece of code as before it: however code ends, it leaves the count of open calls as it was,
so what is left of the bound is not used up by errors, caught or not.
-/

namespace EmitterLogic.Script

variable {σ α β : Type}

/-- The open calls around a piece of code: those whose bodies are carried out, and those that work
out the defaults of their parameters. -/
structure Around where
  running : Nat := 0
  waiting : Nat := 0

namespace Around

def inBody (c : Around) : Around := { c with running := c.running + 1 }

def inDefault (c : Around) : Around := { c with waiting := c.waiting + 1 }

def total (c : Around) : Nat := c.running + c.waiting

end Around

/-- Ways to carry out a call, with fuel, amid the calls around it. -/
abbrev CallAround (σ : Type) := Nat → Around → Nat → List Value → Run σ Value

section Counting

variable (host : Host σ) (limit : Nat)

def countedClosure (fuel : Nat) (call : Around → Nat → List Value → Run σ Value) (c : Around)
    (args : List Value) : Option Closure → Run σ Value
  | none => return .undefined
  | some ⟨.mk _ params body, env⟩ => do
    let env := (← newScope) :: env
    bindParams host limit (call c.inDefault) env params args
    deeper (runBody host limit fuel (call c.inBody) env body)

/-- Calls a function amid the calls around it, which are counted along the code and not by the
machine. In place of a call that is not admitted another one is made. -/
def countedCall (admits : Around → Bool) (other : CallAround σ) : CallAround σ
  | 0, _, _, _ => do
    step limit
    throw .outOfFuel
  | fuel + 1, c, place, args => do
    step limit
    let m ← get
    if maxCallDepth ≤ c.running then fail .callDepth
    if admits c then
      countedClosure host limit fuel (countedCall admits other fuel) c args m.closures[place]?
    else other fuel c place args

/-- Runs a script with its open calls counted along the code. -/
def countedRun (admits : Around → Bool) (other : CallAround σ) (p : Program) : Run σ Value :=
  fun m =>
    let fuel := fuelFor limit
    scriptValue (execBody host limit fuel (countedCall host limit admits other fuel {}) rootEnv
      p.body) m.rewound

end Counting

def Tallied (a : Nat) : RunRel σ := fun _ _ _ r r' =>
  ∀ m, m.depth = a → r' m = r m ∧ (r m).2.depth = a

namespace Tallied

variable {a n : Nat} {s : Standing} {host : Host σ}

theorem of_depth {r : Run σ α} (h : ∀ m, (r m).2.depth = m.depth) : Tallied a n s r r := by
  intro m at_a
  exact ⟨rfl, (h m).trans at_a⟩

theorem look {f f' : Machine σ → Run σ α}
    (h : ∀ m, m.depth = a → Tallied a n s (f m) (f' m)) :
    Tallied a n s (get >>= f) (get >>= f') := by
  intro m at_a
  exact h m at_a m at_a

theorem seq {x x' : Run σ α} {f f' : α → Run σ β} (hx : Tallied a n s x x')
    (hf : ∀ b, Tallied a n s (f b) (f' b)) : Tallied a n s (x >>= f) (x' >>= f') := by
  intro m at_a
  obtain ⟨same, depth⟩ := hx m at_a
  rcases h : x m with ⟨result, after⟩
  rw [h] at same depth
  cases result with
  | error i =>
    rw [seq_error h, seq_error same]
    exact ⟨rfl, depth⟩
  | ok b =>
    rw [seq_ok h, seq_ok same]
    exact hf b after depth

theorem sequential : Sequential (Tallied a : RunRel σ) where
  value _ := of_depth fun _ => rfl
  raise _ _ _ _ := of_depth fun _ => rfl
  seq := seq
  look _ h := look fun m _ => h m

theorem ending {op : Run σ α → Run σ β} (hop : Ending op) {x x' : Run σ α}
    (h : Tallied a n s x x') : Tallied a n s (op x) (op x') := by
  intro m at_a
  obtain ⟨same, depth⟩ := h m at_a
  refine ⟨hop.only x x' m same, ?_⟩
  rw [hop.keeps x m]
  exact depth

theorem handled {x x' : Run σ Unit} {f f' : Value → Run σ Unit} (hx : Tallied a n s x x')
    (hf : ∀ v, Tallied a n s (f v) (f' v)) :
    Tallied a n s (handled x (some f)) (handled x' (some f')) := by
  intro m at_a
  obtain ⟨same, depth⟩ := hx m at_a
  rcases h : x m with ⟨result, after⟩
  rw [h] at same depth
  cases result with
  | ok u =>
    simp only [Script.handled, h, same]
    exact ⟨trivial, depth⟩
  | error i =>
    cases caught : i.caught? with
    | none =>
      simp only [Script.handled, h, same, caught]
      exact ⟨trivial, depth⟩
    | some v =>
      simp only [Script.handled, h, same, caught]
      exact hf v after depth

theorem finalized {x x' last last' : Run σ Unit} (hx : Tallied a n s x x')
    (hlast : Tallied a n s last last') :
    Tallied a n s (finalized x (some last)) (finalized x' (some last')) := by
  intro m at_a
  obtain ⟨same, depth⟩ := hx m at_a
  rcases h : x m with ⟨result, after⟩
  rw [h] at same depth
  by_cases spent : result = .error .outOfFuel
  · subst spent
    simp only [Script.finalized, h, same]
    exact ⟨trivial, depth⟩
  · obtain ⟨same', depth'⟩ := hlast after depth
    rcases e : last after with ⟨result', done⟩
    rw [e] at same' depth'
    cases result' with
    | ok u =>
      rw [finalized_ok h spent e, finalized_ok same spent same']
      exact ⟨rfl, depth'⟩
    | error i =>
      rw [finalized_error h spent e, finalized_error same spent same']
      exact ⟨rfl, depth'⟩

theorem callNative (callee : String) (f : Native) (args : List Value) :
    Tallied a n s (callNative host callee f args) (callNative host callee f args) := by
  refine of_depth fun m => ?_
  rcases h : host.call f args m with ⟨result, after⟩
  cases result with
  | ok v => simp only [Script.callNative, outside, h]
  | error why => simp only [Script.callNative, outside, h]

theorem deeper {x x' : Run σ α} (h : Tallied (a + 1) n s x x') :
    Tallied a n s (deeper x) (deeper x') := by
  intro m at_a
  obtain ⟨same, depth⟩ := h { m with depth := m.depth + 1 } (congrArg (· + 1) at_a)
  simp only [Script.deeper, same]
  exact ⟨trivial, congrArg (· - 1) depth⟩

end Tallied

theorem tallied_executing (host : Host σ) (limit a : Nat) :
    Executing host host limit limit 0 (Tallied a) where
  toSequential := Tallied.sequential
  has_eq := rfl
  count := Tallied.of_depth fun _ => rfl
  list _ := Tallied.of_depth fun _ => rfl
  object _ := Tallied.of_depth fun _ => rfl
  closure _ := Tallied.of_depth fun _ => rfl
  reads name := Tallied.sequential.readName rfl _ name (Tallied.of_depth fun _ => rfl)
  writes name v := Tallied.sequential.writeName
    (fun _ h => Tallied.of_depth fun m => (h m).2.1) rfl _ name v (Tallied.of_depth fun _ => rfl)
  writesMember holder property v := Tallied.sequential.writeMember
    (fun _ h => Tallied.of_depth fun m => (h m).2.1) holder property v
  native := Tallied.callNative
  binds _ _ _ _ := Tallied.of_depth fun _ => rfl
  leaves _ _ _ := Tallied.of_depth fun _ => rfl
  counted h := (Tallied.of_depth fun _ => rfl).seq fun _ => h
  exhausted x' same := by
    rw [same rfl]
    exact (Tallied.of_depth fun _ => rfl).seq fun _ => Tallied.of_depth fun _ => rfl
  lower h := h
  round h := h.ending goesOn_ending
  body h := h.ending bodyValue_ending
  handle := Tallied.handled
  finish hx hlast := Tallied.finalized hx ((Tallied.of_depth fun _ => rfl).seq fun _ => hlast)
  scope h := (Tallied.of_depth fun _ => rfl).seq h

section Calls

variable {host : Host σ} {limit : Nat}

theorem countedClosure_tallied {fuel n : Nat} {s : Standing} {c : Around}
    {call : Nat → List Value → Run σ Value} {call' : Around → Nat → List Value → Run σ Value}
    (hcall : ∀ around : Around,
      RunRel.Calls (Tallied around.running) fuel call (call' around))
    (args : List Value) (closure? : Option Closure) :
    Tallied c.running n s (runClosure host limit fuel call args closure?)
      (countedClosure host limit fuel call' c args closure?) := by
  cases closure? with
  | none => exact Tallied.sequential.value _
  | some closure =>
    obtain ⟨⟨_, params, body⟩, env⟩ := closure
    refine (tallied_executing host limit _).scope fun place => ?_
    -- a default is worked out at the depth of the call, the body one deeper
    have bound := (tallied_executing host limit _).bindParams (s := { env := place :: env }) rfl
      (hcall c.inDefault) params args
    have ran := (tallied_executing host limit _).runBody (s := { env := place :: env })
      (hcall c.inBody) rfl body (.inl rfl)
    exact bound.seq fun _ => ran.deeper

theorem countedCall_tallied (other : CallAround σ) (fuel : Nat) {n : Nat} {s : Standing}
    (c : Around) (place : Nat) (args : List Value) :
    Tallied c.running n s (invoke host limit fuel place args)
      (countedCall host limit (fun _ => true) other fuel c place args) := by
  induction fuel generalizing n s c place args with
  | zero =>
    exact (Tallied.of_depth fun _ => rfl).seq fun _ => Tallied.of_depth fun _ => rfl
  | succ fuel ih =>
    refine (Tallied.of_depth fun _ => rfl).seq fun _ => Tallied.look fun m at_running => ?_
    have entered : Tallied c.running n s
        (runClosure host limit fuel (invoke host limit fuel) args m.closures[place]?)
        (countedClosure host limit fuel (countedCall host limit (fun _ => true) other fuel) c args
          m.closures[place]?) :=
      countedClosure_tallied (fun around s place args => ih around place args) args _
    rw [at_running]
    exact RunRel.choose (R := Tallied c.running) _
      (Tallied.sequential.seq (Tallied.sequential.raise _) fun _ => entered) entered

theorem countedRun_tallied (other : CallAround σ) (p : Program) (m : Machine σ) :
    countedRun host limit (fun _ => true) other p m = run host limit p m :=
  (((tallied_executing host limit 0).execBody (s := { env := rootEnv }) (fun _ place args =>
    countedCall_tallied other (fuelFor limit) {} place args) rfl p.body (.inl rfl)).ending
      scriptValue_ending m.rewound rfl).1

theorem countedClosure_abridges {fuel n : Nat} {s : Standing} (c : Around)
    {call call' : Around → Nat → List Value → Run σ Value}
    (hcall : ∀ around, RunRel.Calls Abridges fuel (call around) (call' around))
    (args : List Value) (closure? : Option Closure) :
    Abridges n s (countedClosure host limit fuel call c args closure?)
      (countedClosure host limit fuel call' c args closure?) := by
  cases closure? with
  | none => exact .refl _
  | some closure =>
    obtain ⟨⟨_, params, body⟩, env⟩ := closure
    have hR := abridges_compatible (σ := σ) host limit 0
    refine (Abridges.refl _).seq fun place => ?_
    have bound := hR.bindParams (s := { env := place :: env }) rfl (hcall c.inDefault) params args
    have ran := hR.runBody (s := { env := place :: env }) (hcall c.inBody) rfl body (.inl rfl)
    exact bound.seq fun _ => ran.deeper

theorem countedCall_abridges {admits more : Around → Bool}
    (le : ∀ c, c.running < maxCallDepth → admits c = true → more c = true)
    (other : CallAround σ) (fuel : Nat) {n : Nat} {s : Standing} (c : Around)
    (place : Nat) (args : List Value) :
    Abridges n s (countedCall host limit admits (fun _ _ _ _ => giveUp) fuel c place args)
      (countedCall host limit more other fuel c place args) := by
  induction fuel generalizing n s c place args with
  | zero => exact .refl _
  | succ fuel ih =>
    refine (Abridges.refl _).seq fun _ => Abridges.look fun m => ?_
    by_cases deep : maxCallDepth ≤ c.running
    · rw [if_pos deep, if_pos deep]
      exact .refl _
    rw [if_neg deep, if_neg deep]
    cases admitted : admits c with
    | false => exact .givenUp _
    | true =>
      rw [le c (Nat.lt_of_not_le deep) admitted]
      exact countedClosure_abridges c (fun around s place args => ih around place args) args _

theorem countedRun_abridges {admits more : Around → Bool}
    (le : ∀ c, c.running < maxCallDepth → admits c = true → more c = true)
    (other : CallAround σ) (p : Program) {m : Machine σ}
    (goes : spent (countedRun host limit admits (fun _ _ _ _ => giveUp) p m).1 = false) :
    countedRun host limit more other p m =
      countedRun host limit admits (fun _ _ _ _ => giveUp) p m :=
  (((abridges_compatible host limit 0).execBody (s := { env := rootEnv }) (fun _ place args =>
    countedCall_abridges le other (fuelFor limit) {} place args) rfl p.body (.inl rfl)).ending
      scriptValue_ending).eq_of_not_spent goes

end Calls

/-- A call is refused exactly if sixty-four bodies are carried out around it. In a run that makes no
call while more than `k` others work out defaults, no call is made amid more than `64 + k` open ones. -/
theorem run_calls_bounded (host : Host σ) (limit k : Nat) (p : Program) (m : Machine σ)
    (few : spent (countedRun host limit (fun c => c.waiting ≤ k) (fun _ _ _ _ => giveUp) p m).1 =
      false) (other : CallAround σ) :
    countedRun host limit (fun _ => true) other p m = run host limit p m ∧
    countedRun host limit (fun c => c.total < maxCallDepth + k) other p m = run host limit p m := by
  refine ⟨countedRun_tallied other p m, ?_⟩
  have bounded : ∀ c : Around, c.running < maxCallDepth → decide (c.waiting ≤ k) = true →
      decide (c.total < maxCallDepth + k) = true := by
    intro c running waiting
    have waiting := of_decide_eq_true waiting
    refine decide_eq_true ?_
    rw [Around.total]
    omega
  rw [countedRun_abridges bounded other p few, ← countedRun_tallied other p m]
  exact (countedRun_abridges (fun _ _ _ => rfl) other p few).symm

/-- A function that calls itself in its body, without end. -/
def endlessBody : Program :=
  ⟨[.func (.mk "f" [] (.concise (.call (.name "f" 0) []))), .expr (.call (.name "f" 0) [])]⟩

theorem run_calls_bounded_endlessBody :
    spent (countedRun bindingsHost 0 (fun c => c.waiting ≤ 0) (fun _ _ _ _ => giveUp) endlessBody
      (.start [])).1 = false ∧
    ∀ other, countedRun bindingsHost 0 (fun c => c.total < maxCallDepth + 0) other endlessBody
      (.start []) = run bindingsHost 0 endlessBody (.start []) := by
  have few : spent (countedRun bindingsHost 0 (fun c => c.waiting ≤ 0) (fun _ _ _ _ => giveUp)
      endlessBody (.start [])).1 = false := by decide +kernel
  exact ⟨few, fun other => (run_calls_bounded bindingsHost 0 0 endlessBody _ few other).2⟩

/-- A function that calls itself for the default of its parameter, without end. -/
def endlessDefault : Program :=
  ⟨[.func (.mk "f" [.mk "a" (some (.call (.name "f" 0) []))] (.block (.mk []))),
    .expr (.call (.name "f" 0) [])]⟩

def stopped (r : Except Interrupt Value) : Bool :=
  match r with
  | .error (.stepLimit _) => true
  | _ => false

/-- Were all open calls counted, the sixty-fifth would be refused here; the run goes on to seventy
steps. -/
theorem run_calls_unbounded :
    countedRun bindingsHost 70 (fun c => c.total < maxCallDepth) (fun _ _ _ _ => fail .callDepth)
      endlessDefault (.start []) ≠ run bindingsHost 70 endlessDefault (.start []) := by
  intro same
  have ran : stopped (run bindingsHost 70 endlessDefault (.start [])).1 = true := by
    decide +kernel
  have refused : stopped (countedRun bindingsHost 70 (fun c => c.total < maxCallDepth)
      (fun _ _ _ _ => fail .callDepth) endlessDefault (.start [])).1 = false := by decide +kernel
  rw [← same, refused] at ran
  cases ran

section Restored

variable {host : Host σ} {limit fuel : Nat} {env : Env} {m : Machine σ}

section Tower

variable {place : Nat} {args : List Value} {after : Machine σ}

theorem invoke_refused (counted : step limit m = (.ok (), after))
    (deep : maxCallDepth ≤ after.depth) :
    invoke host limit (fuel + 1) place args m = (.error (.failed .callDepth), after) := by
  rw [invoke, seq_ok counted]
  exact congrFun (if_pos deep) after

theorem invoke_entered (counted : step limit m = (.ok (), after))
    (room : ¬maxCallDepth ≤ after.depth) :
    invoke host limit (fuel + 1) place args m =
      runClosure host limit fuel (invoke host limit fuel) args after.closures[place]? after := by
  rw [invoke, seq_ok counted]
  exact congrFun (if_neg room) after

/-- An expression that calls `n` functions, each in the body of the one before. -/
def nestedCalls : Nat → Expr
  | 0 => .literal .undefined
  | n + 1 => .call (.func (.mk "" [] (.concise (nestedCalls n)))) []

theorem nestedCalls_result (host : Host σ) {n : Nat} (fueled : n ≤ fuel)
    (allowed : Allows limit (m.steps + n)) (env : Env) :
    (evalExpr host limit (invoke host limit fuel) env (nestedCalls n) m).1 =
      if n ≤ maxCallDepth - m.depth then .ok .undefined else .error (.failed .callDepth) := by
  -- One call is taken off with one of the open bodies that the bound leaves.
  induction n generalizing fuel m env with
  | zero =>
    rw [if_pos (Nat.zero_le _), nestedCalls, evalExpr]
    rfl
  | succ n ih =>
    obtain ⟨fuel, rfl⟩ : ∃ k, fuel = k + 1 := ⟨fuel - 1, by omega⟩
    let c : Closure := ⟨.mk "" [] (.concise (nestedCalls n)), env⟩
    let called : Machine σ := { (m.addClosure c).2 with steps := m.steps + 1 }
    have counted : step limit (m.addClosure c).2 = (.ok (), called) :=
      step_allowed allowed (by simp only [Machine.addClosure]; omega)
    have reached : evalExpr host limit (invoke host limit (fuel + 1)) env (nestedCalls (n + 1)) m =
        invoke host limit (fuel + 1) m.closures.size [] (m.addClosure c).2 := by
      simp only [nestedCalls, evalExpr, evalArgs]
      rfl
    have found : called.closures[m.closures.size]? = some c := Array.getElem?_push_size
    by_cases deep : maxCallDepth ≤ m.depth
    · rw [reached, invoke_refused counted deep, if_neg (by omega)]
    · let inside : Machine σ := { called.addScope.2 with depth := m.depth + 1 }
      have entered : (invoke host limit (fuel + 1) m.closures.size [] (m.addClosure c).2).1 =
          (evalExpr host limit (invoke host limit fuel) (called.scopes.size :: env)
            (nestedCalls n) inside).1 := by
        rw [invoke_entered counted deep, found]
        rfl
      have room : Allows limit (inside.steps + n) := by
        show Allows limit (m.steps + 1 + n)
        rwa [Nat.add_right_comm]
      have inner : (evalExpr host limit (invoke host limit fuel) (called.scopes.size :: env)
          (nestedCalls n) inside).1 =
            if n ≤ maxCallDepth - (m.depth + 1) then .ok .undefined else .error (.failed .callDepth) :=
        ih (by omega) room (called.scopes.size :: env)
      rw [reached, entered, inner]
      have same : n ≤ maxCallDepth - (m.depth + 1) ↔ n + 1 ≤ maxCallDepth - m.depth := by omega
      simp only [same]

end Tower

/-- As many calls are open as before, and so calls nest as deep as before. -/
structure Restores (host : Host σ) (limit : Nat) (before after : Machine σ) : Prop where
  depth : after.depth = before.depth
  nesting (n fuel : Nat) (env : Env) : n ≤ fuel → Allows limit (after.steps + n) →
    (evalExpr host limit (invoke host limit fuel) env (nestedCalls n) after).1 =
      if n ≤ maxCallDepth - before.depth then .ok .undefined else .error (.failed .callDepth)

theorem Restores.of_depth {after : Machine σ} (same : after.depth = m.depth) :
    Restores host limit m after where
  depth := same
  nesting n fuel env fueled allowed := by
    rw [nestedCalls_result host fueled allowed env, same]

theorem handled_caught {body : Run σ Unit} {handler : Value → Run σ Unit} {after : Machine σ}
    {i : Interrupt} {v : Value} (failed : body m = (.error i, after)) (caught : i.caught? = some v) :
    handled body (some handler) m = handler v after := by
  simp only [handled, failed, caught]

theorem step_depth (limit : Nat) (m : Machine σ) : (step limit m).2.depth = m.depth := rfl

theorem step_error {after : Machine σ} {i : Interrupt} (h : step limit m = (.error i, after)) :
    i = .stepLimit limit := by
  simp only [step] at h
  split at h
  · cases h
    rfl
  · cases h

section Depth

variable (host : Host σ) (limit fuel : Nat)

theorem invoke_tallied (depth : Nat) :
    RunRel.Calls (Tallied depth) fuel (invoke host limit fuel)
      (countedCall host limit (fun _ => true) (fun _ _ _ _ => giveUp) fuel { running := depth }) :=
  fun _ place args => countedCall_tallied _ fuel { running := depth } place args

theorem invoke_depth (place : Nat) (args : List Value) (m : Machine σ) :
    (invoke host limit fuel place args m).2.depth = m.depth :=
  (invoke_tallied host limit fuel m.depth { env := rootEnv } place args m rfl).2

theorem evalExpr_depth (env : Env) (e : Expr) (m : Machine σ) :
    (evalExpr host limit (invoke host limit fuel) env e m).2.depth = m.depth :=
  ((tallied_executing host limit m.depth).evalExpr (s := { env })
    (invoke_tallied host limit fuel m.depth) e m rfl).2

theorem exec_depth (env : Env) (statement : Stmt) (m : Machine σ) :
    (exec host limit fuel (invoke host limit fuel) env statement m).2.depth = m.depth :=
  ((tallied_executing host limit m.depth).exec (s := { env })
    (invoke_tallied host limit fuel m.depth) statement (.inl rfl) (.inl rfl) m rfl).2

theorem execBlock_depth (env : Env) (block : Block) (m : Machine σ) :
    (execBlock host limit fuel (invoke host limit fuel) env block m).2.depth = m.depth :=
  ((tallied_executing host limit m.depth).execBlock (s := { env })
    (invoke_tallied host limit fuel m.depth) block (.inl rfl) m rfl).2

end Depth

/-- However an expression, a statement or a call ends, it leaves as many calls open as there were. So
does the body of a try statement, behind whose error the handler goes on: there and afterwards calls
nest as deep as before. -/
theorem run_restores_depth (host : Host σ) (limit fuel : Nat) (env : Env) (m : Machine σ) :
    let call := invoke host limit fuel
    (∀ e, Restores host limit m (evalExpr host limit call env e m).2) ∧
    (∀ statement, Restores host limit m (exec host limit fuel call env statement m).2) ∧
    (∀ place args, Restores host limit m (call place args m).2) ∧
    ∀ body handler i v after,
      (step limit >>= fun _ => execBlock host limit fuel call env body) m = (.error i, after) →
      i.caught? = some v →
      Restores host limit m after ∧
        ∀ f, execCatch host limit fuel call env (some handler) = some f →
          exec host limit fuel call env (.attempt body (some handler) none) m = f v after := by
  intro call
  refine ⟨fun e => .of_depth (evalExpr_depth host limit fuel env e m),
    fun statement => .of_depth (exec_depth host limit fuel env statement m),
    fun place args => .of_depth (invoke_depth host limit fuel place args m), ?_⟩
  intro body handler i v after failed caught
  rcases counted : step limit m with ⟨result, started⟩
  cases result with
  | error j =>
    rw [seq_error counted] at failed
    cases failed
    rw [step_error counted] at caught
    cases caught
  | ok u =>
    rw [seq_ok counted] at failed
    have at_start : started.depth = m.depth := by
      rw [← step_depth limit m, counted]
    have at_end := execBlock_depth host limit fuel env body started
    rw [failed] at at_end
    refine ⟨.of_depth (at_end.trans at_start), fun f handles => ?_⟩
    simp only [exec, execFinally, finalized_none]
    rw [seq_ok counted, handles]
    exact handled_caught failed caught

def failureOf : Except Interrupt Unit → Option RuntimeError
  | .error (.failed e) => some e
  | _ => none

theorem of_failureOf {r : Except Interrupt Unit} {e : RuntimeError} (h : failureOf r = some e) :
    r = .error (.failed e) := by
  cases r with
  | ok u => cases h
  | error i =>
    cases i with
    | failed e' => rw [Option.some.inj h]
    | _ => cases h

/-- A machine on which the function of `endlessBody` is declared. -/
def endlessDeclared : Machine (Fields Value) :=
  (hoist rootEnv endlessBody.body (.start [])).2

/-- The body of a try statement that calls the function. -/
def endlessTry : Run (Fields Value) Unit :=
  step 0 >>= fun _ => execBlock bindingsHost 0 70 (invoke bindingsHost 0 70) rootEnv
    (.mk [.expr (.call (.name "f" 0) [])])

theorem run_restores_depth_endless :
    (endlessTry endlessDeclared).1 = .error (.failed .callDepth) ∧
    (Interrupt.failed .callDepth).caught? = some (.text "Maximum call stack size exceeded") ∧
    (evalExpr bindingsHost 0 (invoke bindingsHost 0 70) rootEnv (nestedCalls 64)
      (endlessTry endlessDeclared).2).1 = .ok .undefined ∧
    (evalExpr bindingsHost 0 (invoke bindingsHost 0 70) rootEnv (nestedCalls 65)
      (endlessTry endlessDeclared).2).1 = .error (.failed .callDepth) := by
  have refused : (endlessTry endlessDeclared).1 = .error (.failed .callDepth) :=
    of_failureOf (by decide +kernel)
  have closed : endlessDeclared.depth = 0 := by decide +kernel
  rcases failed : endlessTry endlessDeclared with ⟨result, after⟩
  simp only [failed] at refused ⊢
  subst refused
  refine ⟨rfl, rfl, ?_⟩
  rw [endlessTry] at failed
  have restored := ((run_restores_depth bindingsHost 0 70 rootEnv endlessDeclared).2.2.2
    (.mk [.expr (.call (.name "f" 0) [])]) (.mk none (.mk [])) _ _ after failed rfl).1
  have within := restored.nesting 64 70 rootEnv (by decide) (.inl rfl)
  have beyond := restored.nesting 65 70 rootEnv (by decide) (.inl rfl)
  rw [closed, if_pos (by decide)] at within
  rw [closed, if_neg (by decide)] at beyond
  exact ⟨within, beyond⟩

end Restored

end EmitterLogic.Script
