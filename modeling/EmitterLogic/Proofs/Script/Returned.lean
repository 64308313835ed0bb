import EmitterLogic.Proofs.Script.Compatible
import EmitterLogic.Script.Bindings

/-!
Functions whose body is one return. Without a limit nothing depends on the count of steps, and no
expression ends with a return. So a call of a function that returns an expression does what a call of the
function that is that expression does, a step later; but where the expression is null, the call of the
first one gives undefined.
-/

namespace EmitterLogic.Script

variable {σ α β : Type}

/-- The machine some steps later. -/
def Machine.later (m : Machine σ) (k : Nat) : Machine σ := { m with steps := m.steps + k }

/-- A run that does the same whatever steps were counted before it. -/
def Unclocked {ε : Type} (r : ExceptT ε (StateM (Machine σ)) α) : Prop :=
  ∀ m k, r (m.later k) = ((r m).1, (r m).2.later k)

/-- A host that neither looks at the count of steps nor answers with a return. -/
structure Host.Steady (host : Host σ) : Prop where
  read (name : String) : Unclocked (host.read name)
  write (name : String) (v : Value) : Unclocked (host.write name v)
  call (f : Native) (args : List Value) : Unclocked (host.call f args)
  read_ends (name : String) (m : Machine σ) (v : Value) :
    (host.read name m).1 ≠ .error (.returned v)
  write_ends (name : String) (w : Value) (m : Machine σ) (v : Value) :
    (host.write name w m).1 ≠ .error (.returned v)

def IsUnclocked : RunRel σ := fun _ _ _ r _ => Unclocked r

namespace Unclocked

section Pieces

variable {ε : Type}

theorem value (a : α) : Unclocked (pure a : ExceptT ε (StateM (Machine σ)) α) := fun _ _ => rfl

theorem raise (e : ε) : Unclocked (throw e : ExceptT ε (StateM (Machine σ)) α) := fun _ _ => rfl

theorem seq {x : ExceptT ε (StateM (Machine σ)) α} {f : α → ExceptT ε (StateM (Machine σ)) β}
    (hx : Unclocked x) (hf : ∀ a, Unclocked (f a)) : Unclocked (x >>= f) := by
  intro m k
  have later := hx m k
  rcases h : x m with ⟨result, after⟩
  rw [h] at later
  simp only [bind, ExceptT.bind, ExceptT.mk, StateT.bind, h, later]
  cases result with
  | error e => rfl
  | ok a => exact hf a after k

theorem look {f : Machine σ → ExceptT ε (StateM (Machine σ)) α}
    (blind : ∀ m k, f (m.clocked k) = f m) (h : ∀ m, Unclocked (f m)) : Unclocked (get >>= f) := by
  intro m k
  have same : f (m.later k) = f m := blind m (m.steps + k)
  change f (m.later k) (m.later k) = ((f m m).1, (f m m).2.later k)
  rw [same]
  exact h m m k

theorem choose (c : Prop) [Decidable c] {x y : ExceptT ε (StateM (Machine σ)) α} (hx : Unclocked x)
    (hy : Unclocked y) : Unclocked (if c then x else y) := by
  split
  · exact hx
  · exact hy

theorem stored {f : Machine σ → Machine σ} (blind : ∀ m k, f (m.later k) = (f m).later k) :
    Unclocked (modify f : ExceptT ε (StateM (Machine σ)) Unit) := fun m k => Prod.ext rfl (blind m k)

theorem outside {r : ExceptT ε (StateM (Machine σ)) α} (h : Unclocked r) : Unclocked (outside r) := by
  intro m k
  simp only [Script.outside, h m k]
  rfl

end Pieces

theorem sequential : Sequential (IsUnclocked : RunRel σ) where
  value a := value a
  raise i _ _ _ := raise i
  seq := seq
  look := look

theorem count : Unclocked (step 0 : Run σ Unit) := fun m k => by
  rw [step, step]
  exact congrArg (fun n => (Except.ok (), { m with steps := n })) (Nat.add_right_comm _ _ _)

theorem writeName {host : Host σ} (hH : host.Steady) (env : Env) (name : String) (v : Value) :
    Unclocked (writeName host env name v) := by
  refine look (fun m k => by rw [placeOf_clocked]; rfl) fun m => ?_
  cases placeOf host m name env with
  | host => exact (hH.write name v).outside
  | nowhere => exact stored fun _ _ => rfl
  | scope place =>
    exact choose _ ((raise _).seq fun _ => stored fun _ _ => rfl) (stored fun _ _ => rfl)

theorem writeMember (holder property v : Value) :
    Unclocked (writeMember holder property v : Run σ Unit) := by
  have texts (v : Value) : Unclocked (Script.textOf v : Run σ String) :=
    sequential.textOf (n := 0) (s := { env := rootEnv }) v
  have refused : Unclocked (refuseWrite holder property : Run σ Unit) :=
    (texts property).seq fun _ => (texts holder).seq fun _ => raise _
  cases holder with
  | object place =>
    refine (texts property).seq fun key => look (fun _ _ => rfl) fun m => ?_
    exact choose _ ((raise _).seq fun _ => stored fun _ _ => rfl) (stored fun _ _ => rfl)
  | list place =>
    refine seq (sequential.orFault (n := 0) (s := { env := rootEnv }) _) fun position => ?_
    split
    · exact stored fun _ _ => rfl
    · exact refused
  | _ => exact refused

theorem callNative {host : Host σ} (hH : host.Steady) (callee : String) (f : Native)
    (args : List Value) : Unclocked (callNative host callee f args) := by
  intro m k
  have later := (hH.call f args).outside m k
  rcases answer : Script.outside (host.call f args) m with ⟨result, after⟩
  rw [answer] at later
  simp only [Script.callNative, later, answer]
  cases result with
  | ok v => rfl
  | error why => rfl

theorem ending {op : Run σ α → Run σ β} (hop : Ending op) {x : Run σ α} (h : Unclocked x) :
    Unclocked (op x) := by
  refine fun m k => Prod.ext (hop.result x m (m.later k) ?_) ?_
  · rw [h m k]
  · rw [hop.keeps, hop.keeps, h m k]

theorem handled {x : Run σ Unit} {f : Value → Run σ Unit} (hx : Unclocked x)
    (hf : ∀ v, Unclocked (f v)) : Unclocked (handled x (some f)) := by
  intro m k
  have later := hx m k
  rcases h : x m with ⟨result, after⟩
  rw [h] at later
  cases result with
  | ok u => simp only [Script.handled, h, later]
  | error i =>
    cases caught : i.caught? with
    | none => simp only [Script.handled, h, later, caught]
    | some v =>
      simp only [Script.handled, h, later, caught]
      exact hf v after k

theorem finalized {x last : Run σ Unit} (hx : Unclocked x) (hlast : Unclocked last) :
    Unclocked (finalized x (some last)) := by
  intro m k
  have later := hx m k
  rcases h : x m with ⟨result, after⟩
  rw [h] at later
  by_cases spent : result = .error .outOfFuel
  · subst spent
    simp only [Script.finalized, h, later]
  · have later' := hlast after k
    rcases e : last after with ⟨result', done⟩
    rw [e] at later'
    cases result' with
    | ok u => rw [finalized_ok h spent e, finalized_ok later spent later']
    | error i => rw [finalized_error h spent e, finalized_error later spent later']

theorem deeper {x : Run σ α} (h : Unclocked x) : Unclocked (deeper x) := by
  intro m k
  have later := h { m with depth := m.depth + 1 } k
  exact congrArg (fun r => (r.1, { r.2 with depth := r.2.depth - 1 })) later

theorem compatible {host : Host σ} (hH : host.Steady) :
    Compatible host host 0 0 0 (fun _ => True) IsUnclocked where
  toSequential := sequential
  has_eq := rfl
  count := count
  list _ _ _ := rfl
  object _ _ _ := rfl
  closure _ _ _ := rfl
  binds _ _ _ _ := stored fun _ _ => rfl
  reads name := sequential.readName rfl _ name (hH.read name).outside
  writes name v := writeName hH _ name v
  writesMember := writeMember
  native := callNative hH
  leaves i _ _ := raise i
  counted h := count.seq fun _ => h
  exhausted _ _ := count.seq fun _ => raise _
  lower h := h
  round h := h.ending goesOn_ending
  body h := h.ending bodyValue_ending
  handle := handled
  finish hx hlast := hx.finalized (count.seq fun _ => hlast)
  scope h := seq (fun _ _ => rfl) h
  enters _ h := seq (fun _ _ => rfl) h
  inner h := h.deeper
  passes h := h
  known blind h := look blind fun m => h m fun _ _ => trivial

end Unclocked

def Returnless (r : Run σ α) : Prop := ∀ m v, (r m).1 ≠ .error (.returned v)

def IsReturnless : RunRel σ := fun _ _ _ r _ => Returnless r

namespace Returnless

theorem of_ok {r : Run σ α} (h : ∀ m, ∃ a, (r m).1 = .ok a) : Returnless r := by
  intro m v e
  obtain ⟨a, ok⟩ := h m
  rw [ok] at e
  cases e

theorem raise {i : Interrupt} (other : ∀ v, i ≠ .returned v) : Returnless (throw i : Run σ α) :=
  fun _ v e => other v (Except.error.inj e)

theorem seq {x : Run σ α} {f : α → Run σ β} (hx : Returnless x) (hf : ∀ a, Returnless (f a)) :
    Returnless (x >>= f) := by
  intro m v e
  rcases h : x m with ⟨result, after⟩
  cases result with
  | error i =>
    rw [seq_error h] at e
    refine hx m v ?_
    rw [h]
    exact congrArg Except.error (Except.error.inj e)
  | ok a =>
    rw [seq_ok h] at e
    exact hf a after v e

theorem look {f : Machine σ → Run σ α} (h : ∀ m, Returnless (f m)) : Returnless (get >>= f) :=
  fun m => h m m

theorem choose (c : Prop) [Decidable c] {x y : Run σ α} (hx : Returnless x) (hy : Returnless y) :
    Returnless (if c then x else y) := by
  split
  · exact hx
  · exact hy

theorem count (limit : Nat) : Returnless (step limit : Run σ Unit) := by
  intro m v e
  rw [step] at e
  split at e
  · cases e
  · cases e

theorem callNative (host : Host σ) (callee : String) (f : Native) (args : List Value) :
    Returnless (callNative host callee f args) := by
  intro m v e
  rcases answer : outside (host.call f args) m with ⟨result, after⟩
  simp only [Script.callNative, answer] at e
  cases result with
  | ok w => cases e
  | error why =>
    obtain ⟨failure, failed⟩ := why.interrupt_eq callee
    simp only [failed] at e
    cases e

theorem deeper {r : Run σ α} (h : Returnless r) : Returnless (deeper r) :=
  fun m => h { m with depth := m.depth + 1 }

theorem sequential : Sequential (IsReturnless : RunRel σ) where
  value a := of_ok fun _ => ⟨a, rfl⟩
  raise _ _ _ inner := raise inner
  seq := seq
  look _ := look

theorem evaluating {host : Host σ} (hH : host.Steady) (limit : Nat) :
    Evaluating host host limit limit IsReturnless where
  toSequential := sequential
  has_eq := rfl
  count := count limit
  list _ := of_ok fun _ => ⟨_, rfl⟩
  object _ := of_ok fun _ => ⟨_, rfl⟩
  closure _ := of_ok fun _ => ⟨_, rfl⟩
  binds _ _ _ _ := of_ok fun _ => ⟨_, rfl⟩
  reads name := sequential.readName rfl _ name (hH.read_ends name)
  writes name v := sequential.writeName (fun _ _ => of_ok fun _ => ⟨_, rfl⟩) rfl _ name v
    (hH.write_ends name v)
  writesMember holder property v := sequential.writeMember
    (fun _ _ => of_ok fun _ => ⟨_, rfl⟩) holder property v
  native := callNative host

theorem bodyValue (body : Run σ Unit) : Returnless (bodyValue body) := by
  intro m v e
  rcases h : body m with ⟨result, after⟩
  simp only [Script.bodyValue, h] at e
  cases result with
  | ok u => cases e
  | error i =>
    cases i with
    | returned w => cases w <;> cases e
    | _ => cases e

section Calls

variable {host : Host σ} (hH : host.Steady) (limit : Nat)
include hH

theorem runClosure (fuel : Nat) {call : Nat → List Value → Run σ Value}
    (hcall : ∀ place args, Returnless (call place args)) (args : List Value) (c? : Option Closure) :
    Returnless (runClosure host limit fuel call args c?) := by
  have hE := evaluating hH limit
  cases c? with
  | none => exact of_ok fun _ => ⟨_, rfl⟩
  | some c =>
    obtain ⟨⟨_, params, body⟩, env⟩ := c
    refine seq (of_ok fun _ => ⟨_, rfl⟩) fun place => ?_
    have calls : RunRel.Calls IsReturnless fuel call call := fun _ => hcall
    have bound := hE.bindParams (s := { env := place :: env }) rfl calls params args
    refine seq bound fun _ => deeper ?_
    cases body with
    | concise e => exact hE.evalExpr (s := { env := place :: env }) calls e
    | block b =>
      cases b
      exact bodyValue _

theorem invoke (fuel place : Nat) (args : List Value) :
    Returnless (invoke host limit fuel place args) := by
  induction fuel generalizing place args with
  | zero => exact (count limit).seq fun _ => raise fun _ => nofun
  | succ fuel ih =>
    refine (count limit).seq fun _ => look fun m => ?_
    have called := runClosure hH limit fuel ih args m.closures[place]?
    exact choose _ ((raise fun _ => Interrupt.noConfusion).seq fun _ => called) called

end Calls

end Returnless

/-- What a call gives for a value that its body returns. -/
def Value.asReturned : Value → Value
  | .null => .undefined
  | v => v

def Echoes (r r' : Run σ Value) (m : Machine σ) : Prop :=
  ∃ k ≤ 1, r' m = ((r m).1.map Value.asReturned, (r m).2.later k)

namespace Echoes

theorem error {r r' : Run σ Value} {m after : Machine σ} {i : Interrupt} (h : r m = (.error i, after))
    (h' : r' m = (.error i, after)) : Echoes r r' m := by
  refine ⟨0, Nat.zero_le _, ?_⟩
  rw [h, h']
  rfl

theorem seq {x : Run σ α} {f f' : α → Run σ Value} (h : ∀ a m, Echoes (f a) (f' a) m)
    (m : Machine σ) : Echoes (x >>= f) (x >>= f') m := by
  rcases ran : x m with ⟨result, after⟩
  cases result with
  | error i => exact error (seq_error ran) (seq_error ran)
  | ok a =>
    obtain ⟨k, le, same⟩ := h a after
    exact ⟨k, le, by rw [seq_ok ran, seq_ok ran, same]⟩

theorem deeper {r r' : Run σ Value} (h : ∀ m, Echoes r r' m) (m : Machine σ) :
    Echoes (deeper r) (deeper r') m := by
  obtain ⟨k, le, same⟩ := h { m with depth := m.depth + 1 }
  refine ⟨k, le, ?_⟩
  exact congrArg (fun r : Except Interrupt Value × Machine σ =>
    (r.1, { r.2 with depth := r.2.depth - 1 })) same

end Echoes

section Bodies

variable {host : Host σ} {limit fuel : Nat} {call : Nat → List Value → Run σ Value}

/-- A body that is one return. -/
def returning (e : Expr) : Body := .block (.mk [.returning (some e)])

theorem execBody_returning (env : Env) (e : Expr) :
    execBody host limit fuel call env [.returning (some e)] = (do
      step limit
      throw (.returned (← evalExpr host limit call env e))) := by
  simp only [execBody, hoist, execAll, exec, evalOption, pure_bind]
  exact bind_pure_unit

theorem runBody_returning (unclocked : ∀ env e, Unclocked (evalExpr host 0 call env e))
    (returnless : ∀ env e, Returnless (evalExpr host 0 call env e)) (env : Env) (e : Expr)
    (m : Machine σ) :
    Echoes (runBody host 0 fuel call env (.concise e)) (runBody host 0 fuel call env (returning e)) m := by
  refine ⟨1, Nat.le_refl 1, ?_⟩
  have later := unclocked env e m 1
  have ends := returnless env e m
  rw [returning, runBody, runBody, execBody_returning, bodyValue]
  have counted : step 0 m = (.ok (), m.later 1) := rfl
  rw [seq_ok counted]
  rcases ran : evalExpr host 0 call env e m with ⟨result, after⟩
  rw [ran] at later ends
  cases result with
  | ok v =>
    rw [seq_ok later]
    cases v <;> rfl
  | error i =>
    rw [seq_error later]
    cases i with
    | returned v => exact absurd rfl (ends v)
    | _ => rfl

end Bodies

section Calls

variable {host : Host σ} (hH : host.Steady) (fuel : Nat)
include hH

theorem runClosure_returning (name name' : String) (params : List Param) (env : Env) (e : Expr)
    (args : List Value) (m : Machine σ) :
    Echoes (runClosure host 0 fuel (invoke host 0 fuel) args (some ⟨.mk name params (.concise e), env⟩))
      (runClosure host 0 fuel (invoke host 0 fuel) args (some ⟨.mk name' params (returning e), env⟩))
      m := by
  have hU := Unclocked.compatible hH
  have hE := Returnless.evaluating hH 0
  have calls : RunRel.Calls IsReturnless fuel (invoke host 0 fuel) (invoke host 0 fuel) :=
    fun _ => Returnless.invoke hH 0 fuel
  refine Echoes.seq (fun inner => Echoes.seq fun _ => Echoes.deeper ?_) m
  refine runBody_returning (fun env e => ?_) (fun env e => ?_) (inner :: env) e
  · exact hU.evalExpr (s := { env }) (hU.invoke fuel) e
  · exact hE.evalExpr (s := { env }) calls e

/-- A call of a function that returns an expression does what a call of the function that is that expression
does: it ends with the same error or the same value, but with undefined for null, and leaves the same memory,
random numbers and host. Only a step more may be counted. -/
theorem invoke_returning {m : Machine σ} {place place' : Nat} {name name' : String}
    {params : List Param} {env : Env} {e : Expr}
    (concise : m.closures[place]? = some ⟨.mk name params (.concise e), env⟩)
    (block : m.closures[place']? = some ⟨.mk name' params (returning e), env⟩) (args : List Value) :
    ∃ k ≤ 1, invoke host 0 fuel place' args m =
      ((invoke host 0 fuel place args m).1.map Value.asReturned,
        (invoke host 0 fuel place args m).2.later k) := by
  change Echoes (invoke host 0 fuel place args) (invoke host 0 fuel place' args) m
  cases fuel with
  | zero => exact .error rfl rfl
  | succ fuel =>
    have run (place : Nat) : invoke host 0 (fuel + 1) place args m =
        (if maxCallDepth ≤ m.depth then
            (fail .callDepth : Run σ Unit) >>= fun _ =>
              runClosure host 0 fuel (invoke host 0 fuel) args m.closures[place]?
          else runClosure host 0 fuel (invoke host 0 fuel) args m.closures[place]?) (m.later 1) := rfl
    rw [Echoes, run, run, concise, block]
    split
    · exact ⟨0, Nat.zero_le 1, rfl⟩
    · exact runClosure_returning hH fuel name name' params env e args (m.later 1)

end Calls

theorem Unclocked.orRefuse (e : Except Fault α) :
    Unclocked (orRefuse e : ExceptT Refusal (StateM (Machine σ)) α) := by
  cases e with
  | ok a => exact value a
  | error f => exact raise _

theorem Unclocked.callBinding (f : Native) (args : List Value) :
    Unclocked (callBinding f args : ExceptT Refusal (StateM (Machine σ)) Value) := by
  cases f with
  | math f => exact orRefuse _
  | random => exact fun _ _ => rfl
  | helper h => exact value _

theorem bindingsHost_steady : bindingsHost.Steady where
  read _ := Unclocked.look (fun _ _ => rfl) fun _ => .value _
  write _ _ := .stored fun _ _ => rfl
  call := .callBinding
  read_ends _ _ _ := nofun
  write_ends _ _ _ _ := nofun

/-- A machine with two functions of one parameter, which are an expression and return it. -/
def twins (e : Expr) : Machine (Fields Value) :=
  { Machine.start ([] : Fields Value) with
    closures := #[⟨.mk "" [.mk "a" none] (.concise e), rootEnv⟩,
      ⟨.mk "" [.mk "a" none] (returning e), rootEnv⟩] }

theorem invoke_returning_parameter :
    bindingsHost.Steady ∧ (twins (.name "a" 0)).closures[0]? =
        some ⟨.mk "" [.mk "a" none] (.concise (.name "a" 0)), rootEnv⟩ ∧
      (twins (.name "a" 0)).closures[1]? =
        some ⟨.mk "" [.mk "a" none] (returning (.name "a" 0)), rootEnv⟩ ∧
      ∃ k ≤ 1, invoke bindingsHost 0 2 1 [.text "x"] (twins (.name "a" 0)) =
        (.ok (.text "x"), (invoke bindingsHost 0 2 0 [.text "x"] (twins (.name "a" 0))).2.later k) := by
  have concise : (twins (.name "a" 0)).closures[0]? =
      some ⟨.mk "" [.mk "a" none] (.concise (.name "a" 0)), rootEnv⟩ := rfl
  have block : (twins (.name "a" 0)).closures[1]? =
      some ⟨.mk "" [.mk "a" none] (returning (.name "a" 0)), rootEnv⟩ := rfl
  obtain ⟨k, le, same⟩ := invoke_returning bindingsHost_steady 2 concise block [.text "x"]
  exact ⟨bindingsHost_steady, concise, block, k, le, same⟩

/-- Null that is returned is undefined, and null that is the expression of a function is null. -/
theorem invoke_returning_null :
    (invoke bindingsHost 0 2 0 [.undefined] (twins (.literal .null))).1 = .ok .null ∧
      (invoke bindingsHost 0 2 1 [.undefined] (twins (.literal .null))).1 = .ok .undefined :=
  ⟨rfl, rfl⟩

end EmitterLogic.Script
