import EmitterLogic.Proofs.Script.GivingUp
import EmitterLogic.Script.Bindings

/-!
Breaks and continues across calls. A call lets pass what its body ends with, so a jump that stands
outside of the loops of a body goes on into the code that calls. Where no such body is called, calls
end with values and errors only.
-/

namespace EmitterLogic.Script

variable {σ α β : Type}

/-- A call that reports a break or continue that no loop took. -/
def sealed (r : Run σ Value) : Run σ Value := fun m =>
  match r m with
  | (.error .breaking, m) => (.error (.failed .strayJump), m)
  | (.error .continuing, m) => (.error (.failed .strayJump), m)
  | result => result

section Altering

variable (host : Host σ) (limit : Nat) (alter : Func → Run σ Value → Run σ Value)

/-- Calls a function, where each call is altered as its function asks. -/
def alteredCall : Nat → Nat → List Value → Run σ Value
  | 0, _, _ => do
    step limit
    throw .outOfFuel
  | fuel + 1, place, args => do
    step limit
    let m ← get
    if maxCallDepth ≤ m.depth then fail .callDepth
    match m.closures[place]? with
    | none => return .undefined
    | some c => alter c.func (runClosure host limit fuel (alteredCall fuel) args (some c))

/-- Runs a script with each call altered. -/
def alteredRun (p : Program) : Run σ Value := fun m =>
  let fuel := fuelFor limit
  scriptValue (execBody host limit fuel (alteredCall host limit alter fuel) rootEnv p.body)
    m.rewound

end Altering

/-- A host that answers with values and errors, not with a break or continue. -/
structure Host.Calm (host : Host σ) : Prop where
  read (name : String) (m : Machine σ) (i : Interrupt) :
    (host.read name m).1 = .error i → ¬i.Jumps
  write (name : String) (v : Value) (m : Machine σ) (i : Interrupt) :
    (host.write name v m).1 = .error i → ¬i.Jumps

def Calm (r : Run σ α) : Prop := ∀ m i, (r m).1 = .error i → ¬i.Jumps

def IsCalm : RunRel σ := fun _ s _ r _ => s.looped = false → Calm r

namespace Calm

theorem of_ok {r : Run σ α} (h : ∀ m, ∃ a, (r m).1 = .ok a) : Calm r := by
  intro m i e
  obtain ⟨a, ok⟩ := h m
  rw [ok] at e
  cases e

theorem value (a : α) : Calm (pure a : Run σ α) := of_ok fun _ => ⟨a, rfl⟩

theorem raise {i : Interrupt} (stays : ¬i.Jumps) : Calm (throw i : Run σ α) := by
  intro m j e
  cases e
  exact stays

theorem seq {x : Run σ α} {f : α → Run σ β} (hx : Calm x) (hf : ∀ a, Calm (f a)) :
    Calm (x >>= f) := by
  intro m i e
  rcases h : x m with ⟨result, after⟩
  cases result with
  | error j =>
    rw [seq_error h] at e
    cases e
    exact hx m i (congrArg Prod.fst h)
  | ok a =>
    rw [seq_ok h] at e
    exact hf a after i e

theorem choose (c : Prop) [Decidable c] {x y : Run σ α} (hx : Calm x) (hy : Calm y) :
    Calm (if c then x else y) := by
  split
  · exact hx
  · exact hy

theorem count (limit : Nat) : Calm (step limit : Run σ Unit) := by
  intro m i e
  simp only [step] at e
  split at e
  · cases e
    exact not_false
  · cases e

theorem newScope : Calm (newScope : Run σ Nat) := of_ok fun _ => ⟨_, rfl⟩

theorem callNative (host : Host σ) (callee : String) (f : Native) (args : List Value) :
    Calm (callNative host callee f args) := by
  intro m i e
  rcases answer : outside (host.call f args) m with ⟨result, after⟩
  simp only [Script.callNative, answer] at e
  cases result with
  | ok v => cases e
  | error why =>
    obtain ⟨failure, failed⟩ := why.interrupt_eq callee
    simp only [failed] at e
    cases e
    exact not_false

theorem goesOn (body : Run σ Unit) : Calm (goesOn body) := by
  intro m i e
  rcases h : body m with ⟨result, after⟩
  simp only [Script.goesOn, h] at e
  cases result with
  | ok u => cases e
  | error j =>
    cases j with
    | breaking => cases e
    | continuing => cases e
    | _ =>
      cases e
      exact not_false

section Bodies

variable {body : Run σ Unit} (hbody : Calm body)
include hbody

theorem handled {handler : Value → Run σ Unit} (hhandler : ∀ v, Calm (handler v)) :
    Calm (handled body (some handler)) := by
  intro m i e
  rcases h : body m with ⟨result, after⟩
  cases result with
  | ok u =>
    simp only [Script.handled, h] at e
    cases e
  | error j =>
    cases caught : j.caught? with
    | none =>
      simp only [Script.handled, h, caught] at e
      cases e
      exact hbody m i (congrArg Prod.fst h)
    | some v =>
      simp only [Script.handled, h, caught] at e
      exact hhandler v after i e

theorem finalized {last : Run σ Unit} (hlast : Calm last) : Calm (finalized body (some last)) := by
  intro m i e
  rcases h : body m with ⟨result, after⟩
  by_cases out : result = .error .outOfFuel
  · subst out
    simp only [Script.finalized, h] at e
    cases e
    exact not_false
  · rcases closed : last after with ⟨result', done⟩
    cases result' with
    | ok u =>
      rw [finalized_ok h out closed] at e
      exact hbody m i ((congrArg Prod.fst h).trans e)
    | error j =>
      rw [finalized_error h out closed] at e
      cases e
      exact hlast after i (congrArg Prod.fst closed)

theorem bodyValue : Calm (bodyValue body) := by
  intro m i e
  rcases h : body m with ⟨result, after⟩
  simp only [Script.bodyValue, h] at e
  cases result with
  | ok u => cases e
  | error j =>
    have stays := hbody m j (congrArg Prod.fst h)
    cases j with
    | returned v => cases v <;> cases e
    | _ =>
      cases e
      exact stays

end Bodies

theorem deeper {r : Run σ α} (h : Calm r) : Calm (deeper r) :=
  fun m => h { m with depth := m.depth + 1 }

theorem sequential : Sequential (IsCalm : RunRel σ) where
  value a _ := value a
  raise _ _ stays _ _ := raise stays
  seq hx hf loose := (hx loose).seq fun a => hf a loose
  look _ h loose := fun m => h m loose m

theorem calling {host : Host σ} (hH : host.Calm) (limit : Nat) :
    Calling host host limit limit 0 (fun _ => True) IsCalm where
  toSequential := sequential
  has_eq := rfl
  count _ := count limit
  list _ _ := of_ok fun _ => ⟨_, rfl⟩
  object _ _ := of_ok fun _ => ⟨_, rfl⟩
  closure _ _ := of_ok fun _ => ⟨_, rfl⟩
  reads name := sequential.readName rfl _ name fun _ => hH.read name
  writes name v := sequential.writeName (fun _ _ _ => of_ok fun _ => ⟨_, rfl⟩) rfl _ name v
    fun _ => hH.write name v
  writesMember holder property v := sequential.writeMember
    (fun _ _ _ => of_ok fun _ => ⟨_, rfl⟩) holder property v
  native callee f args _ := callNative host callee f args
  binds _ _ _ _ _ := of_ok fun _ => ⟨_, rfl⟩
  leaves _ _ taken loose := raise fun jumps => Bool.false_ne_true (loose.symm.trans (taken jumps))
  counted h loose := (count limit).seq fun _ => h loose
  exhausted _ _ _ := (count limit).seq fun _ => raise not_false
  lower h := h
  round _ _ := goesOn _
  body h loose := (h loose).bodyValue
  handle hx hf loose := (hx loose).handled fun v => hf v loose
  finish hx hlast loose := (hx loose).finalized ((count limit).seq fun _ => hlast loose)
  scope h loose := newScope.seq fun place => h place loose
  enters _ h loose := newScope.seq fun place => h place loose
  inner h loose := (h loose).deeper

theorem runClosure {host : Host σ} (hH : host.Calm) {limit fuel : Nat}
    {call : Nat → List Value → Run σ Value} (hcall : ∀ place args, Calm (call place args))
    (args : List Value) (c : Closure) (h : c.func.strays = false) :
    Calm (runClosure host limit fuel call args (some c)) := by
  have calls : RunRel.Calls IsCalm fuel call call := fun _ place args _ => hcall place args
  have ran := (calling hH limit).runClosure (s := { env := [], looped := false }) calls args trivial
    (.inr h)
  exact ran rfl

end Calm

section Sealing

variable {host : Host σ} {limit : Nat}

theorem sealed_calm (r : Run σ Value) : Calm (sealed r) := by
  intro m i e
  rcases h : r m with ⟨result, after⟩
  simp only [sealed, h] at e
  cases result with
  | ok v => cases e
  | error j =>
    cases j with
    | breaking =>
      cases e
      exact not_false
    | continuing =>
      cases e
      exact not_false
    | _ =>
      cases e
      exact not_false

theorem sealed_of_calm {r : Run σ Value} (h : Calm r) : sealed r = r := by
  funext m
  rcases ran : r m with ⟨result, after⟩
  simp only [sealed, ran]
  cases result with
  | ok v => rfl
  | error i =>
    cases i with
    | breaking => exact absurd trivial (h m _ (congrArg Prod.fst ran))
    | continuing => exact absurd trivial (h m _ (congrArg Prod.fst ran))
    | _ => rfl

theorem alteredCall_id (fuel : Nat) :
    alteredCall host limit (fun _ r => r) fuel = invoke host limit fuel := by
  induction fuel with
  | zero => rfl
  | succ fuel ih =>
    funext place args
    simp only [alteredCall, invoke, ih]
    refine bind_congr fun _ => bind_congr fun m => ?_
    cases m.closures[place]? with
    | none => rfl
    | some c => rfl

theorem alteredCall_calm {alter : Func → Run σ Value → Run σ Value}
    (halter : ∀ f r, Calm (alter f r)) (fuel place : Nat) (args : List Value) :
    Calm (alteredCall host limit alter fuel place args) := by
  cases fuel with
  | zero => exact (Calm.count limit).seq fun _ => Calm.raise not_false
  | succ fuel =>
    refine (Calm.count limit).seq fun _ => Calm.seq (Calm.of_ok fun _ => ⟨_, rfl⟩) fun m => ?_
    have called : Calm (match m.closures[place]? with
        | none => pure .undefined
        | some c => alter c.func
          (runClosure host limit fuel (alteredCall host limit alter fuel) args (some c))) := by
      cases m.closures[place]? with
      | none => exact .value _
      | some c => exact halter c.func _
    have refused : Calm (fail .callDepth : Run σ Unit) := .raise not_false
    exact .choose _ (refused.seq fun _ => called) called

theorem alteredCall_straying (hH : host.Calm) (fuel : Nat) :
    alteredCall host limit (fun f r => if f.strays then sealed r else r) fuel =
      alteredCall host limit (fun _ => sealed) fuel := by
  induction fuel with
  | zero => rfl
  | succ fuel ih =>
    funext place args
    simp only [alteredCall, ih]
    refine bind_congr fun _ => bind_congr fun m => ?_
    cases m.closures[place]? with
    | none => rfl
    | some c =>
      cases strays : c.func.strays with
      | true => simp only [strays, if_pos]
      | false =>
        have calm : Calm (runClosure host limit fuel
            (alteredCall host limit (fun _ => sealed) fuel) args (some c)) :=
          Calm.runClosure hH (alteredCall_calm (fun _ => sealed_calm) fuel) args c strays
        simp only [strays, Bool.false_eq_true, if_false, sealed_of_calm calm]

theorem alteredCall_abridges {alter alter' : Func → Run σ Value → Run σ Value}
    (halter : ∀ f (r r' : Run σ Value) n s, Abridges n s r r' →
      Abridges n s (alter f r) (alter' f r')) (fuel n : Nat) (s : Standing) (place : Nat)
    (args : List Value) :
    Abridges n s (alteredCall host limit alter fuel place args)
      (alteredCall host limit alter' fuel place args) := by
  -- On the fuel, as both ways to call go one level down together.
  induction fuel generalizing n s place args with
  | zero => exact .refl _
  | succ fuel ih =>
    refine (Abridges.refl _).seq fun _ => Abridges.look fun m => ?_
    have called : Abridges n s
        (match m.closures[place]? with
          | none => pure .undefined
          | some c => alter c.func
            (runClosure host limit fuel (alteredCall host limit alter fuel) args (some c)))
        (match m.closures[place]? with
          | none => pure .undefined
          | some c => alter' c.func
            (runClosure host limit fuel (alteredCall host limit alter' fuel) args (some c))) := by
      cases m.closures[place]? with
      | none => exact .refl _
      | some c =>
        have hR := abridges_compatible host limit 0
        have ran : Abridges fuel s
            (runClosure host limit fuel (alteredCall host limit alter fuel) args (some c))
            (runClosure host limit fuel (alteredCall host limit alter' fuel) args (some c)) :=
          hR.passes (hR.runClosure (ih fuel) args trivial (.inl rfl))
        exact halter c.func _ _ n s ran
    exact RunRel.choose (R := Abridges) _ ((Abridges.refl _).seq fun _ => called) called

theorem alteredRun_abridges {alter alter' : Func → Run σ Value → Run σ Value}
    (halter : ∀ f (r r' : Run σ Value) n s, Abridges n s r r' →
      Abridges n s (alter f r) (alter' f r')) (p : Program) {m : Machine σ}
    (goes : spent (alteredRun host limit alter p m).1 = false) :
    alteredRun host limit alter' p m = alteredRun host limit alter p m :=
  (((abridges_compatible host limit 0).execBody (s := { env := rootEnv })
    (alteredCall_abridges halter (fuelFor limit) (fuelFor limit)) rfl p.body (.inl rfl)).ending
      scriptValue_ending).eq_of_not_spent goes

theorem alteredRun_id (p : Program) (m : Machine σ) :
    alteredRun host limit (fun _ r => r) p m = run host limit p m := by
  simp only [alteredRun, alteredCall_id]
  rfl

theorem alteredRun_straying (hH : host.Calm) (p : Program) (m : Machine σ) :
    alteredRun host limit (fun f r => if f.strays then sealed r else r) p m =
      alteredRun host limit (fun _ => sealed) p m := by
  simp only [alteredRun, alteredCall_straying hH]

theorem abridges_straying (change : Run σ Value → Run σ Value) (f : Func) (r r' : Run σ Value)
    (n : Nat) (s : Standing) (h : Abridges n s r r') :
    Abridges n s (if f.strays then giveUp else r) (if f.strays then change r' else r') := by
  cases f.strays with
  | true => exact .givenUp _
  | false => exact h

end Sealing

/-- In a run that calls no function whose jumps stray, every call ends with a value or an error. -/
theorem run_calls_sealed {host : Host σ} (hH : host.Calm) (limit : Nat) (p : Program)
    (m : Machine σ)
    (confined : spent (alteredRun host limit (fun f r => if f.strays then giveUp else r) p m).1 =
      false) :
    alteredRun host limit (fun _ => sealed) p m = run host limit p m := by
  have kept := alteredRun_abridges (abridges_straying id) p confined
  simp only [id, ite_self] at kept
  rw [← alteredRun_straying hH, alteredRun_abridges (abridges_straying sealed) p confined, ← kept]
  exact alteredRun_id p m

theorem bindingsHost_calm : bindingsHost.Calm where
  read name m i e := by cases e
  write name v m i e := by cases e

/-- A function that breaks its own loop, called in a loop. -/
def innerBreak : Program :=
  ⟨[.func (.mk "f" [] (.block (.mk [.whileLoop (.literal (.bool true)) .breaking]))),
    .doLoop (.expr (.call (.name "f" 0) [])) (.literal (.bool false))]⟩

theorem run_calls_sealed_innerBreak :
    bindingsHost.Calm ∧
    spent (alteredRun bindingsHost 0 (fun f r => if f.strays then giveUp else r) innerBreak
      (.start [])).1 = false ∧
    alteredRun bindingsHost 0 (fun _ => sealed) innerBreak (.start []) =
      run bindingsHost 0 innerBreak (.start []) := by
  have confined : spent (alteredRun bindingsHost 0 (fun f r => if f.strays then giveUp else r)
      innerBreak (.start [])).1 = false := by decide +kernel
  exact ⟨bindingsHost_calm, confined, run_calls_sealed bindingsHost_calm 0 innerBreak _ confined⟩

/-- A function that breaks outside of its loops, called in a loop. -/
def outerBreak : Program :=
  ⟨[.func (.mk "f" [] (.block (.mk [.breaking]))),
    .whileLoop (.literal (.bool true)) (.expr (.call (.name "f" 0) []))]⟩

/-- The break of a function ends the loop that calls it, and the script goes on. -/
theorem run_calls_unsealed :
    alteredRun bindingsHost 0 (fun _ => sealed) outerBreak (.start []) ≠
      run bindingsHost 0 outerBreak (.start []) := by
  intro same
  have ran : (run bindingsHost 0 outerBreak (.start [])).1.isOk = true := by decide +kernel
  have refused : (alteredRun bindingsHost 0 (fun _ => sealed) outerBreak (.start [])).1.isOk =
      false := by decide +kernel
  rw [← same, refused] at ran
  cases ran

end EmitterLogic.Script
