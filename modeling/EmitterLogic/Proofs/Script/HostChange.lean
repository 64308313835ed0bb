import EmitterLogic.Proofs.Script.Compatible

namespace EmitterLogic.Script

variable {σ α β : Type}

structure Host.Along (host : Host σ) (E : σ → σ → Prop) : Prop where
  refl (x : σ) : E x x
  trans {x y z : σ} : E x y → E y z → E x z
  read (name : String) (m : Machine σ) : E m.host (host.read name m).2.host
  write (name : String) (v : Value) (m : Machine σ) : E m.host (host.write name v m).2.host
  call (f : Native) (args : List Value) (m : Machine σ) : E m.host (host.call f args m).2.host

abbrev Leaves (E : σ → σ → Prop) (r : Run σ α) : Prop := Goes (fun m m' => E m.host m'.host) r

namespace Leaves

variable {host : Host σ} {E : σ → σ → Prop} (hE : host.Along E)
include hE

theorem stepwise : Stepwise fun m m' : Machine σ => E m.host m'.host where
  refl m := hE.refl m.host
  trans := hE.trans

theorem of_host {r : Run σ α} (h : ∀ m, (r m).2.host = m.host) : Leaves E r := by
  intro m
  rw [h m]
  exact hE.refl m.host

theorem stepped {limit : Nat} {x : Run σ α} (h : Leaves E x) :
    Leaves E (step limit >>= fun _ => x) :=
  (of_host hE fun _ => rfl).seq (stepwise hE) fun _ => h

theorem inScope {f : Nat → Run σ α} (h : ∀ place, Leaves E (f place)) :
    Leaves E (newScope >>= f) :=
  (of_host hE fun _ => rfl).seq (stepwise hE) h

theorem callNative (callee : String) (f : Native) (args : List Value) :
    Leaves E (callNative host callee f args) := by
  intro m
  have answer := hE.call f args m
  rcases h : host.call f args m with ⟨result, after⟩
  rw [h] at answer
  cases result with
  | ok v =>
    simp only [Script.callNative, outside, h]
    exact answer
  | error why =>
    simp only [Script.callNative, outside, h]
    exact answer

end Leaves

theorem leaves_compatible {host : Host σ} {E : σ → σ → Prop} (hE : host.Along E) (limit : Nat) :
    Compatible host host limit limit 0 (fun _ => True)
      (RunRel.going fun m m' => E m.host m'.host) where
  toSequential := (Leaves.stepwise hE).sequential
  has_eq := rfl
  count := Leaves.of_host hE fun _ => rfl
  list _ := Leaves.of_host hE fun _ => rfl
  object _ := Leaves.of_host hE fun _ => rfl
  closure _ := Leaves.of_host hE fun _ => rfl
  reads name := (Leaves.stepwise hE).sequential.readName rfl _ name fun m => hE.read name m
  writes name v := (Leaves.stepwise hE).sequential.writeName
    (fun _ h => Leaves.of_host hE fun m => (h m).2.2) rfl _ name v fun m => hE.write name v m
  writesMember holder property v := (Leaves.stepwise hE).sequential.writeMember
    (fun _ h => Leaves.of_host hE fun m => (h m).2.2.1) holder property v
  native := Leaves.callNative hE
  binds _ _ _ _ := Leaves.of_host hE fun _ => rfl
  leaves _ _ _ := Leaves.of_host hE fun _ => rfl
  counted h := Leaves.stepped hE h
  exhausted _ _ := Leaves.stepped hE (Leaves.of_host hE fun _ => rfl)
  lower h := h
  round h := h.ending goesOn_ending
  body h := h.ending bodyValue_ending
  handle := Goes.handled (Leaves.stepwise hE)
  finish hx hlast := Goes.finalized (Leaves.stepwise hE) hx (Leaves.stepped hE hlast)
  scope := Leaves.inScope hE
  enters _ := Leaves.inScope hE
  inner h := fun m => h { m with depth := m.depth + 1 }
  passes h := h
  known _ h := fun m => h m (fun _ _ => trivial) m

theorem runWith_along {host : Host σ} {E : σ → σ → Prop} (hE : host.Along E) (limit fuel : Nat)
    (p : Program) (m : Machine σ) : E m.host (runWith host limit fuel p m).2.host :=
  Goes.ending scriptValue_ending ((leaves_compatible hE limit).script fuel p.body) m

end EmitterLogic.Script
