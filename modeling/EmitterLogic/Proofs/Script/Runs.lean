import EmitterLogic.Script.Interpreter

namespace EmitterLogic.Script

variable {σ α β : Type}

/-- What ends a round of a loop: a break or a continue. -/
def Interrupt.Jumps : Interrupt → Prop
  | .breaking => True
  | .continuing => True
  | _ => False

def Machine.clocked (m : Machine σ) (steps : Nat) : Machine σ := { m with steps }

abbrev Env.head (env : Env) : Nat := env.headD rootScope

theorem seq_ok {x : Run σ α} {f : α → Run σ β} {m after : Machine σ} {a : α}
    (h : x m = (.ok a, after)) : (x >>= f) m = f a after := by
  simp only [bind, ExceptT.bind, ExceptT.mk, StateT.bind, h, ExceptT.bindCont]

theorem seq_error {x : Run σ α} {f : α → Run σ β} {m after : Machine σ} {i : Interrupt}
    (h : x m = (.error i, after)) : (x >>= f) m = (.error i, after) := by
  simp only [bind, ExceptT.bind, ExceptT.mk, StateT.bind, h, ExceptT.bindCont]
  rfl

/-- What looks at a run only by how it ends, lets the limit of steps and the end of the fuel pass and
does not run out of fuel by itself. -/
structure Ending (op : Run σ α → Run σ β) : Prop where
  only (x x' : Run σ α) (m : Machine σ) : x' m = x m → op x' m = op x m
  keeps (x : Run σ α) (m : Machine σ) : (op x m).2 = (x m).2
  result (x : Run σ α) (m m' : Machine σ) : (x m').1 = (x m).1 → (op x m').1 = (op x m).1
  passes (N : Nat) (x : Run σ α) (m : Machine σ) :
    (x m).1 = .error (.stepLimit N) → (op x m).1 = .error (.stepLimit N)
  fueled (x : Run σ α) (m : Machine σ) :
    (op x m).1 = .error .outOfFuel ↔ (x m).1 = .error .outOfFuel

theorem Ending.of_result {op : Run σ α → Run σ β} (g : Except Interrupt α → Except Interrupt β)
    (made : ∀ (x : Run σ α) m, op x m = (g (x m).1, (x m).2))
    (limit : ∀ N, g (.error (.stepLimit N)) = .error (.stepLimit N))
    (fuel : ∀ r, g r = .error .outOfFuel ↔ r = .error .outOfFuel) : Ending op where
  only x x' m same := by rw [made, made, same]
  keeps x m := by rw [made]
  result x m m' same := by rw [made, made, same]
  passes N x m same := by rw [made, same, limit]
  fueled x m := by rw [made, fuel]

def roundResult : Except Interrupt Unit → Except Interrupt Bool
  | .error .breaking => .ok false
  | .error .continuing => .ok true
  | .ok () => .ok true
  | .error i => .error i

theorem goesOn_ending : Ending (goesOn : Run σ Unit → Run σ Bool) := by
  refine .of_result roundResult (fun x m => ?_) (fun N => rfl) fun r => ?_
  · rcases h : x m with ⟨result, after⟩
    simp only [goesOn, h]
    cases result with
    | ok u => rfl
    | error i => cases i <;> rfl
  · cases r with
    | ok u => exact iff_of_false nofun nofun
    | error i => cases i <;> simp [roundResult]

def bodyResult : Except Interrupt Unit → Except Interrupt Value
  | .ok () => .ok .undefined
  | .error (.returned .null) => .ok .undefined
  | .error (.returned v) => .ok v
  | .error i => .error i

theorem bodyValue_ending : Ending (bodyValue : Run σ Unit → Run σ Value) := by
  refine .of_result bodyResult (fun x m => ?_) (fun N => rfl) fun r => ?_
  · rcases h : x m with ⟨result, after⟩
    simp only [bodyValue, h]
    cases result with
    | ok u => rfl
    | error i =>
      cases i with
      | returned v => cases v <;> rfl
      | _ => rfl
  · cases r with
    | ok u => exact iff_of_false nofun nofun
    | error i =>
      cases i with
      | returned v => cases v <;> simp [bodyResult]
      | _ => simp [bodyResult]

def scriptResult : Except Interrupt Unit → Except Interrupt Value
  | .ok () => .ok .undefined
  | .error (.returned v) => .ok v
  | .error .breaking => .error (.failed .strayJump)
  | .error .continuing => .error (.failed .strayJump)
  | .error i => .error i

theorem scriptValue_ending : Ending (scriptValue : Run σ Unit → Run σ Value) := by
  refine .of_result scriptResult (fun x m => ?_) (fun N => rfl) fun r => ?_
  · rcases h : x m with ⟨result, after⟩
    simp only [scriptValue, h]
    cases result with
    | ok u => rfl
    | error i => cases i <;> rfl
  · cases r with
    | ok u => exact iff_of_false nofun nofun
    | error i => cases i <;> simp [scriptResult]

theorem handled_none (body : Run σ Unit) : handled body none = body := by
  funext m
  rcases h : body m with ⟨result, after⟩
  cases result with
  | ok u => simp only [handled, h]
  | error i => simp only [handled, h]

theorem finalized_none (body : Run σ Unit) : finalized body none = body := by
  funext m
  simp only [finalized]

theorem finalized_ok {body last : Run σ Unit} {m after done : Machine σ}
    {result : Except Interrupt Unit} (h : body m = (result, after))
    (fuel : result ≠ .error .outOfFuel) (e : last after = (.ok (), done)) :
    finalized body (some last) m = (result, done) := by
  cases result with
  | ok u => simp only [finalized, h, e]
  | error i =>
    cases i with
    | outOfFuel => exact absurd rfl fuel
    | _ => simp only [finalized, h, e]

theorem finalized_error {body last : Run σ Unit} {m after done : Machine σ} {i : Interrupt}
    {result : Except Interrupt Unit} (h : body m = (result, after))
    (fuel : result ≠ .error .outOfFuel) (e : last after = (.error i, done)) :
    finalized body (some last) m = (.error i, done) := by
  cases result with
  | ok u => simp only [finalized, h, e]
  | error i =>
    cases i with
    | outOfFuel => exact absurd rfl fuel
    | _ => simp only [finalized, h, e]

theorem placeOf_congr {host host' : Host σ} (h : host'.has = host.has) (m : Machine σ)
    (name : String) (env : Env) : placeOf host' m name env = placeOf host m name env := by
  induction env with
  | nil => simp only [placeOf, h]
  | cons s rest ih => simp only [placeOf, ih]

theorem placeOf_clocked (host : Host σ) (m : Machine σ) (k : Nat) (name : String) (env : Env) :
    placeOf host (m.clocked k) name env = placeOf host m name env := by
  induction env with
  | nil => rfl
  | cons s rest ih =>
    simp only [placeOf, ih]
    rfl

theorem Refusal.interrupt_eq (why : Refusal) (callee : String) :
    ∃ e, why.interrupt callee = .failed e := by
  cases why with
  | exhausted => exact ⟨.stackExhausted, rfl⟩
  | fault f => exact ⟨.helper callee (.fault f), rfl⟩
  | arguments most given text => exact ⟨.helper callee (.arguments most given text), rfl⟩

theorem textWithin_clocked (m : Machine σ) (k n : Nat) (v : Value) :
    (m.clocked k).textWithin n v = m.textWithin n v := by
  induction n generalizing v with
  | zero => cases v <;> rfl
  | succ n ih =>
    cases v with
    | list place =>
      simp only [Machine.textWithin, ih]
      rfl
    | _ => rfl

theorem textOf_clocked (m : Machine σ) (k : Nat) (v : Value) : (m.clocked k).textOf v = m.textOf v :=
  textWithin_clocked m k _ v

structure Stepwise (E : Machine σ → Machine σ → Prop) : Prop where
  refl (m : Machine σ) : E m m
  trans {m m' m'' : Machine σ} : E m m' → E m' m'' → E m m''

def Goes (E : Machine σ → Machine σ → Prop) (r : Run σ α) : Prop := ∀ m, E m (r m).2

namespace Goes

variable {E : Machine σ → Machine σ → Prop}

theorem ending {op : Run σ α → Run σ β} (hop : Ending op) {x : Run σ α} (h : Goes E x) :
    Goes E (op x) := by
  intro m
  rw [hop.keeps x m]
  exact h m

variable (hE : Stepwise E)
include hE

theorem seq {x : Run σ α} {f : α → Run σ β} (hx : Goes E x) (hf : ∀ a, Goes E (f a)) :
    Goes E (x >>= f) := by
  intro m
  have before := hx m
  rcases h : x m with ⟨result, after⟩
  rw [h] at before
  cases result with
  | error i =>
    rw [seq_error h]
    exact before
  | ok a =>
    rw [seq_ok h]
    exact hE.trans before (hf a after)

theorem handled {x : Run σ Unit} {f : Value → Run σ Unit} (hx : Goes E x)
    (hf : ∀ v, Goes E (f v)) : Goes E (handled x (some f)) := by
  intro m
  have before := hx m
  rcases h : x m with ⟨result, after⟩
  rw [h] at before
  cases result with
  | ok u =>
    simp only [Script.handled, h]
    exact before
  | error i =>
    cases caught : i.caught? with
    | none =>
      simp only [Script.handled, h, caught]
      exact before
    | some v =>
      simp only [Script.handled, h, caught]
      exact hE.trans before (hf v after)

theorem finalized {x last : Run σ Unit} (hx : Goes E x) (hlast : Goes E last) :
    Goes E (finalized x (some last)) := by
  intro m
  have before := hx m
  rcases h : x m with ⟨result, after⟩
  rw [h] at before
  by_cases spent : result = .error .outOfFuel
  · subst spent
    simp only [Script.finalized, h]
    exact before
  · have closing := hlast after
    rcases e : last after with ⟨result', done⟩
    rw [e] at closing
    cases result' with
    | ok u =>
      rw [finalized_ok h spent e]
      exact hE.trans before closing
    | error i =>
      rw [finalized_error h spent e]
      exact hE.trans before closing

end Goes

end EmitterLogic.Script
