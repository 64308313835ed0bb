import EmitterLogic.Proofs.Script.Runs

namespace EmitterLogic.Script

variable {σ α β : Type}

mutual

def Stmt.strays : Stmt → Bool
  | .breaking => true
  | .continuing => true
  | .block b => b.strays
  | .branch _ yes no => yes.strays || elseStrays no
  | .forLoop init _ _ _ => elseStrays init
  | .attempt body handler finalizer =>
    body.strays || catchStrays handler || finallyStrays finalizer
  | _ => false

def Block.strays : Block → Bool
  | .mk body => allStray body

def allStray : List Stmt → Bool
  | [] => false
  | s :: rest => s.strays || allStray rest

def elseStrays : Option Stmt → Bool
  | none => false
  | some s => s.strays

def catchStrays : Option Catch → Bool
  | none => false
  | some (.mk _ body) => body.strays

def finallyStrays : Option Block → Bool
  | none => false
  | some b => b.strays

end

def Body.strays : Body → Bool
  | .block b => b.strays
  | .concise _ => false

def Func.strays : Func → Bool
  | .mk _ _ body => body.strays

/-- Statements that open a scope of their own for what they declare. -/
def Stmt.OpensScope : Stmt → Prop
  | .block _ => True
  | .forLoop _ _ _ _ => True
  | .attempt _ _ _ => True
  | _ => False

/-- Where code stands: which scopes it has in sight, whether a loop takes its breaks and continues, and
whether the innermost scope is there for what it declares. -/
structure Standing where
  env : Env
  looped : Bool := true
  declares : Bool := true

namespace Standing

def within (s : Standing) (place : Nat) : Standing :=
  { s with env := place :: s.env, declares := true }

def round (s : Standing) : Standing := { s with looped := true }

end Standing

abbrev RunRel (σ : Type) := Nat → Standing → ∀ {α : Type}, Run σ α → Run σ α → Prop

/-- Relations of runs that respect putting runs one after another and looking at the machine, apart from
its count of steps. -/
structure Sequential (R : RunRel σ) : Prop where
  value {n : Nat} {s : Standing} {α : Type} (a : α) : R n s (pure a) (pure a)
  raise {n : Nat} {s : Standing} {α : Type} (i : Interrupt) (fueled : i ≠ .outOfFuel := by nofun)
    (stays : ¬i.Jumps := by nofun) (ends : ∀ v, i ≠ .returned v := by nofun) :
    R n s (throw i : Run σ α) (throw i)
  seq {n : Nat} {s : Standing} {α β : Type} {x x' : Run σ α} {f f' : α → Run σ β} :
    R n s x x' → (∀ a, R n s (f a) (f' a)) → R n s (x >>= f) (x' >>= f')
  look {n : Nat} {s : Standing} {α : Type} {f f' : Machine σ → Run σ α} :
    (∀ m k, f (m.clocked k) = f m) → (∀ m, R n s (f m) (f' m)) → R n s (get >>= f) (get >>= f')

structure Evaluating (host host' : Host σ) (limit limit' : Nat) (R : RunRel σ) : Prop
    extends Sequential R where
  has_eq : host'.has = host.has
  count {n : Nat} {s : Standing} : R n s (step limit) (step limit')
  list {n : Nat} {s : Standing} (items : List Value) : R n s (newList items) (newList items)
  object {n : Nat} {s : Standing} (fields : Fields Value) :
    R n s (newObject fields) (newObject fields)
  closure {n : Nat} {s : Standing} (f : Func) :
    R n s (newClosure ⟨f, s.env⟩) (newClosure ⟨f, s.env⟩)
  binds {n : Nat} {s : Standing} (name : String) (v : Value) (constant : Bool)
    (declares : s.declares = true) :
    R n s (declare s.env.head name v constant) (declare s.env.head name v constant)
  reads {n : Nat} {s : Standing} (name : String) :
    R n s (readName host s.env name) (readName host' s.env name)
  writes {n : Nat} {s : Standing} (name : String) (v : Value) :
    R n s (writeName host s.env name v) (writeName host' s.env name v)
  writesMember {n : Nat} {s : Standing} (holder property v : Value) :
    R n s (writeMember holder property v) (writeMember holder property v)
  native {n : Nat} {s : Standing} (callee : String) (f : Native) (args : List Value) :
    R n s (callNative host callee f args) (callNative host' callee f args)

/-- Relations that respect statements too, which the second run carries out with `k` more units of
fuel. What `exhausted` says of the first run is said of any run without fuel: it goes on to a step and
ends there, whatever the second one does with more fuel. -/
structure Executing (host host' : Host σ) (limit limit' k : Nat) (R : RunRel σ) : Prop
    extends Evaluating host host' limit limit' R where
  leaves {n : Nat} {s : Standing} {α : Type} (i : Interrupt) (fueled : i ≠ .outOfFuel)
    (taken : i.Jumps → s.looped = true) : R n s (throw i : Run σ α) (throw i)
  counted {n : Nat} {s : Standing} {α : Type} {x x' : Run σ α} :
    R n s x x' → R (n + 1) s (step limit >>= fun _ => x) (step limit' >>= fun _ => x')
  exhausted {s : Standing} {α : Type} (x' : Run σ α) (same : k = 0 → x' = throw .outOfFuel) :
    R 0 s (step limit >>= fun _ => throw .outOfFuel) (step limit' >>= fun _ => x')
  lower {n : Nat} {s : Standing} {α : Type} {x x' : Run σ α} : R (n + 1) s x x' → R n s x x'
  round {n : Nat} {s : Standing} {x x' : Run σ Unit} :
    R n s.round x x' → R n s (goesOn x) (goesOn x')
  body {n : Nat} {s : Standing} {x x' : Run σ Unit} : R n s x x' → R n s (bodyValue x) (bodyValue x')
  handle {n : Nat} {s : Standing} {x x' : Run σ Unit} {h h' : Value → Run σ Unit} :
    R n s x x' → (∀ v, R n s (h v) (h' v)) → R n s (handled x (some h)) (handled x' (some h'))
  finish {n : Nat} {s : Standing} {x x' last last' : Run σ Unit} :
    R n s x x' → R n s last last' →
      R n s (finalized x (some (step limit >>= fun _ => last)))
        (finalized x' (some (step limit' >>= fun _ => last')))
  scope {n : Nat} {s : Standing} {α : Type} {f f' : Nat → Run σ α} :
    (∀ place, R n (s.within place) (f place) (f' place)) →
      R n s (newScope >>= f) (newScope >>= f')

/-- Relations that respect calls of functions that stand where `Seen` allows. Their bodies run one call
deeper. -/
structure Calling (host host' : Host σ) (limit limit' k : Nat) (Seen : Env → Prop) (R : RunRel σ) :
    Prop extends Executing host host' limit limit' k R where
  enters {n : Nat} {s : Standing} {α : Type} {env : Env} {f f' : Nat → Run σ α} (seen : Seen env) :
    (∀ place, R n (({ s with env } : Standing).within place) (f place) (f' place)) →
      R n s (newScope >>= f) (newScope >>= f')
  inner {n : Nat} {s : Standing} {α : Type} {x x' : Run σ α} :
    R n s x x' → R n s (deeper x) (deeper x')

structure Compatible (host host' : Host σ) (limit limit' k : Nat) (Seen : Env → Prop)
    (R : RunRel σ) : Prop extends Calling host host' limit limit' k Seen R where
  passes {n : Nat} {s : Standing} {α : Type} {x x' : Run σ α} : R n s.round x x' → R n s x x'
  known {n : Nat} {s : Standing} {α : Type} {f f' : Machine σ → Run σ α} :
    (∀ m k, f (m.clocked k) = f m) →
      (∀ m, (∀ c ∈ m.closures, Seen c.env) → R n s (f m) (f' m)) → R n s (get >>= f) (get >>= f')

namespace RunRel

variable {R : RunRel σ} {n : Nat} {s : Standing}

theorem choose (c : Prop) [Decidable c] {x x' y y' : Run σ α} (hx : R n s x x')
    (hy : R n s y y') : R n s (if c then x else y) (if c then x' else y') := by
  split
  · exact hx
  · exact hy

def Calls (R : RunRel σ) (n : Nat) (call call' : Nat → List Value → Run σ Value) : Prop :=
  ∀ s place args, R n s (call place args) (call' place args)

def going (E : Machine σ → Machine σ → Prop) : RunRel σ := fun _ _ _ x _ => Goes E x

end RunRel

theorem Stepwise.sequential {E : Machine σ → Machine σ → Prop} (hE : Stepwise E) :
    Sequential (RunRel.going E) where
  value _ := hE.refl
  raise _ _ _ _ := hE.refl
  seq := Goes.seq hE
  look _ h := fun m => h m m

namespace Sequential

variable {host host' : Host σ} {R : RunRel σ} (hR : Sequential R) {n : Nat} {s : Standing}
include hR

theorem orFault (e : Except Fault α) : R n s (orFault e) (orFault e) := by
  cases e with
  | ok a => exact hR.value a
  | error f => exact hR.raise (.fault f)

theorem textOf (v : Value) : R n s (textOf v) (textOf v) := by
  refine hR.look (fun m k => by rw [textOf_clocked]) fun m => ?_
  cases m.textOf v with
  | ok t => exact hR.value t
  | error e =>
    cases e with
    | fault f => exact hR.raise (.fault f)
    | endless => exact hR.raise (.failed .stackExhausted)

theorem readName (hhas : host'.has = host.has) (env : Env) (name : String)
    (asked : R n s (outside (host.read name)) (outside (host'.read name))) :
    R n s (readName host env name) (readName host' env name) := by
  refine hR.look (fun m k => by rw [placeOf_clocked]; rfl) fun m => ?_
  rw [placeOf_congr hhas]
  cases placeOf host m name env with
  | scope place => exact hR.value _
  | host => exact asked
  | nowhere => exact hR.raise _

theorem readMember (holder property : Value) :
    R n s (readMember holder property) (readMember holder property) := by
  have refused : R n s (do
      fail (.readOfNothing (← Script.textOf holder) (← Script.textOf property)) : Run σ Value)
      (do fail (.readOfNothing (← Script.textOf holder) (← Script.textOf property))) :=
    hR.seq (hR.textOf holder) fun _ => hR.seq (hR.textOf property) fun _ => hR.raise _
  cases holder with
  | undefined => exact refused
  | null => exact refused
  | object place =>
    refine hR.seq (hR.textOf property) fun _ => ?_
    exact hR.look (fun _ _ => rfl) fun _ => hR.value _
  | list place => exact hR.look (fun _ _ => rfl) fun _ => hR.orFault _
  | text s => exact hR.orFault _
  | bool b => exact hR.value _
  | number n => exact hR.value _
  | func place => exact hR.value _
  | native f => exact hR.value _

theorem applyArith (o : ArithOp) (a b : Value) :
    R n s (applyArith o a b) (applyArith o a b) := by
  refine RunRel.choose _ ?_ ?_
  · refine hR.seq (hR.textOf a) fun _ => ?_
    exact hR.seq (hR.textOf b) fun _ => hR.value _
  · refine hR.seq (hR.orFault _) fun _ => ?_
    exact hR.seq (hR.orFault _) fun _ => hR.value _

theorem applyBinary (op : BinaryOp) (a b : Value) : R n s (op.apply a b) (op.apply a b) := by
  cases op with
  | sequence => exact hR.value b
  | looseEq => exact hR.seq (hR.orFault _) fun _ => hR.value _
  | looseNe => exact hR.seq (hR.orFault _) fun _ => hR.value _
  | strictEq => exact hR.seq (hR.orFault _) fun _ => hR.value _
  | strictNe => exact hR.seq (hR.orFault _) fun _ => hR.value _
  | compare r => exact hR.seq (hR.orFault _) fun _ => hR.value _
  | arith o => exact hR.applyArith o a b

theorem applyUnary (op : UnaryOp) (v : Value) : R n s (op.apply v) (op.apply v) := by
  cases op with
  | not => exact hR.seq (hR.orFault _) fun _ => hR.value _
  | negate => exact hR.seq (hR.orFault _) fun _ => hR.value _
  | toNumber => exact hR.seq (hR.orFault _) fun _ => hR.value _
  | typeOf => exact hR.value _

theorem writeName (stored : ∀ f : Machine σ → Machine σ,
      (∀ m, (f m).steps = m.steps ∧ (f m).depth = m.depth ∧ (f m).host = m.host) →
        R n s (modify f) (modify f))
    (hhas : host'.has = host.has) (env : Env) (name : String) (v : Value)
    (asked : R n s (outside (host.write name v)) (outside (host'.write name v))) :
    R n s (writeName host env name v) (writeName host' env name v) := by
  refine hR.look (fun m k => by rw [placeOf_clocked]; rfl) fun m => ?_
  rw [placeOf_congr hhas]
  cases placeOf host m name env with
  | host => exact asked
  | nowhere => exact stored _ fun _ => ⟨rfl, rfl, rfl⟩
  | scope place =>
    exact RunRel.choose _ (hR.seq (hR.raise _) fun _ => stored _ fun _ => ⟨rfl, rfl, rfl⟩)
      (stored _ fun _ => ⟨rfl, rfl, rfl⟩)

theorem writeMember (stored : ∀ f : Machine σ → Machine σ,
      (∀ m, (f m).steps = m.steps ∧ (f m).depth = m.depth ∧ (f m).host = m.host ∧
        (f m).scopes = m.scopes ∧ (f m).closures = m.closures) → R n s (modify f) (modify f))
    (holder property v : Value) :
    R n s (writeMember holder property v) (writeMember holder property v) := by
  have refused : R n s (refuseWrite holder property : Run σ Unit) (refuseWrite holder property) :=
    hR.seq (hR.textOf property) fun _ => hR.seq (hR.textOf holder) fun _ => hR.raise _
  cases holder with
  | object place =>
    refine hR.seq (hR.textOf property) fun key => ?_
    refine hR.look (fun _ _ => rfl) fun m => ?_
    exact RunRel.choose _ (hR.seq (hR.raise _) fun _ => stored _ fun _ => ⟨rfl, rfl, rfl, rfl, rfl⟩)
      (stored _ fun _ => ⟨rfl, rfl, rfl, rfl, rfl⟩)
  | list place =>
    refine hR.seq (hR.orFault _) fun position => ?_
    split
    · exact stored _ fun _ => ⟨rfl, rfl, rfl, rfl, rfl⟩
    · exact refused
  | _ => exact refused

end Sequential

namespace Evaluating

variable {host host' : Host σ} {limit limit' : Nat} {R : RunRel σ}

section Pieces

variable (hR : Evaluating host host' limit limit' R) {n : Nat} {s : Standing}
include hR

theorem typeOfName (id : String) :
    R n s (do
        if placeOf host (← get) id s.env == .nowhere then return .text "undefined"
        UnaryOp.apply .typeOf (← readName host s.env id))
      (do
        if placeOf host' (← get) id s.env == .nowhere then return .text "undefined"
        UnaryOp.apply .typeOf (← readName host' s.env id)) := by
  refine hR.look (fun m k => by rw [placeOf_clocked]) fun m => ?_
  rw [placeOf_congr hR.has_eq]
  split
  · exact hR.value _
  · exact hR.seq (hR.reads id) fun v => hR.applyUnary .typeOf v

theorem readSpot (spot : Spot) : R n s (spot.read host s.env) (spot.read host' s.env) := by
  cases spot with
  | name id => exact hR.reads id
  | member holder property => exact hR.readMember holder property

theorem writeSpot (v : Value) (spot : Spot) :
    R n s (spot.write host s.env v) (spot.write host' s.env v) := by
  cases spot with
  | name id => exact hR.writes id v
  | member holder property => exact hR.writesMember holder property v

end Pieces

section Evaluation

variable {n : Nat} {call call' : Nat → List Value → Run σ Value} {s : Standing}

theorem callValue (hR : Evaluating host host' limit limit' R) (hcall : R.Calls n call call')
    (callee : String) (f : Value) (args : List Value) :
    R n s (callValue host limit call callee f args)
      (callValue host' limit' call' callee f args) := by
  cases f with
  | func place => exact hcall s place args
  | native f => exact hR.seq hR.count fun _ => hR.native callee f args
  | _ => exact hR.raise _

mutual

theorem evalExpr (hR : Evaluating host host' limit limit' R) (hcall : R.Calls n call call')
    (e : Expr) :
    R n s (evalExpr host limit call s.env e) (evalExpr host' limit' call' s.env e) := by
  cases e with
  | number x => exact hR.value _
  | text t => exact hR.value _
  | literal l => exact hR.value _
  | name id position => exact hR.reads id
  | member holder property =>
    simp only [Script.evalExpr]
    exact hR.seq (evalExpr hR hcall holder) fun v => hR.readMember v _
  | index holder property =>
    simp only [Script.evalExpr]
    refine hR.seq (evalExpr hR hcall holder) fun h => ?_
    exact hR.seq (evalExpr hR hcall property) fun v => hR.readMember h v
  | call callee args =>
    simp only [Script.evalExpr]
    refine hR.seq (evalExpr hR hcall callee) fun f => ?_
    exact hR.seq (evalArgs hR hcall args) fun vs => hR.callValue hcall _ f vs
  | unary op arg =>
    simp only [Script.evalExpr]
    split
    · exact hR.typeOfName _
    · exact hR.seq (evalExpr hR hcall arg) fun v => hR.applyUnary _ v
  | update op before target =>
    simp only [Script.evalExpr]
    refine hR.seq (evalTarget hR hcall target) fun spot => ?_
    refine hR.seq (hR.readSpot spot) fun v => ?_
    refine hR.seq (hR.orFault _) fun old => ?_
    exact hR.seq (hR.writeSpot _ spot) fun _ => hR.value _
  | binary op left right =>
    simp only [Script.evalExpr]
    refine hR.seq (evalExpr hR hcall left) fun a => ?_
    exact hR.seq (evalExpr hR hcall right) fun b => hR.applyBinary op a b
  | logical op left right =>
    simp only [Script.evalExpr]
    refine hR.seq (evalExpr hR hcall left) fun a => ?_
    refine hR.seq (hR.orFault _) fun b => ?_
    split
    · exact evalExpr hR hcall right
    · exact evalExpr hR hcall right
    · exact hR.value a
  | conditional test yes no =>
    simp only [Script.evalExpr]
    refine hR.seq (evalExpr hR hcall test) fun v => ?_
    refine hR.seq (hR.orFault _) fun b => ?_
    exact RunRel.choose _ (evalExpr hR hcall yes) (evalExpr hR hcall no)
  | assign op target value =>
    simp only [Script.evalExpr]
    refine hR.seq (evalTarget hR hcall target) fun spot => ?_
    have stored (v : Value) : R n s (spot.write host s.env v >>= fun _ => pure v)
        (spot.write host' s.env v >>= fun _ => pure v) :=
      hR.seq (hR.writeSpot v spot) fun _ => hR.value v
    cases op with
    | plain => exact hR.seq (evalExpr hR hcall value) stored
    | compound o =>
      refine hR.seq (hR.readSpot spot) fun old => ?_
      refine hR.seq (evalExpr hR hcall value) fun v => ?_
      exact hR.seq (hR.applyArith o old v) stored
  | list items =>
    simp only [Script.evalExpr]
    exact hR.seq (evalArgs hR hcall items) fun vs => hR.list vs
  | object entries =>
    simp only [Script.evalExpr]
    exact hR.seq (evalEntries hR hcall [] entries) fun fields => hR.object fields
  | func f => exact hR.closure f

theorem evalArgs (hR : Evaluating host host' limit limit' R) (hcall : R.Calls n call call')
    (es : List Expr) :
    R n s (evalArgs host limit call s.env es) (evalArgs host' limit' call' s.env es) := by
  cases es with
  | nil => exact hR.value _
  | cons e rest =>
    simp only [Script.evalArgs]
    refine hR.seq (evalExpr hR hcall e) fun v => ?_
    exact hR.seq (evalArgs hR hcall rest) fun vs => hR.value _

theorem evalEntries (hR : Evaluating host host' limit limit' R) (hcall : R.Calls n call call')
    (fields : Fields Value) (entries : List Entry) :
    R n s (evalEntries host limit call s.env fields entries)
      (evalEntries host' limit' call' s.env fields entries) := by
  match entries with
  | [] => exact hR.value _
  | .mk key value :: rest =>
    simp only [Script.evalEntries]
    exact hR.seq (evalExpr hR hcall value) fun v => evalEntries hR hcall (fields.put key v) rest

theorem evalTarget (hR : Evaluating host host' limit limit' R) (hcall : R.Calls n call call')
    (target : Target) :
    R n s (evalTarget host limit call s.env target)
      (evalTarget host' limit' call' s.env target) := by
  cases target with
  | name id position => exact hR.value _
  | member holder property =>
    simp only [Script.evalTarget]
    exact hR.seq (evalExpr hR hcall holder) fun h => hR.value _
  | index holder property =>
    simp only [Script.evalTarget]
    refine hR.seq (evalExpr hR hcall holder) fun h => ?_
    exact hR.seq (evalExpr hR hcall property) fun v => hR.value _

end

variable (hR : Evaluating host host' limit limit' R) (hcall : R.Calls n call call')
include hR hcall

theorem evalTest (e : Expr) :
    R n s (evalTest host limit call s.env e) (evalTest host' limit' call' s.env e) :=
  hR.seq (hR.evalExpr hcall e) fun _ => hR.orFault _

theorem evalOption (e : Option Expr) (default : Value) :
    R n s (evalOption host limit call s.env e default)
      (evalOption host' limit' call' s.env e default) := by
  cases e with
  | none => exact hR.value _
  | some e => exact hR.evalExpr hcall e

end Evaluation

section Declarations

variable (hR : Evaluating host host' limit limit' R) {n : Nat} {s : Standing}
  (declares : s.declares = true)
include hR declares

theorem hoist (body : List Stmt) : R n s (hoist s.env body) (hoist s.env body) := by
  induction body with
  | nil => exact hR.value ()
  | cons statement rest ih =>
    cases statement with
    | func f =>
      refine hR.seq (hR.closure f) fun v => ?_
      exact hR.seq (hR.binds _ v false declares) fun _ => ih
    | _ => exact ih

variable {call call' : Nat → List Value → Run σ Value} (hcall : R.Calls n call call')
include hcall

theorem declareAll (kind : DeclKind) (items : List Declarator) :
    R n s (declareAll host limit call s.env kind items)
      (declareAll host' limit' call' s.env kind items) := by
  induction items with
  | nil => exact hR.value ()
  | cons item rest ih =>
    cases item with
    | mk name init =>
      refine hR.seq (hR.evalOption hcall init _) fun v => ?_
      exact hR.seq (hR.binds name v _ declares) fun _ => ih

theorem bindParams (params : List Param) (args : List Value) :
    R n s (bindParams host limit call s.env params args)
      (bindParams host' limit' call' s.env params args) := by
  induction params generalizing args with
  | nil => exact hR.value ()
  | cons param rest ih =>
    cases param with
    | mk name default =>
      have bound (v : Value) : R n s
          (declare s.env.head name v >>= fun _ =>
            Script.bindParams host limit call s.env rest args.tail)
          (declare s.env.head name v >>= fun _ =>
            Script.bindParams host' limit' call' s.env rest args.tail) :=
        hR.seq (hR.binds name v false declares) fun _ => ih args.tail
      simp only [Script.bindParams]
      split
      · exact hR.seq (hR.evalOption hcall default _) bound
      · exact hR.seq (hR.value _) bound

end Declarations

end Evaluating

end EmitterLogic.Script
