import EmitterLogic.Proofs.Script.InRange

namespace EmitterLogic.Script

open Event

variable {σ α : Type}

structure Host.Numeric (host : Host σ) (H : σ → Prop) : Prop where
  read (name : String) : Sound H never Value.InRange (outside (host.read name))
  write (name : String) {v : Value} (hv : v.InRange) :
    Sound H never (fun _ => True) (outside (host.write name v))
  call (f : Native) (args : List Value) {m : Machine σ} (held : m.Holds Value.InRange H) :
    (∀ v, (host.call f args m).1 = .ok v → v.InRange) ∧ H (host.call f args m).2.host

def Spot.InRange : Spot → Prop
  | .name _ => True
  | .member holder property => holder.InRange ∧ property.InRange

theorem Spot.readsBeyond_of_writesBeyond {spot : Spot} (h : spot.WritesBeyond) :
    spot.ReadsBeyond := by
  cases spot with
  | name id => cases h
  | member holder property =>
    cases holder with
    | list place => exact h
    | _ => cases h

namespace Sound

section Pieces

variable {H : σ → Prop}

theorem putName (place : Nat) {name : String} {v : Value} (hv : v.InRange) :
    Sound H never (fun _ => True) (modify fun m : Machine σ => { m with
      scopes := m.scopes.modify place fun c => { c with names := c.names.put name v } }) :=
  change fun _ held => held.changeScope place fun _ fields => fields.put hv name

theorem declared (place : Nat) (name : String) {v : Value} (hv : v.InRange) (constant : Bool) :
    Sound H never (fun _ => True) (declare place name v constant) :=
  change fun _ held => held.changeScope place fun _ fields => fields.put hv name

theorem newScope : Sound H never (fun _ => True) (newScope : Run σ Nat) :=
  fun _ held => ⟨⟨trivial, not_false⟩, held.addScope⟩

theorem newList {items : List Value} (h : ∀ v ∈ items, v.InRange) :
    Sound H never Value.InRange (newList items : Run σ Value) := by
  intro m held
  refine ⟨⟨⟨_, rfl⟩, not_false⟩, held.addList fun v member => ?_⟩
  exact h v (List.mem_toArray.mp member)

theorem newObject {fields : Fields Value} (h : FieldsHold Value.InRange fields) :
    Sound H never Value.InRange (newObject fields : Run σ Value) :=
  fun _ held => ⟨⟨⟨_, rfl⟩, not_false⟩, held.addObject h⟩

theorem newClosure (c : Closure) : Sound H never Value.InRange (newClosure c : Run σ Value) :=
  fun _ held => ⟨⟨⟨_, rfl⟩, not_false⟩, held.of_memory rfl rfl rfl held.host⟩

theorem ok_seq {β : Type} (a : α) (f : α → Run σ β) : (orFault (.ok a) >>= f) = f a := pure_bind a f

theorem hoist (env : Env) (body : List Stmt) :
    Sound H never (fun _ => True) (hoist env body : Run σ Unit) := by
  induction body with
  | nil => exact value trivial
  | cons statement rest ih =>
    cases statement with
    | func f =>
      exact (newClosure _).close fun v hv => (declared _ _ hv false).close fun _ _ => ih
    | _ => exact ih

variable {host : Host σ} (hH : host.Numeric H)
include hH

theorem readName (env : Env) (name : String) :
    Sound H never Value.InRange (readName host env name) := by
  refine look fun m held => ?_
  cases placeOf host m name env with
  | scope place => exact value ((held.scopes place).getD Value.inRange_undefined name)
  | host => exact hH.read name
  | nowhere => exact failed _

theorem writeName (env : Env) (name : String) {v : Value} (hv : v.InRange) :
    Sound H never (fun _ => True) (writeName host env name v) := by
  refine look fun m held => ?_
  cases placeOf host m name env with
  | host => exact hH.write name hv
  | nowhere => exact putName rootScope hv
  | scope place =>
    exact either _ ((failed (Q := fun _ => True) _).close fun _ _ => putName place hv)
      (putName place hv)

theorem callNative (callee : String) (f : Native) (args : List Value) :
    Sound H never Value.InRange (callNative host callee f args) := by
  intro m held
  obtain ⟨range, kept⟩ := hH.call f args held
  rcases answer : host.call f args m with ⟨result, after⟩
  rw [answer] at range kept
  have held' : { m with draws := after.draws, host := after.host }.Holds Value.InRange H :=
    held.of_memory rfl rfl rfl kept
  cases result with
  | ok v =>
    simp only [Script.callNative, Script.outside, answer]
    exact ⟨⟨range v rfl, not_false⟩, held'⟩
  | error why =>
    obtain ⟨e, failed⟩ := why.interrupt_eq callee
    simp only [Script.callNative, Script.outside, answer, failed]
    exact ⟨not_false, held'⟩

theorem readSpot (env : Env) {spot : Spot} (h : spot.InRange) :
    Sound H (fun _ => spot.ReadsBeyond) Value.InRange (spot.read host env) := by
  cases spot with
  | name id => exact readName hH env id
  | member holder property => exact readMember h.1 h.2

theorem writeSpot (env : Env) {spot : Spot} (h : spot.InRange) {v : Value} (hv : v.InRange) :
    Sound H (fun _ => spot.WritesBeyond) (fun _ => True) (spot.write host env v) := by
  cases spot with
  | name id => exact writeName hH env id hv
  | member holder property => exact writeMember h.1 h.2 hv

theorem typeOfName (env : Env) (id : String) :
    Sound H never Value.InRange (do
      if placeOf host (← get) id env == .nowhere then return .text "undefined"
      UnaryOp.apply .typeOf (← Script.readName host env id) : Run σ Value) :=
  look fun _ _ => either _ (value (Value.inRange_text _))
    ((readName hH env id).close fun _ hv => applyUnary .typeOf hv)

end Pieces

/-- Calls that come to an infinite position exactly where an event says so. -/
def Calls (H : σ → Prop) (called : Nat → List Value → Event σ)
    (call : Nat → List Value → Run σ Value) : Prop :=
  ∀ place args, (∀ v ∈ args, v.InRange) →
    Sound H (called place args) Value.InRange (call place args)

section Evaluation

variable {H : σ → Prop} {host : Host σ} {limit : Nat} {call : Nat → List Value → Run σ Value}
  {called : Nat → List Value → Event σ}

theorem callValue (hH : host.Numeric H) (hcall : Calls H called call) (callee : String) (f : Value)
    {args : List Value} (hargs : ∀ v ∈ args, v.InRange) :
    Sound H (callOverreaches called f args) Value.InRange
      (callValue host limit call callee f args) := by
  cases f with
  | func place => exact hcall place args hargs
  | native f => exact (stepped limit).close fun _ _ => callNative hH callee f args
  | _ => exact failed _

-- What a run comes to and what its values are differs from one piece of code to the next, so that
-- `Sound` is no relation as `Evaluating` asks for one.
mutual

theorem evalExpr (hH : host.Numeric H) (hcall : Calls H called call) (env : Env) (e : Expr) :
    Sound H (exprOverreaches host limit call called env e) Value.InRange
      (evalExpr host limit call env e) := by
  cases e with
  | number x => exact value (Value.inRange_float x)
  | text t => exact value (Value.inRange_text t)
  | literal l => exact value (Value.inRange_ofLiteral l)
  | name id position => exact readName hH env id
  | member holder property =>
    simp only [Script.evalExpr, exprOverreaches]
    exact (evalExpr hH hcall env holder).seq fun h hh => readMember hh (Value.inRange_text property)
  | index holder property =>
    simp only [Script.evalExpr, exprOverreaches]
    refine (evalExpr hH hcall env holder).seq fun h hh => ?_
    exact (evalExpr hH hcall env property).seq fun p hp => readMember hh hp
  | call callee args =>
    simp only [Script.evalExpr, exprOverreaches]
    refine (evalExpr hH hcall env callee).seq fun f _ => ?_
    exact (evalArgs hH hcall env args).seq fun vs hvs => callValue hH hcall _ f hvs
  | unary op arg =>
    simp only [Script.evalExpr, exprOverreaches]
    split
    · exact typeOfName hH env _
    · exact (evalExpr hH hcall env arg).close fun v hv => applyUnary _ hv
  | update op before target =>
    simp only [Script.evalExpr, exprOverreaches]
    refine (evalTarget hH hcall env target).seq fun spot hspot => ?_
    refine (readSpot hH env hspot).past.close fun old ⟨hold, finite⟩ => ?_
    refine (number hold).close fun x _ => ?_
    have written (y : Float) : Sound H never (fun _ => True) (spot.write host env (.float y)) :=
      (writeSpot hH env hspot (Value.inRange_float y)).congr fun _ =>
        iff_false_intro fun beyond => finite (Spot.readsBeyond_of_writesBeyond beyond)
    exact (written _).close fun _ _ => value (Value.inRange_float _)
  | binary op left right =>
    simp only [Script.evalExpr, exprOverreaches]
    refine (evalExpr hH hcall env left).seq fun a ha => ?_
    exact (evalExpr hH hcall env right).close fun b hb => applyBinary op ha hb
  | logical op left right =>
    simp only [Script.evalExpr, exprOverreaches]
    refine (evalExpr hH hcall env left).seq fun a ha => ?_
    obtain ⟨b, truth⟩ := ha.truthy
    rw [truth, ok_seq]
    have second := evalExpr hH hcall env right
    cases op <;> cases b
    · exact value ha
    · exact second
    · exact second
    · exact value ha
  | conditional test yes no =>
    simp only [Script.evalExpr, exprOverreaches]
    refine (evalExpr hH hcall env test).seq fun v hv => ?_
    obtain ⟨b, truth⟩ := hv.truthy
    rw [truth, ok_seq]
    cases b with
    | true => exact evalExpr hH hcall env yes
    | false => exact evalExpr hH hcall env no
  | assign op target value =>
    simp only [Script.evalExpr, exprOverreaches]
    refine (evalTarget hH hcall env target).seq fun spot hspot => ?_
    have stored {v : Value} (hv : v.InRange) :
        Sound H (fun _ => spot.WritesBeyond) Value.InRange
          (do spot.write host env v; return v : Run σ Value) :=
      (writeSpot hH env hspot hv).close fun _ _ => Sound.value hv
    cases op with
    | plain => exact (evalExpr hH hcall env value).seq fun v hv => stored hv
    | compound o =>
      refine (readSpot hH env hspot).past.seq fun old ⟨hold, finite⟩ => ?_
      refine (evalExpr hH hcall env value).close fun v hv => ?_
      refine (applyArith o hold hv).close fun w hw => ?_
      exact (stored hw).congr fun _ =>
        iff_false_intro fun beyond => finite (Spot.readsBeyond_of_writesBeyond beyond)
  | list items =>
    simp only [Script.evalExpr, exprOverreaches]
    exact (evalArgs hH hcall env items).close fun vs hvs => newList hvs
  | object entries =>
    simp only [Script.evalExpr, exprOverreaches]
    exact (evalEntries hH hcall env .nil entries).close fun fields hfields => newObject hfields
  | func f => exact newClosure _

theorem evalArgs (hH : host.Numeric H) (hcall : Calls H called call) (env : Env) (es : List Expr) :
    Sound H (argsOverreach host limit call called env es) (fun vs => ∀ v ∈ vs, v.InRange)
      (evalArgs host limit call env es) := by
  cases es with
  | nil => exact value (nofun)
  | cons e rest =>
    simp only [Script.evalArgs, argsOverreach]
    refine (evalExpr hH hcall env e).seq fun v hv => ?_
    exact (evalArgs hH hcall env rest).close fun vs hvs => value (List.forall_mem_cons.mpr ⟨hv, hvs⟩)

theorem evalEntries (hH : host.Numeric H) (hcall : Calls H called call) (env : Env)
    {fields : Fields Value} (h : FieldsHold Value.InRange fields) (entries : List Entry) :
    Sound H (entriesOverreach host limit call called env entries) (FieldsHold Value.InRange)
      (evalEntries host limit call env fields entries) := by
  match entries with
  | [] => exact value h
  | .mk key e :: rest =>
    simp only [Script.evalEntries, entriesOverreach]
    exact (evalExpr hH hcall env e).seq fun v hv => evalEntries hH hcall env (h.put hv key) rest

theorem evalTarget (hH : host.Numeric H) (hcall : Calls H called call) (env : Env) (target : Target) :
    Sound H (targetOverreaches host limit call called env target) Spot.InRange
      (evalTarget host limit call env target) := by
  cases target with
  | name id position => exact value trivial
  | member holder property =>
    simp only [Script.evalTarget, targetOverreaches]
    exact (evalExpr hH hcall env holder).close fun h hh => value ⟨hh, Value.inRange_text property⟩
  | index holder property =>
    simp only [Script.evalTarget, targetOverreaches]
    refine (evalExpr hH hcall env holder).seq fun h hh => ?_
    exact (evalExpr hH hcall env property).close fun p hp => value ⟨hh, hp⟩

end

variable (hH : host.Numeric H) (hcall : Calls H called call)
include hH hcall

theorem evalTest (env : Env) (e : Expr) :
    Sound H (exprOverreaches host limit call called env e) (fun _ => True)
      (evalTest host limit call env e) := by
  refine (evalExpr hH hcall env e).close fun v hv => ?_
  obtain ⟨b, truth⟩ := hv.truthy
  exact ok truth trivial

theorem evalOption (env : Env) (e : Option Expr) {default : Value} (h : default.InRange) :
    Sound H (optionOverreaches host limit call called env e) Value.InRange
      (evalOption host limit call env e default) := by
  cases e with
  | none => exact value h
  | some e => exact evalExpr hH hcall env e

end Evaluation

section Loops

variable {H : σ → Prop} {limit : Nat} {test : Run σ Bool} {T : Event σ} {body : Run σ Unit}
  {B : Event σ} (htest : Sound H T (fun _ => True) test) (hbody : Sound H B (fun _ => True) body)
include htest hbody

theorem testFirst {update : Run σ Unit} {U : Event σ} (hupdate : Sound H U (fun _ => True) update)
    (n : Nat) :
    Sound H (testFirstOverreaches limit test T body B update U n) (fun _ => True)
      (testFirst limit test body update n) := by
  induction n with
  | zero => exact htest.close fun _ _ => either _ (exhausted limit) (value trivial)
  | succ n ih =>
    refine htest.seq fun again _ => choose again ?_ (value trivial)
    refine (stepped limit).next fun _ _ => hbody.goesOn.seq fun on _ => choose on ?_ (value trivial)
    exact hupdate.seq fun _ _ => ih

theorem bodyFirst (n : Nat) :
    Sound H (bodyFirstOverreaches limit test T body B n) (fun _ => True)
      (bodyFirst limit test body n) := by
  induction n with
  | zero => exact exhausted limit
  | succ n ih =>
    refine (stepped limit).next fun _ _ => hbody.goesOn.seq fun on _ => choose on ?_ (value trivial)
    exact htest.seq fun again _ => choose again ih (value trivial)

end Loops

section Statements

variable {H : σ → Prop} {host : Host σ} {limit fuel : Nat}
  {call : Nat → List Value → Run σ Value} {called : Nat → List Value → Event σ}

theorem declareAll (hH : host.Numeric H) (hcall : Calls H called call) (env : Env) (kind : DeclKind)
    (items : List Declarator) :
    Sound H (declareOverreaches host limit call called env kind items) (fun _ => True)
      (declareAll host limit call env kind items) := by
  induction items with
  | nil => exact value trivial
  | cons item rest ih =>
    cases item with
    | mk name init =>
      exact (evalOption hH hcall env init Value.inRange_undefined).seq fun v hv =>
        (declared _ name hv _).next fun _ _ => ih

mutual

theorem exec (hH : host.Numeric H) (hcall : Calls H called call) (env : Env) (statement : Stmt) :
    Sound H (stmtOverreaches host limit fuel call called env statement) (fun _ => True)
      (exec host limit fuel call env statement) := by
  cases statement with
  | expr e =>
    simp only [Script.exec, stmtOverreaches]
    refine (stepped limit).next fun _ _ => ?_
    exact (evalExpr hH hcall env e).close fun _ _ => value trivial
  | empty =>
    simp only [Script.exec, stmtOverreaches]
    exact stepped limit
  | func f =>
    simp only [Script.exec, stmtOverreaches]
    exact stepped limit
  | declare kind items =>
    simp only [Script.exec, stmtOverreaches]
    exact (stepped limit).next fun _ _ => declareAll hH hcall env kind items
  | block b =>
    simp only [Script.exec, stmtOverreaches]
    exact execBlock hH hcall env b
  | branch test yes no =>
    simp only [Script.exec, stmtOverreaches]
    refine (stepped limit).next fun _ _ => ?_
    refine (evalTest hH hcall env test).seq fun b _ => ?_
    exact choose b (exec hH hcall env yes) (execOption hH hcall env no)
  | whileLoop test body =>
    simp only [Script.exec, stmtOverreaches]
    refine (stepped limit).next fun _ _ => ?_
    exact testFirst (evalTest hH hcall env test) (exec hH hcall env body) (value trivial) fuel
  | doLoop body test =>
    simp only [Script.exec, stmtOverreaches]
    refine (stepped limit).next fun _ _ => ?_
    exact bodyFirst (evalTest hH hcall env test) (exec hH hcall env body) fuel
  | forLoop init test update body =>
    simp only [Script.exec, stmtOverreaches]
    refine (stepped limit).next fun _ _ => newScope.next fun place _ => ?_
    refine (execOption hH hcall (place :: env) init).seq fun _ _ => ?_
    have updated : Sound H (optionOverreaches host limit call called (place :: env) update)
        (fun _ => True)
        (do let _ ← Script.evalOption host limit call (place :: env) update .undefined) :=
      (evalOption hH hcall (place :: env) update Value.inRange_undefined).close fun _ _ =>
        value trivial
    refine testFirst ?_ (exec hH hcall (place :: env) body) updated fuel
    cases test with
    | none => exact value trivial
    | some e => exact evalTest hH hcall (place :: env) e
  | returning result =>
    simp only [Script.exec, stmtOverreaches]
    refine (stepped limit).next fun _ _ => ?_
    exact (evalOption hH hcall env result ⟨_, rfl⟩).close fun v hv => raise ⟨hv, not_false⟩
  | breaking =>
    simp only [Script.exec, stmtOverreaches]
    exact (stepped limit).close fun _ _ => raise not_false
  | continuing =>
    simp only [Script.exec, stmtOverreaches]
    exact (stepped limit).close fun _ _ => raise not_false
  | throwing thrown =>
    simp only [Script.exec, stmtOverreaches]
    refine (stepped limit).next fun _ _ => ?_
    refine (evalExpr hH hcall env thrown).close fun v hv => ?_
    exact (textOf hv).close fun _ _ => raise ⟨hv, not_false⟩
  | attempt body handler finalizer =>
    simp only [Script.exec, stmtOverreaches]
    refine (stepped limit).next fun _ _ => ?_
    have caught : Sound H
        (handledOverreaches (Script.execBlock host limit fuel call env body)
          (blockOverreaches host limit fuel call called env body)
          (catchOverreaches host limit fuel call called env handler)) (fun _ => True)
        (Script.handled (Script.execBlock host limit fuel call env body)
          (Script.execCatch host limit fuel call env handler)) := by
      cases handler with
      | none =>
        simp only [Script.execCatch, handled_none]
        refine (execBlock hH hcall env body).congr fun m => (or_iff_left ?_).symm
        rintro ⟨_, _, _, _, _, event⟩
        simp only [catchOverreaches] at event
        exact event
      | some c =>
        cases c with
        | mk param block =>
          simp only [Script.execCatch]
          refine (execBlock hH hcall env body).handled fun v hv => ?_
          simp only [catchOverreaches]
          refine newScope.next fun place _ => ?_
          cases param with
          | none =>
            exact (value (Q := fun _ => True) (a := ()) trivial).next fun _ _ =>
              execBlock hH hcall (place :: env) block
          | some name =>
            refine (declared place name hv false).next fun _ _ => ?_
            exact execBlock hH hcall (place :: env) block
    cases finalizer with
    | none =>
      simp only [Script.execFinally, finalized_none]
      exact caught
    | some b =>
      simp only [Script.execFinally, finallyOverreaches]
      exact caught.finalized (execBlock hH hcall env b)

theorem execBlock (hH : host.Numeric H) (hcall : Calls H called call) (env : Env) (b : Block) :
    Sound H (blockOverreaches host limit fuel call called env b) (fun _ => True)
      (execBlock host limit fuel call env b) := by
  cases b with
  | mk body =>
    simp only [Script.execBlock, blockOverreaches]
    refine (stepped limit).next fun _ _ => newScope.next fun place _ => ?_
    exact (hoist (place :: env) body).next fun _ _ => execAll hH hcall (place :: env) body

theorem execAll (hH : host.Numeric H) (hcall : Calls H called call) (env : Env) (body : List Stmt) :
    Sound H (allOverreach host limit fuel call called env body) (fun _ => True)
      (execAll host limit fuel call env body) := by
  cases body with
  | nil => exact value trivial
  | cons statement rest =>
    simp only [Script.execAll, allOverreach]
    exact (exec hH hcall env statement).seq fun _ _ => execAll hH hcall env rest

theorem execOption (hH : host.Numeric H) (hcall : Calls H called call) (env : Env)
    (statement : Option Stmt) :
    Sound H (elseOverreaches host limit fuel call called env statement) (fun _ => True)
      (execOption host limit fuel call env statement) := by
  cases statement with
  | none => exact value trivial
  | some statement =>
    simp only [Script.execOption, elseOverreaches]
    exact exec hH hcall env statement

end

variable (hH : host.Numeric H) (hcall : Calls H called call)
include hH hcall

theorem execBody (env : Env) (body : List Stmt) :
    Sound H (bodyOverreaches host limit fuel call called env body) (fun _ => True)
      (execBody host limit fuel call env body) :=
  (hoist env body).next fun _ _ => execAll hH hcall env body

theorem bindParams (env : Env) (params : List Param) {args : List Value}
    (hargs : ∀ v ∈ args, v.InRange) :
    Sound H (paramsOverreach host limit call called env params args) (fun _ => True)
      (bindParams host limit call env params args) := by
  induction params generalizing args with
  | nil => exact value trivial
  | cons param rest ih =>
    cases param with
    | mk name default =>
      have first : (args.headD .undefined).InRange := by
        cases args with
        | nil => exact Value.inRange_undefined
        | cons v others => exact hargs v List.mem_cons_self
      have others : ∀ v ∈ args.tail, v.InRange := fun v member =>
        hargs v (List.mem_of_mem_tail member)
      have bound {v : Value} (hv : v.InRange) : Sound H
          (after (declare (env.headD rootScope) name v) fun _ =>
            paramsOverreach host limit call called env rest args.tail) (fun _ => True)
          (declare (env.headD rootScope) name v >>= fun _ =>
            Script.bindParams host limit call env rest args.tail) :=
        (declared _ name hv false).next fun _ _ => ih others
      simp only [Script.bindParams, paramsOverreach]
      generalize args.headD .undefined = v at first
      cases v with
      | undefined =>
        exact (evalOption hH hcall env default Value.inRange_undefined).seq fun v hv => bound hv
      | _ => exact bound first

theorem runBody (env : Env) (body : Body) :
    Sound H (functionOverreaches host limit fuel call called env body) Value.InRange
      (runBody host limit fuel call env body) := by
  cases body with
  | concise e => exact evalExpr hH hcall env e
  | block b =>
    cases b with
    | mk body => exact (execBody hH hcall env body).bodyValue

theorem runClosure {args : List Value} (hargs : ∀ v ∈ args, v.InRange) (c? : Option Closure) :
    Sound H (closureOverreaches host limit fuel call called args c?) Value.InRange
      (runClosure host limit fuel call args c?) := by
  cases c? with
  | none => exact value Value.inRange_undefined
  | some c =>
    obtain ⟨⟨_, params, body⟩, env⟩ := c
    refine newScope.next fun place _ => ?_
    exact (bindParams hH hcall (place :: env) params hargs).seq fun _ _ =>
      (runBody hH hcall (place :: env) body).deeper

end Statements

section Calls

variable {H : σ → Prop} {host : Host σ} (hH : host.Numeric H) {limit : Nat}
include hH

theorem invoke (fuel place : Nat) (args : List Value) (hargs : ∀ v ∈ args, v.InRange) :
    Sound H (invokeOverreaches host limit fuel place args) Value.InRange
      (invoke host limit fuel place args) := by
  induction fuel generalizing place args with
  | zero => exact exhausted limit
  | succ fuel ih =>
    simp only [Script.invoke, invokeOverreaches]
    refine (stepped limit).next fun _ _ m held => ?_
    have closed : Sound H
        (closureOverreaches host limit fuel (Script.invoke host limit fuel)
          (invokeOverreaches host limit fuel) args m.closures[place]?) Value.InRange
        (Script.runClosure host limit fuel (Script.invoke host limit fuel) args
          m.closures[place]?) := runClosure hH ih hargs _
    change Ends _ _ ((if maxCallDepth ≤ m.depth then _ else _ : Run σ Value) m).1 ∧
      ((if maxCallDepth ≤ m.depth then _ else _ : Run σ Value) m).2.Holds Value.InRange H
    by_cases deep : maxCallDepth ≤ m.depth
    · rw [if_pos deep]
      exact ⟨fun shallow => absurd shallow.1 (Nat.not_lt_of_le deep), held⟩
    · obtain ⟨ends, after⟩ := closed m held
      rw [if_neg deep]
      exact ⟨ends.congr (and_iff_right (Nat.lt_of_not_le deep)).symm, after⟩

theorem evaluate (limit : Nat) (e : Expr) :
    Sound H (e.Overreaches host limit) Value.InRange (evaluate host limit e) :=
  fun m held => evalExpr hH (invoke hH (fuelFor limit)) rootEnv e m.rewound
    (held.of_memory rfl rfl rfl held.host)

theorem runWith (limit fuel : Nat) (p : Program) :
    Sound H (p.Overreaches host limit fuel) Value.InRange (runWith host limit fuel p) :=
  (execBody hH (invoke hH fuel) rootEnv p.body).scriptValue

end Calls

end Sound

end EmitterLogic.Script
