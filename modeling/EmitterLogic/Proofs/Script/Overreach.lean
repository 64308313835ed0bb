import EmitterLogic.Script.Interpreter

namespace EmitterLogic.Script

variable {σ α : Type}

/-- What code comes to from some machines. -/
abbrev Event (σ : Type) := Machine σ → Prop

namespace Event

def never : Event σ := fun _ => False

/-- An event of what follows a run. -/
def after (x : Run σ α) (F : α → Event σ) : Event σ := fun m =>
  ∃ a last, x m = (.ok a, last) ∧ F a last

/-- An event of a run or of what follows it. -/
def orAfter (E : Event σ) (x : Run σ α) (F : α → Event σ) : Event σ := fun m => E m ∨ after x F m

end Event

open Event

/-- A value that stands for an infinite number. -/
def Value.IsInfinite (v : Value) : Prop :=
  ∃ x, v.toNumber = .ok x ∧ x.isNaN = false ∧ x.isFinite = false

/-- Is an element of a list or text read at an infinite position? -/
def Value.ReadsBeyond (property : Value) : Value → Prop
  | .list _ => property.IsInfinite
  | .text _ => property.IsInfinite
  | _ => False

/-- Is an element of a list written at an infinite position? -/
def Value.WritesBeyond (property : Value) : Value → Prop
  | .list _ => property.IsInfinite
  | _ => False

def Spot.ReadsBeyond : Spot → Prop
  | .name _ => False
  | .member holder property => property.ReadsBeyond holder

def Spot.WritesBeyond : Spot → Prop
  | .name _ => False
  | .member holder property => property.WritesBeyond holder

section Loops

variable (limit : Nat) (test : Run σ Bool) (T : Event σ) (body : Run σ Unit) (B : Event σ)

/-- The event of a loop that tests first, from those of its parts. -/
def testFirstOverreaches (update : Run σ Unit) (U : Event σ) : Nat → Event σ
  | 0 => T
  | n + 1 => T.orAfter test fun again =>
    if again then after (step limit) fun _ => B.orAfter (goesOn body) fun on =>
      if on then U.orAfter update fun _ => testFirstOverreaches update U n else never
    else never

/-- The event of a loop that tests last, from those of its parts. -/
def bodyFirstOverreaches : Nat → Event σ
  | 0 => never
  | n + 1 => after (step limit) fun _ => B.orAfter (goesOn body) fun on =>
    if on then T.orAfter test fun again => if again then bodyFirstOverreaches n else never
    else never

end Loops

section Attempts

variable (body : Run σ Unit) (B : Event σ)

/-- The event of a body with a handler: that of the body, which no handler is given, or that of the
handler. -/
def handledOverreaches (handler : Value → Event σ) : Event σ := fun m =>
  B m ∨ ∃ i v last, body m = (.error i, last) ∧ i.caught? = some v ∧ handler v last

/-- The event of a body with a finalizer: that of the finalizer, or that of the body if the finalizer
comes to its end. -/
def finalizedOverreaches (finalizer : Option (Run σ Unit)) (L : Event σ) : Event σ := fun m =>
  match finalizer with
  | none => B m
  | some closing => ∃ result last, body m = (result, last) ∧ result ≠ .error .outOfFuel ∧
    (L last ∨ B m ∧ (closing last).1 = .ok ())

end Attempts

section Evaluation

variable (host : Host σ) (limit fuel : Nat) (call : Nat → List Value → Run σ Value)
  (called : Nat → List Value → Event σ)

def callOverreaches (f : Value) (args : List Value) : Event σ :=
  match f with
  | .func place => called place args
  | _ => never

mutual

/-- Does the evaluation of an expression come to an element at an infinite position? -/
def exprOverreaches (env : Env) : Expr → Event σ
  | .number _ => never
  | .text _ => never
  | .literal _ => never
  | .name _ _ => never
  | .func _ => never
  | .member holder property =>
    (exprOverreaches env holder).orAfter (evalExpr host limit call env holder) fun h _ =>
      Value.ReadsBeyond (.text property) h
  | .index holder property =>
    (exprOverreaches env holder).orAfter (evalExpr host limit call env holder) fun h =>
      (exprOverreaches env property).orAfter (evalExpr host limit call env property) fun p _ =>
        p.ReadsBeyond h
  | .call callee args =>
    (exprOverreaches env callee).orAfter (evalExpr host limit call env callee) fun f =>
      (argsOverreach env args).orAfter (evalArgs host limit call env args) fun vs =>
        callOverreaches called f vs
  | .unary _ arg => exprOverreaches env arg
  | .update _ _ target =>
    (targetOverreaches env target).orAfter (evalTarget host limit call env target) fun spot _ =>
      spot.ReadsBeyond
  | .binary _ left right =>
    (exprOverreaches env left).orAfter (evalExpr host limit call env left) fun _ =>
      exprOverreaches env right
  | .logical op left right =>
    (exprOverreaches env left).orAfter (evalExpr host limit call env left) fun a =>
      match op, a.truthy with
      | .and, .ok true => exprOverreaches env right
      | .or, .ok false => exprOverreaches env right
      | _, _ => never
  | .conditional test yes no =>
    (exprOverreaches env test).orAfter (evalExpr host limit call env test) fun v =>
      match v.truthy with
      | .ok true => exprOverreaches env yes
      | .ok false => exprOverreaches env no
      | .error _ => never
  | .assign op target value =>
    (targetOverreaches env target).orAfter (evalTarget host limit call env target) fun spot =>
      match op with
      | .plain => (exprOverreaches env value).orAfter (evalExpr host limit call env value)
          fun _ _ => spot.WritesBeyond
      | .compound _ => orAfter (fun _ => spot.ReadsBeyond) (spot.read host env) fun _ =>
          exprOverreaches env value
  | .list items => argsOverreach env items
  | .object entries => entriesOverreach env entries

def argsOverreach (env : Env) : List Expr → Event σ
  | [] => never
  | e :: rest => (exprOverreaches env e).orAfter (evalExpr host limit call env e) fun _ =>
    argsOverreach env rest

def entriesOverreach (env : Env) : List Entry → Event σ
  | [] => never
  | .mk _ value :: rest => (exprOverreaches env value).orAfter (evalExpr host limit call env value)
    fun _ => entriesOverreach env rest

def targetOverreaches (env : Env) : Target → Event σ
  | .name _ _ => never
  | .member holder _ => exprOverreaches env holder
  | .index holder property =>
    (exprOverreaches env holder).orAfter (evalExpr host limit call env holder) fun _ =>
      exprOverreaches env property

end

def optionOverreaches (env : Env) : Option Expr → Event σ
  | some e => exprOverreaches host limit call called env e
  | none => never

def declareOverreaches (env : Env) (kind : DeclKind) : List Declarator → Event σ
  | [] => never
  | .mk name init :: rest =>
    (optionOverreaches host limit call called env init).orAfter
      (evalOption host limit call env init .undefined) fun v =>
        after (declare (env.headD rootScope) name v (kind == .constDecl)) fun _ =>
          declareOverreaches env kind rest

mutual

def stmtOverreaches (env : Env) : Stmt → Event σ
  | .empty => never
  | .func _ => never
  | .breaking => never
  | .continuing => never
  | .expr e => after (step limit) fun _ => exprOverreaches host limit call called env e
  | .declare kind items =>
    after (step limit) fun _ => declareOverreaches host limit call called env kind items
  | .block b => blockOverreaches env b
  | .branch test yes no => after (step limit) fun _ =>
    (exprOverreaches host limit call called env test).orAfter (evalTest host limit call env test)
      fun b => if b then stmtOverreaches env yes else elseOverreaches env no
  | .whileLoop test body => after (step limit) fun _ =>
    testFirstOverreaches limit (evalTest host limit call env test)
      (exprOverreaches host limit call called env test) (exec host limit fuel call env body)
      (stmtOverreaches env body) (return) never fuel
  | .doLoop body test => after (step limit) fun _ =>
    bodyFirstOverreaches limit (evalTest host limit call env test)
      (exprOverreaches host limit call called env test) (exec host limit fuel call env body)
      (stmtOverreaches env body) fuel
  | .forLoop init test update body => after (step limit) fun _ => after newScope fun place =>
    (elseOverreaches (place :: env) init).orAfter
      (execOption host limit fuel call (place :: env) init) fun _ =>
        testFirstOverreaches limit
          (match test with
            | some e => evalTest host limit call (place :: env) e
            | none => return true)
          (optionOverreaches host limit call called (place :: env) test)
          (exec host limit fuel call (place :: env) body)
          (stmtOverreaches (place :: env) body)
          (do let _ ← evalOption host limit call (place :: env) update .undefined)
          (optionOverreaches host limit call called (place :: env) update)
          fuel
  | .returning value =>
    after (step limit) fun _ => optionOverreaches host limit call called env value
  | .throwing value => after (step limit) fun _ => exprOverreaches host limit call called env value
  | .attempt body handler finalizer => after (step limit) fun _ =>
    finalizedOverreaches
      (handled (execBlock host limit fuel call env body) (execCatch host limit fuel call env handler))
      (handledOverreaches (execBlock host limit fuel call env body) (blockOverreaches env body)
        (catchOverreaches env handler))
      (execFinally host limit fuel call env finalizer) (finallyOverreaches env finalizer)

def blockOverreaches (env : Env) : Block → Event σ
  | .mk body => after (step limit) fun _ => after newScope fun place =>
    after (hoist (place :: env) body) fun _ => allOverreach (place :: env) body

def allOverreach (env : Env) : List Stmt → Event σ
  | [] => never
  | s :: rest => (stmtOverreaches env s).orAfter (exec host limit fuel call env s) fun _ =>
    allOverreach env rest

def elseOverreaches (env : Env) : Option Stmt → Event σ
  | none => never
  | some s => stmtOverreaches env s

def catchOverreaches (env : Env) : Option Catch → Value → Event σ
  | none, _ => never
  | some (.mk param body), v => after newScope fun place =>
    after (if let some name := param then declare place name v else return) fun _ =>
      blockOverreaches (place :: env) body

def finallyOverreaches (env : Env) : Option Block → Event σ
  | none => never
  | some b => blockOverreaches env b

end

def bodyOverreaches (env : Env) (body : List Stmt) : Event σ :=
  after (hoist env body) fun _ => allOverreach host limit fuel call called env body

def paramsOverreach (env : Env) : List Param → List Value → Event σ
  | [], _ => never
  | .mk name default :: rest, args =>
    match args.headD .undefined with
    | .undefined => (optionOverreaches host limit call called env default).orAfter
        (evalOption host limit call env default .undefined) fun v =>
          after (declare (env.headD rootScope) name v) fun _ => paramsOverreach env rest args.tail
    | v => after (declare (env.headD rootScope) name v) fun _ => paramsOverreach env rest args.tail

def functionOverreaches (env : Env) : Body → Event σ
  | .concise e => exprOverreaches host limit call called env e
  | .block (.mk body) => bodyOverreaches host limit fuel call called env body

def closureOverreaches (args : List Value) : Option Closure → Event σ
  | none => never
  | some ⟨.mk _ params body, env⟩ => after newScope fun place =>
    (paramsOverreach host limit call called (place :: env) params args).orAfter
      (bindParams host limit call (place :: env) params args) fun _ m =>
        functionOverreaches host limit fuel call called (place :: env) body
          { m with depth := m.depth + 1 }

end Evaluation

/-- Does a call of a function of the script come to an element at an infinite position? -/
def invokeOverreaches (host : Host σ) (limit : Nat) : Nat → Nat → List Value → Event σ
  | 0, _, _ => never
  | fuel + 1, place, args => after (step limit) fun _ m =>
    m.depth < maxCallDepth ∧
      closureOverreaches host limit fuel (invoke host limit fuel) (invokeOverreaches host limit fuel)
        args m.closures[place]? m

/-- Does an expression that is evaluated at the root come to an element at an infinite position? -/
def Expr.Overreaches (host : Host σ) (limit : Nat) (e : Expr) : Event σ := fun m =>
  exprOverreaches host limit (invoke host limit (fuelFor limit))
    (invokeOverreaches host limit (fuelFor limit)) rootEnv e m.rewound

/-- Does a run of a script come to an element at an infinite position before its fuel ends, and
nothing put the fault aside? -/
def Program.Overreaches (host : Host σ) (limit fuel : Nat) (p : Program) : Event σ :=
  bodyOverreaches host limit fuel (invoke host limit fuel) (invokeOverreaches host limit fuel) rootEnv
    p.body

end EmitterLogic.Script
