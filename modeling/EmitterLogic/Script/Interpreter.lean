import EmitterLogic.Script.Machine

/-!
Running scripts. Evaluation follows the structure of the tree. Only calls of functions and rounds of
loops can go on without end; each of them takes a step and a unit of fuel, so that with a limit of
`N` steps the fuel `N + 1` never runs out.

The stack of the host is taken to be deep enough for every tree and every call up to `maxCallDepth`, and
its memory to have room for every list. Only a text without end, that of a list within itself, exhausts the
stack.
-/

namespace EmitterLogic.Script

variable {σ α : Type}

def maxCallDepth : Nat := 64

/-- The name of a callee in messages. -/
def Expr.calleeName : Expr → String
  | .name id _ => id
  | .member holder property => holder.calleeName ++ "." ++ property
  | _ => "expression"

/-- The value of an operator of arithmetic; a sum with a text, list or object joins texts. -/
def applyArith (o : ArithOp) (a b : Value) : Run σ Value := do
  let joins : Value → Bool
    | .text _ => true
    | .list _ => true
    | .object _ => true
    | _ => false
  if o == .add && (joins a || joins b) then
    let s ← textOf a
    return .text (s ++ (← textOf b))
  let x ← orFault a.toNumber
  let y ← orFault b.toNumber
  return .float (arithmetic o x y)

def BinaryOp.apply (op : BinaryOp) (a b : Value) : Run σ Value :=
  match op with
  | .sequence => return b
  | .looseEq => return .bool (← orFault (a.looseEq b))
  | .looseNe => return .bool !(← orFault (a.looseEq b))
  | .strictEq => return .bool (← orFault (a.strictEq b))
  | .strictNe => return .bool !(← orFault (a.strictEq b))
  | .compare r => return .bool (← orFault (Value.compare r a b))
  | .arith o => applyArith o a b

def UnaryOp.apply (op : UnaryOp) (v : Value) : Run σ Value :=
  match op with
  | .not => return .bool !(← orFault v.truthy)
  | .negate => return .float (-(← orFault v.toNumber))
  | .toNumber => return .float (← orFault v.toNumber)
  | .typeOf => return .text v.typeName

/-- Calls a native function; if it refuses, that is an error of the script. -/
def callNative (host : Host σ) (callee : String) (f : Native) (args : List Value) :
    Run σ Value := fun m =>
  match outside (host.call f args) m with
  | (.ok v, m) => (.ok v, m)
  | (.error why, m) => (.error (why.interrupt callee), m)

/-- Does a loop go on after its body? A break ends it, a continue does not. -/
def goesOn (body : Run σ Unit) : Run σ Bool := fun m =>
  match body m with
  | (.error .breaking, m) => (.ok false, m)
  | (.error .continuing, m) => (.ok true, m)
  | (.ok (), m) => (.ok true, m)
  | (.error i, m) => (.error i, m)

/-- A loop that tests before each round and makes an update after it. -/
def testFirst (limit : Nat) (test : Run σ Bool) (body update : Run σ Unit) : Nat → Run σ Unit
  | 0 => do
    if ← test then
      step limit
      throw .outOfFuel
  | n + 1 => do
    if ← test then
      step limit
      if ← goesOn body then
        update
        testFirst limit test body update n

/-- A loop that tests after each round. -/
def bodyFirst (limit : Nat) (test : Run σ Bool) (body : Run σ Unit) : Nat → Run σ Unit
  | 0 => do
    step limit
    throw .outOfFuel
  | n + 1 => do
    step limit
    if ← goesOn body then
      if ← test then bodyFirst limit test body n

/-- A body whose errors go to a handler, if there is one. -/
def handled (body : Run σ Unit) (handler : Option (Value → Run σ Unit)) : Run σ Unit := fun m =>
  match body m, handler with
  | (.error i, m), some h =>
    match i.caught? with
    | some v => h v m
    | none => (.error i, m)
  | r, _ => r

/-- A body after which a finalizer runs, however the body ends; an interrupt of the finalizer goes
before that of the body. -/
def finalized (body : Run σ Unit) (finalizer : Option (Run σ Unit)) : Run σ Unit := fun m =>
  match finalizer, body m with
  | none, r => r
  | some _, (.error .outOfFuel, m) => (.error .outOfFuel, m)
  | some last, (result, m) =>
    match last m with
    | (.ok (), m) => (result, m)
    | r => r

/-- The value of a function whose body is a block: what it returns, else undefined. Null counts as
undefined. -/
def bodyValue (body : Run σ Unit) : Run σ Value := fun m =>
  match body m with
  | (.ok (), m) => (.ok .undefined, m)
  | (.error (.returned .null), m) => (.ok .undefined, m)
  | (.error (.returned v), m) => (.ok v, m)
  | (.error i, m) => (.error i, m)

/-- The value of a script whose statements have run: what it returns, else undefined. A jump that
no loop took is an error. -/
def scriptValue (body : Run σ Unit) : Run σ Value := fun m =>
  match body m with
  | (.ok (), m) => (.ok .undefined, m)
  | (.error (.returned v), m) => (.ok v, m)
  | (.error .breaking, m) => (.error (.failed .strayJump), m)
  | (.error .continuing, m) => (.error (.failed .strayJump), m)
  | (.error i, m) => (.error i, m)

/-- What an assignment assigns to, with its parts worked out. -/
inductive Spot where
  | name (id : String)
  | member (holder property : Value)

def Spot.read (host : Host σ) (env : Env) : Spot → Run σ Value
  | .name id => readName host env id
  | .member holder property => readMember holder property

def Spot.write (host : Host σ) (env : Env) (v : Value) : Spot → Run σ Unit
  | .name id => writeName host env id v
  | .member holder property => writeMember holder property v

/-- Binds the functions that a list of statements declares. -/
def hoist (env : Env) : List Stmt → Run σ Unit
  | [] => return
  | .func f :: rest => do
    declare (env.headD rootScope) f.name (← newClosure ⟨f, env⟩)
    hoist env rest
  | _ :: rest => hoist env rest

section Evaluation

variable (host : Host σ) (limit fuel : Nat) (call : Nat → List Value → Run σ Value)

/-- Calls a value. -/
def callValue (callee : String) (f : Value) (args : List Value) : Run σ Value := do
  match f with
  | .func place => call place args
  | .native n =>
    step limit
    callNative host callee n args
  | _ => fail (.notCallable callee)

mutual

def evalExpr (env : Env) : Expr → Run σ Value
  | .number x => return .float x
  | .text s => return .text s
  | .literal l => return .ofLiteral l
  | .name id _ => readName host env id
  | .member holder property => do readMember (← evalExpr env holder) (.text property)
  | .index holder property => do
    let h ← evalExpr env holder
    readMember h (← evalExpr env property)
  | .call callee args => do
    let f ← evalExpr env callee
    let vs ← evalArgs env args
    callValue host limit call callee.calleeName f vs
  | .unary op arg => do
    match op, arg with
    | .typeOf, .name id _ =>
      if placeOf host (← get) id env == .nowhere then return .text "undefined"
      UnaryOp.apply .typeOf (← readName host env id)
    | op, _ => op.apply (← evalExpr env arg)
  | .update op before target => do
    let spot ← evalTarget env target
    let old ← orFault (← spot.read host env).toNumber
    let new := match op with
      | .increment => old + 1.0
      | .decrement => old - 1.0
    spot.write host env (.float new)
    return .float (if before then new else old)
  | .binary op left right => do
    let a ← evalExpr env left
    op.apply a (← evalExpr env right)
  | .logical op left right => do
    let a ← evalExpr env left
    match op, ← orFault a.truthy with
    | .and, true => evalExpr env right
    | .or, false => evalExpr env right
    | _, _ => return a
  | .conditional test yes no => do
    if ← orFault (← evalExpr env test).truthy then evalExpr env yes else evalExpr env no
  | .assign op target value => do
    let spot ← evalTarget env target
    let v ← match op with
      | .plain => evalExpr env value
      | .compound o => do
        let old ← spot.read host env
        applyArith o old (← evalExpr env value)
    spot.write host env v
    return v
  | .list items => do newList (← evalArgs env items)
  | .object entries => do newObject (← evalEntries env [] entries)
  | .func f => newClosure ⟨f, env⟩

def evalArgs (env : Env) : List Expr → Run σ (List Value)
  | [] => return []
  | e :: rest => do
    let v ← evalExpr env e
    return v :: (← evalArgs env rest)

def evalEntries (env : Env) (fields : Fields Value) : List Entry → Run σ (Fields Value)
  | [] => return fields
  | .mk key value :: rest => do
    let v ← evalExpr env value
    evalEntries env (fields.put key v) rest

def evalTarget (env : Env) : Target → Run σ Spot
  | .name id _ => return .name id
  | .member holder property => return .member (← evalExpr env holder) (.text property)
  | .index holder property => do
    let h ← evalExpr env holder
    return .member h (← evalExpr env property)

end

def evalTest (env : Env) (e : Expr) : Run σ Bool := do
  orFault (← evalExpr host limit call env e).truthy

/-- The value of an expression that may be missing. -/
def evalOption (env : Env) (e : Option Expr) (default : Value) : Run σ Value :=
  match e with
  | some e => evalExpr host limit call env e
  | none => return default

def declareAll (env : Env) (kind : DeclKind) : List Declarator → Run σ Unit
  | [] => return
  | .mk name init :: rest => do
    let v ← evalOption host limit call env init .undefined
    declare (env.headD rootScope) name v (kind == .constDecl)
    declareAll env kind rest

mutual

/-- Carries out a statement, which takes a step. -/
def exec (env : Env) : Stmt → Run σ Unit
  | .expr e => do
    step limit
    let _ ← evalExpr host limit call env e
  | .empty => step limit
  | .func _ => step limit
  | .declare kind items => do
    step limit
    declareAll host limit call env kind items
  | .block b => execBlock env b
  | .branch test yes no => do
    step limit
    if ← evalTest host limit call env test then exec env yes else execOption env no
  | .whileLoop test body => do
    step limit
    testFirst limit (evalTest host limit call env test) (exec env body) (return) fuel
  | .doLoop body test => do
    step limit
    bodyFirst limit (evalTest host limit call env test) (exec env body) fuel
  | .forLoop init test update body => do
    step limit
    let env := (← newScope) :: env
    execOption env init
    testFirst limit
      (match test with
        | some e => evalTest host limit call env e
        | none => return true)
      (exec env body)
      (do let _ ← evalOption host limit call env update .undefined)
      fuel
  | .returning value => do
    step limit
    throw (.returned (← evalOption host limit call env value .null))
  | .breaking => do
    step limit
    throw .breaking
  | .continuing => do
    step limit
    throw .continuing
  | .throwing value => do
    step limit
    let v ← evalExpr host limit call env value
    throw (.thrown v (← textOf v))
  | .attempt body handler finalizer => do
    step limit
    finalized (handled (execBlock env body) (execCatch env handler)) (execFinally env finalizer)

/-- Carries out a block as a statement of its own, in a scope of its own. -/
def execBlock (env : Env) : Block → Run σ Unit
  | .mk body => do
    step limit
    let env := (← newScope) :: env
    hoist env body
    execAll env body

def execAll (env : Env) : List Stmt → Run σ Unit
  | [] => return
  | s :: rest => do
    exec env s
    execAll env rest

def execOption (env : Env) : Option Stmt → Run σ Unit
  | none => return
  | some s => exec env s

def execCatch (env : Env) : Option Catch → Option (Value → Run σ Unit)
  | none => none
  | some (.mk param body) => some fun v => do
    let place ← newScope
    if let some name := param then declare place name v
    execBlock (place :: env) body

def execFinally (env : Env) : Option Block → Option (Run σ Unit)
  | none => none
  | some b => some (execBlock env b)

end

def execBody (env : Env) (body : List Stmt) : Run σ Unit := do
  hoist env body
  execAll host limit fuel call env body

/-- Binds the parameters of a function from the left; a missing argument takes the default. -/
def bindParams (env : Env) : List Param → List Value → Run σ Unit
  | [], _ => return
  | .mk name default :: rest, args => do
    let v ← match args.headD .undefined with
      | .undefined => evalOption host limit call env default .undefined
      | v => pure v
    declare (env.headD rootScope) name v
    bindParams env rest args.tail

def runBody (env : Env) : Body → Run σ Value
  | .concise e => evalExpr host limit call env e
  | .block (.mk body) => bodyValue (execBody host limit fuel call env body)

/-- Runs a closure in a scope of its own. -/
def runClosure (args : List Value) : Option Closure → Run σ Value
  | none => return .undefined
  | some ⟨.mk _ params body, env⟩ => do
    let env := (← newScope) :: env
    bindParams host limit call env params args
    deeper (runBody host limit fuel call env body)

end Evaluation

/-- Calls a function of the script, with fuel for further calls and for the rounds of loops. -/
def invoke (host : Host σ) (limit : Nat) : Nat → Nat → List Value → Run σ Value
  | 0, _, _ => do
    step limit
    throw .outOfFuel
  | fuel + 1, place, args => do
    step limit
    let m ← get
    if maxCallDepth ≤ m.depth then fail .callDepth
    runClosure host limit fuel (invoke host limit fuel) args m.closures[place]?

def rootEnv : Env := [rootScope]

def fuelFor (limit : Nat) : Nat := if limit == 0 then twoPow 62 else limit + 1

def evaluateWith (host : Host σ) (limit fuel : Nat) (e : Expr) : Run σ Value :=
  evalExpr host limit (invoke host limit fuel) rootEnv e

def runWith (host : Host σ) (limit fuel : Nat) (p : Program) : Run σ Value :=
  scriptValue (execBody host limit fuel (invoke host limit fuel) rootEnv p.body)

def evaluate (host : Host σ) (limit : Nat) (e : Expr) : Run σ Value := fun m =>
  evaluateWith host limit (fuelFor limit) e m.rewound

def run (host : Host σ) (limit : Nat) (p : Program) : Run σ Value := fun m =>
  runWith host limit (fuelFor limit) p m.rewound

end EmitterLogic.Script
