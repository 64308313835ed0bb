import EmitterLogic.Script.Value
import EmitterLogic.Term.Name

/-!
A scripted source of random numbers: a list read round and round.
-/

namespace EmitterLogic

structure Draws where
  numbers : List Float := [0.5]
  position : Nat := 0

namespace Draws

def ofList (numbers : List Float) : Draws := { numbers }

def next (d : Draws) : Float × Draws :=
  let x := d.numbers[d.position % d.numbers.length]?.getD 0.5
  (x, { d with position := (d.position + 1) % d.numbers.length })

end Draws

end EmitterLogic

namespace EmitterLogic.Script

/-- The names that one scope binds, and those among them that cannot be assigned. -/
structure Scope where
  names : Fields Value := []
  constants : List String := []

/-- The scopes in sight, by their places, from the innermost to the root. -/
abbrev Env := List Nat

structure Closure where
  func : Func
  env : Env

structure ObjectCell where
  fields : Fields Value := []
  readOnly : Bool := false

structure Machine (σ : Type) where
  scopes : Array Scope
  lists : Array (Array Value)
  objects : Array ObjectCell
  closures : Array Closure
  steps : Nat
  depth : Nat
  draws : Draws
  host : σ

/-- How it is worded that a helper takes fewer arguments than it is given, by the helper and by how
many it is given. The wording is not the program's own. -/
abbrev Wording := Helper → Nat → String

/-- Why a native function gave no value. -/
inductive Refusal where
  | fault (f : Fault)
  | arguments (most given : Nat) (text : String)
  | exhausted
deriving DecidableEq, Repr

def exhaustion : String := "Maximum call stack size exceeded"

def Refusal.message : Refusal → String
  | fault f => f.message
  | arguments _ _ text => text
  | exhausted => exhaustion

/-- The errors of running scripts. All may be caught but the end of the stack. -/
inductive RuntimeError where
  | undefinedName (name : String)
  | constantAssigned
  | notCallable (callee : String)
  | readOfNothing (holder property : String)
  | writeRefused (holder property : String)
  | readOnlyProperty (key : String)
  | callDepth
  | strayJump
  | stackExhausted
  | helper (callee : String) (why : Refusal)
deriving DecidableEq, Repr

def RuntimeError.message : RuntimeError → String
  | undefinedName name => name ++ " is not defined"
  | constantAssigned => "Assignment to constant variable."
  | notCallable callee => callee ++ " is not a function"
  | readOfNothing holder property =>
    "Cannot read properties of " ++ holder ++ " (reading '" ++ property ++ "')"
  | writeRefused holder property => "Cannot set property '" ++ property ++ "' of " ++ holder
  | readOnlyProperty key => "Cannot assign to read only property '" ++ key ++ "'"
  | callDepth => exhaustion
  | strayJump => "Illegal break/continue statement"
  | stackExhausted => exhaustion
  | helper callee why => callee ++ ": " ++ why.message

/-- How a piece of a script ends when it does not go on to the next. A fault is no error of the
script: it passes by every handler. So do the end of the steps and the end of the fuel. -/
inductive Interrupt where
  | breaking
  | continuing
  | returned (v : Value)
  | thrown (v : Value) (text : String)
  | failed (e : RuntimeError)
  | stepLimit (limit : Nat)
  | fault (f : Fault)
  | outOfFuel
deriving Repr

/-- The wording of an error that ends a script. -/
def Interrupt.message : Interrupt → String
  | breaking => ""
  | continuing => ""
  | returned _ => ""
  | thrown _ text => "Uncaught " ++ text
  | failed e => e.message
  | stepLimit limit => "script exceeded " ++ toString limit ++ " steps"
  | fault f => f.message
  | outOfFuel => ""

/-- What a handler is given for an interrupt that it may catch. -/
def Interrupt.caught? : Interrupt → Option Value
  | thrown v _ => some v
  | failed .stackExhausted => none
  | failed e => some (.text e.message)
  | _ => none

def Refusal.interrupt (callee : String) : Refusal → Interrupt
  | exhausted => .failed .stackExhausted
  | why => .failed (.helper callee why)

/-- Why a value has no text: a number is beyond the range, or there is no end to the text, as to that
of a list that contains itself. -/
inductive Unspelled where
  | fault (f : Fault)
  | endless
deriving DecidableEq, Repr

def Unspelled.interrupt : Unspelled → Interrupt
  | fault f => .fault f
  | endless => .failed .stackExhausted

def Unspelled.refusal : Unspelled → Refusal
  | fault f => .fault f
  | endless => .exhausted

def floatText (x : Float) : String :=
  if x.isNaN then "NaN"
  else if x.isInf then if x < 0.0 then "-Infinity" else "Infinity"
  else plainNumeral x

/-- A run on a machine: it ends with a value or an interrupt, and always leaves a machine. -/
abbrev Run (σ : Type) := ExceptT Interrupt (StateM (Machine σ))

variable {σ α : Type}

namespace Machine

def start (host : σ) (draws : Draws := {}) : Machine σ :=
  { scopes := #[{}], lists := #[], objects := #[], closures := #[], steps := 0, depth := 0,
    draws, host }

def scope (m : Machine σ) (place : Nat) : Scope := m.scopes[place]?.getD {}

def list (m : Machine σ) (place : Nat) : Array Value := m.lists[place]?.getD #[]

def object (m : Machine σ) (place : Nat) : ObjectCell := m.objects[place]?.getD {}

def addList (m : Machine σ) (items : Array Value) : Value × Machine σ :=
  (.list m.lists.size, { m with lists := m.lists.push items })

def addObject (m : Machine σ) (cell : ObjectCell) : Value × Machine σ :=
  (.object m.objects.size, { m with objects := m.objects.push cell })

def addClosure (m : Machine σ) (c : Closure) : Value × Machine σ :=
  (.func m.closures.size, { m with closures := m.closures.push c })

def addScope (m : Machine σ) : Nat × Machine σ :=
  (m.scopes.size, { m with scopes := m.scopes.push {} })

def rewound (m : Machine σ) : Machine σ := { m with steps := 0, depth := 0 }

/-- The text of a value, of lists no deeper inside lists than the bound. -/
def textWithin (m : Machine σ) : Nat → Value → Except Unspelled String
  | _, .undefined => .ok "undefined"
  | _, .null => .ok "null"
  | _, .bool b => .ok (if b then "true" else "false")
  | _, .number n => (n.toFloat.map floatText).mapError .fault
  | _, .text s => .ok s
  | 0, .list _ => .error .endless
  | n + 1, .list place => do
    let texts ← (m.list place).toList.mapM fun v =>
      if v.isNothing then .ok "" else textWithin m n v
    return String.intercalate "," texts
  | _, .object _ => .ok "[object Object]"
  | _, .func _ => .ok "function"
  | _, .native _ => .ok "function"

def textOf (m : Machine σ) (v : Value) : Except Unspelled String :=
  m.textWithin (m.lists.size + 1) v

mutual

/-- Puts a value of a document into memory. -/
def load (m : Machine σ) : Datum → Value × Machine σ
  | .null => (.null, m)
  | .undefined => (.undefined, m)
  | .bool b => (.bool b, m)
  | .number n => (.number n, m)
  | .text s => (.text s, m)
  | .list items =>
    let (vs, m) := loadItems m items
    m.addList vs.toArray
  | .object entries =>
    let (fields, m) := loadEntries m entries
    m.addObject { fields }

def loadItems (m : Machine σ) : List Datum → List Value × Machine σ
  | [] => ([], m)
  | d :: rest =>
    let (v, m) := load m d
    let (vs, m) := loadItems m rest
    (v :: vs, m)

def loadEntries (m : Machine σ) : List (String × Datum) → Fields Value × Machine σ
  | [] => ([], m)
  | (key, d) :: rest =>
    let (v, m) := load m d
    let (fields, m) := loadEntries m rest
    ((key, v) :: fields, m)

end

end Machine

def orFault : Except Fault α → Run σ α
  | .ok a => pure a
  | .error f => throw (.fault f)

def fail (e : RuntimeError) : Run σ α := throw (.failed e)

def step (limit : Nat) : Run σ Unit := fun m =>
  let m := { m with steps := m.steps + 1 }
  (if limit != 0 && limit < m.steps then .error (.stepLimit limit) else .ok (), m)

def deeper (r : Run σ α) : Run σ α := fun m =>
  let (result, m) := r { m with depth := m.depth + 1 }
  (result, { m with depth := m.depth - 1 })

/-- A request to what is outside of the machine. It may look at the machine, but changes only the
host and the random numbers. -/
def outside {ε : Type} (r : ExceptT ε (StateM (Machine σ)) α) : ExceptT ε (StateM (Machine σ)) α :=
  fun m =>
    let (result, after) := r m
    (result, { m with draws := after.draws, host := after.host })

def newScope : Run σ Nat := modifyGet Machine.addScope

def newList (items : List Value) : Run σ Value := modifyGet (·.addList items.toArray)

def newObject (fields : Fields Value) : Run σ Value := modifyGet (·.addObject { fields })

def newClosure (c : Closure) : Run σ Value := modifyGet (·.addClosure c)

def textOf (v : Value) : Run σ String := do
  match (← get).textOf v with
  | .ok s => return s
  | .error e => throw e.interrupt

/-- Binds a name in a scope. -/
def declare (place : Nat) (name : String) (v : Value) (constant : Bool := false) : Run σ Unit :=
  modify fun m => { m with
    scopes := m.scopes.modify place fun s =>
      { names := s.names.put name v
        constants := if constant then name :: s.constants else s.constants.filter (· != name) } }

/-- What a script can reach outside of itself: names of its host, and native functions. The host's
names stand behind those of the root scope. All but the names is asked for with `outside`. -/
structure Host (σ : Type) where
  has : σ → String → Bool
  read : String → Run σ Value
  write : String → Value → Run σ Unit
  call : Native → List Value → ExceptT Refusal (StateM (Machine σ)) Value

/-- Where a name is bound. -/
inductive Place where
  | scope (place : Nat)
  | host
  | nowhere
deriving DecidableEq, Repr

def placeOf (host : Host σ) (m : Machine σ) (name : String) : Env → Place
  | [] => if host.has m.host name then .host else .nowhere
  | s :: rest => if (m.scope s).names.has name then .scope s else placeOf host m name rest

def rootScope : Nat := 0

def readName (host : Host σ) (env : Env) (name : String) : Run σ Value := do
  let m ← get
  match placeOf host m name env with
  | .scope s => return ((m.scope s).names.get? name).getD .undefined
  | .host => outside (host.read name)
  | .nowhere => fail (.undefinedName name)

/-- Assigns to a name where it is bound; a name that is bound nowhere becomes one of the root. -/
def writeName (host : Host σ) (env : Env) (name : String) (v : Value) : Run σ Unit := do
  let m ← get
  match placeOf host m name env with
  | .scope s =>
    if (m.scope s).constants.contains name then fail .constantAssigned
    modify fun m => { m with
      scopes := m.scopes.modify s fun c => { c with names := c.names.put name v } }
  | .host => outside (host.write name v)
  | .nowhere =>
    modify fun m => { m with
      scopes := m.scopes.modify rootScope fun c => { c with names := c.names.put name v } }

/-- The position that a number gives in a list or text. -/
def positionOf (property : Value) : Except Fault (Option Int) := do
  let x ← property.toNumber
  if x.isNaN then return none
  let n ← truncated x
  return if isWhole x then some n else none

def readElement (size : Nat) (get : Nat → Option Value) (property : Value) :
    Except Fault Value := do
  if let .text "length" := property then return .float (Float.ofNat size)
  match ← positionOf property with
  | some n => return if 0 ≤ n then (get n.toNat).getD .undefined else .undefined
  | none => return .undefined

def readMember (holder property : Value) : Run σ Value := do
  match holder with
  | .undefined | .null =>
    fail (.readOfNothing (← textOf holder) (← textOf property))
  | .object place =>
    let key ← textOf property
    return ((← get).object place).fields.get? key |>.getD .undefined
  | .list place =>
    let items := (← get).list place
    orFault (readElement items.size (items[·]?) property)
  | .text s =>
    let cs := s.toList
    let element (i : Nat) : Option Value := cs[i]?.map fun c => .text (String.singleton c)
    orFault (readElement cs.length element property)
  | _ => return .undefined

def putItem (items : Array Value) (i : Nat) (v : Value) : Array Value :=
  if i < items.size then items.setIfInBounds i v
  else (items ++ Array.replicate (i - items.size) Value.undefined).push v

def refuseWrite (holder property : Value) : Run σ α := do
  let property ← textOf property
  fail (.writeRefused (← textOf holder) property)

def writeMember (holder property v : Value) : Run σ Unit := do
  match holder with
  | .object place =>
    let key ← textOf property
    if ((← get).object place).readOnly then fail (.readOnlyProperty key)
    modify fun m => { m with
      objects := m.objects.modify place fun c => { c with fields := c.fields.put key v } }
  | .list place =>
    match ← orFault (positionOf property) with
    | some (.ofNat i) =>
      modify fun m => { m with lists := m.lists.modify place fun items => putItem items i v }
    | _ => refuseWrite holder property
  | _ => refuseWrite holder property

end EmitterLogic.Script
