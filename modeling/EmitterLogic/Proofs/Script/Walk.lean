import EmitterLogic.Proofs.Script.Compatible

namespace EmitterLogic.Script

variable {σ α β : Type}

mutual

/-- How many nodes a tree has. The body of a function is no part of the tree that it stands in. -/
def Expr.size : Expr → Nat
  | .number _ => 1
  | .text _ => 1
  | .literal _ => 1
  | .name _ _ => 1
  | .member holder _ => holder.size + 1
  | .index holder property => holder.size + property.size + 1
  | .call callee args => callee.size + argsSize args + 1
  | .unary _ arg => arg.size + 1
  | .update _ _ target => target.size + 1
  | .binary _ left right => left.size + right.size + 1
  | .logical _ left right => left.size + right.size + 1
  | .conditional test yes no => test.size + (yes.size + no.size) + 1
  | .assign _ target value => target.size + value.size + 1
  | .list items => argsSize items + 1
  | .object entries => entriesSize entries + 1
  | .func _ => 1

def argsSize : List Expr → Nat
  | [] => 0
  | e :: rest => e.size + argsSize rest

def entriesSize : List Entry → Nat
  | [] => 0
  | .mk _ value :: rest => value.size + entriesSize rest

def Target.size : Target → Nat
  | .name _ _ => 1
  | .member holder _ => holder.size + 1
  | .index holder property => holder.size + property.size + 1

end

/-- A run that keeps a list of the nodes it visits. -/
abbrev Walk (σ : Type) := ExceptT Interrupt (StateM (Machine σ × List Nat))

namespace Walk

def visit (n : Nat) : Walk σ Unit := fun s => (.ok (), (s.1, s.2 ++ [n]))

/-- A run that visits no node. -/
def lift (r : Run σ α) : Walk σ α := fun s => ((r s.1).1, ((r s.1).2, s.2))

end Walk

open Walk

section Walking

variable (host : Host σ) (limit : Nat) (call : Nat → List Value → Run σ Value)

mutual

/-- Evaluates an expression whose own node has the number `n`. -/
def walkExpr (env : Env) (n : Nat) : Expr → Walk σ Value
  | .number x => do
    visit n
    return .float x
  | .text s => do
    visit n
    return .text s
  | .literal l => do
    visit n
    return .ofLiteral l
  | .name id _ => do
    visit n
    lift (readName host env id)
  | .member holder property => do
    visit n
    let h ← walkExpr env (n + 1) holder
    lift (readMember h (.text property))
  | .index holder property => do
    visit n
    let h ← walkExpr env (n + 1) holder
    let p ← walkExpr env (n + 1 + holder.size) property
    lift (readMember h p)
  | .call callee args => do
    visit n
    let f ← walkExpr env (n + 1) callee
    let vs ← walkArgs env (n + 1 + callee.size) args
    lift (callValue host limit call callee.calleeName f vs)
  | .unary op arg => do
    visit n
    match op, arg with
    | .typeOf, .name id _ =>
      if placeOf host (← lift get) id env == .nowhere then return .text "undefined"
      visit (n + 1)
      let v ← lift (readName host env id)
      lift (UnaryOp.apply .typeOf v)
    | op, arg =>
      let v ← walkExpr env (n + 1) arg
      lift (op.apply v)
  | .update op before target => do
    visit n
    let spot ← walkTarget env (n + 1) target
    lift do
      let old ← orFault (← spot.read host env).toNumber
      let new := match op with
        | .increment => old + 1.0
        | .decrement => old - 1.0
      spot.write host env (.float new)
      return .float (if before then new else old)
  | .binary op left right => do
    visit n
    let a ← walkExpr env (n + 1) left
    let b ← walkExpr env (n + 1 + left.size) right
    lift (op.apply a b)
  | .logical op left right => do
    visit n
    let a ← walkExpr env (n + 1) left
    match op, ← lift (orFault a.truthy) with
    | .and, true => walkExpr env (n + 1 + left.size) right
    | .or, false => walkExpr env (n + 1 + left.size) right
    | _, _ => return a
  | .conditional test yes no => do
    visit n
    let v ← walkExpr env (n + 1) test
    if ← lift (orFault v.truthy) then walkExpr env (n + 1 + test.size) yes
    else walkExpr env (n + 1 + test.size + yes.size) no
  | .assign op target value => do
    visit n
    let spot ← walkTarget env (n + 1) target
    let v ← match op with
      | .plain => walkExpr env (n + 1 + target.size) value
      | .compound o => do
        let old ← lift (spot.read host env)
        let v ← walkExpr env (n + 1 + target.size) value
        lift (applyArith o old v)
    lift (spot.write host env v)
    return v
  | .list items => do
    visit n
    let vs ← walkArgs env (n + 1) items
    lift (newList vs)
  | .object entries => do
    visit n
    let fields ← walkEntries env (n + 1) [] entries
    lift (newObject fields)
  | .func f => do
    visit n
    lift (newClosure ⟨f, env⟩)

def walkArgs (env : Env) (n : Nat) : List Expr → Walk σ (List Value)
  | [] => return []
  | e :: rest => do
    let v ← walkExpr env n e
    return v :: (← walkArgs env (n + e.size) rest)

def walkEntries (env : Env) (n : Nat) (fields : Fields Value) :
    List Entry → Walk σ (Fields Value)
  | [] => return fields
  | .mk key value :: rest => do
    let v ← walkExpr env n value
    walkEntries env (n + value.size) (fields.put key v) rest

def walkTarget (env : Env) (n : Nat) : Target → Walk σ Spot
  | .name id _ => do
    visit n
    return .name id
  | .member holder property => do
    visit n
    return .member (← walkExpr env (n + 1) holder) (.text property)
  | .index holder property => do
    visit n
    let h ← walkExpr env (n + 1) holder
    return .member h (← walkExpr env (n + 1 + holder.size) property)

end

end Walking

def Follows (w : Walk σ α) (r : Run σ α) (n k : Nat) : Prop :=
  ∀ m seen, ∃ more, more.Sublist (List.range' n k) ∧
    w (m, seen) = ((r m).1, ((r m).2, seen ++ more))

variable {w : Walk σ α} {r : Run σ α} {f : α → Walk σ β} {g : α → Run σ β} {n k j : Nat}

theorem walk_ok {x : Walk σ α} {f : α → Walk σ β} {s after : Machine σ × List Nat} {a : α}
    (h : x s = (.ok a, after)) : (x >>= f) s = f a after := by
  simp only [bind, ExceptT.bind, ExceptT.mk, StateT.bind, h, ExceptT.bindCont]

theorem walk_error {x : Walk σ α} {f : α → Walk σ β} {s after : Machine σ × List Nat}
    {i : Interrupt} (h : x s = (.error i, after)) : (x >>= f) s = (.error i, after) := by
  simp only [bind, ExceptT.bind, ExceptT.mk, StateT.bind, h, ExceptT.bindCont]
  rfl

namespace Follows

theorem lift (r : Run σ α) : Follows (lift r) r n k := by
  intro m seen
  exact ⟨[], List.nil_sublist _, by rw [List.append_nil]; rfl⟩

theorem value (a : α) : Follows (pure a : Walk σ α) (pure a) n k := lift (pure a)

theorem weaken (h : Follows w r n k) (le : k ≤ j) : Follows w r n j := by
  intro m seen
  obtain ⟨more, sub, same⟩ := h m seen
  exact ⟨more, sub.trans (List.range'_sublist_right.mpr le), same⟩

theorem seq (h : Follows w r n k) (rest : ∀ a, Follows (f a) (g a) (n + k) j) :
    Follows (w >>= f) (r >>= g) n (k + j) := by
  intro m seen
  obtain ⟨more, sub, same⟩ := h m seen
  have numbers : List.range' n (k + j) = List.range' n k ++ List.range' (n + k) j :=
    List.range'_append_1.symm
  rcases e : r m with ⟨result, after⟩
  rw [e] at same
  cases result with
  | error i =>
    refine ⟨more, numbers ▸ sub.trans (List.sublist_append_left _ _), ?_⟩
    rw [seq_error e]
    exact walk_error same
  | ok a =>
    obtain ⟨next, nextSub, nextSame⟩ := rest a after (seen ++ more)
    refine ⟨more ++ next, numbers ▸ sub.append nextSub, ?_⟩
    rw [seq_ok e, ← List.append_assoc]
    exact (walk_ok same).trans nextSame

theorem ask (q : Run σ α) (rest : ∀ a, Follows (f a) (g a) n k) :
    Follows (Walk.lift q >>= f) (q >>= g) n k := by
  have asked := seq (k := 0) (lift q) rest
  rwa [Nat.zero_add] at asked

theorem skip (h : Follows w r (n + j) k) : Follows w r n (j + k) := by
  intro m seen
  obtain ⟨more, sub, same⟩ := h m seen
  have numbers : List.range' n (j + k) = List.range' n j ++ List.range' (n + j) k :=
    List.range'_append_1.symm
  exact ⟨more, numbers ▸ sub.trans (List.sublist_append_right _ _), same⟩

theorem node (h : Follows w r (n + 1) k) : Follows (visit n >>= fun _ => w) r n (k + 1) := by
  intro m seen
  obtain ⟨more, sub, same⟩ := h m (seen ++ [n])
  refine ⟨n :: more, ?_, ?_⟩
  · rw [List.range'_succ]
    exact sub.cons_cons n
  · rw [List.append_assoc, List.singleton_append] at same
    exact (walk_ok rfl).trans same

theorem choose {c : Prop} [Decidable c] {v : Walk σ α} {q : Run σ α} (h : Follows w r n k)
    (h' : Follows v q n k) : Follows (if c then w else v) (if c then r else q) n k := by
  split
  · exact h
  · exact h'

end Follows

section Walking

variable (host : Host σ) (limit : Nat) (call : Nat → List Value → Run σ Value)

mutual

theorem walkExpr_follows (env : Env) (n : Nat) (e : Expr) :
    Follows (walkExpr host limit call env n e) (evalExpr host limit call env e) n e.size := by
  cases e with
  | number x =>
    simp only [walkExpr, evalExpr]
    exact .node (.value (k := 0) _)
  | text s =>
    simp only [walkExpr, evalExpr]
    exact .node (.value (k := 0) _)
  | literal l =>
    simp only [walkExpr, evalExpr]
    exact .node (.value (k := 0) _)
  | name id position =>
    simp only [walkExpr, evalExpr]
    exact .node (.lift (k := 0) _)
  | member holder property =>
    simp only [walkExpr, evalExpr]
    exact .node (.seq (walkExpr_follows env (n + 1) holder) fun _ => .lift (k := 0) _)
  | index holder property =>
    simp only [walkExpr, evalExpr]
    exact .node (.seq (walkExpr_follows env (n + 1) holder) fun _ =>
      .seq (walkExpr_follows env (n + 1 + holder.size) property) fun _ => .lift (k := 0) _)
  | call callee args =>
    simp only [walkExpr, evalExpr]
    exact .node (.seq (walkExpr_follows env (n + 1) callee) fun _ =>
      .seq (walkArgs_follows env (n + 1 + callee.size) args) fun _ => .lift (k := 0) _)
  | unary op arg =>
    simp only [evalExpr]
    split
    · simp only [walkExpr]
      refine .node (.ask _ fun m => .choose (.value _) ?_)
      exact .node (.ask _ fun _ => .lift (k := 0) _)
    · next other =>
      rw [walkExpr]
      · exact .node (.seq (walkExpr_follows env (n + 1) arg) fun _ => .lift (k := 0) _)
      · exact other
  | update op before target =>
    simp only [walkExpr, evalExpr]
    exact .node (.seq (walkTarget_follows env (n + 1) target) fun _ => .lift (k := 0) _)
  | binary op left right =>
    simp only [walkExpr, evalExpr]
    exact .node (.seq (walkExpr_follows env (n + 1) left) fun _ =>
      .seq (walkExpr_follows env (n + 1 + left.size) right) fun _ => .lift (k := 0) _)
  | logical op left right =>
    simp only [walkExpr, evalExpr]
    refine .node (.seq (walkExpr_follows env (n + 1) left) fun a => ?_)
    have second := walkExpr_follows env (n + 1 + left.size) right
    refine .ask _ fun b => ?_
    cases op <;> cases b
    · exact .value _
    · exact second
    · exact second
    · exact .value _
  | conditional test yes no =>
    simp only [walkExpr, evalExpr]
    refine .node (.seq (walkExpr_follows env (n + 1) test) fun v => .ask _ fun b => .choose ?_ ?_)
    · exact (walkExpr_follows env (n + 1 + test.size) yes).weaken (Nat.le_add_right _ _)
    · exact (walkExpr_follows env (n + 1 + test.size + yes.size) no).skip
  | assign op target value =>
    simp only [walkExpr, evalExpr]
    refine .node (.seq (walkTarget_follows env (n + 1) target) fun spot => ?_)
    have second := walkExpr_follows env (n + 1 + target.size) value
    cases op with
    | plain => exact .seq second fun _ => .ask _ fun _ => .value (k := 0) _
    | compound o =>
      exact .ask _ fun _ => .seq second fun _ => .ask _ fun _ => .ask _ fun _ => .value (k := 0) _
  | list items =>
    simp only [walkExpr, evalExpr]
    exact .node (.seq (walkArgs_follows env (n + 1) items) fun _ => .lift (k := 0) _)
  | object entries =>
    simp only [walkExpr, evalExpr]
    exact .node (.seq (walkEntries_follows env (n + 1) [] entries) fun _ => .lift (k := 0) _)
  | func f =>
    simp only [walkExpr, evalExpr]
    exact .node (.lift (k := 0) _)

theorem walkArgs_follows (env : Env) (n : Nat) (args : List Expr) :
    Follows (walkArgs host limit call env n args) (evalArgs host limit call env args) n
      (argsSize args) := by
  cases args with
  | nil => exact .value _
  | cons e rest =>
    simp only [walkArgs, evalArgs]
    exact .seq (walkExpr_follows env n e) fun _ =>
      .seq (walkArgs_follows env (n + e.size) rest) fun _ => .value (k := 0) _

theorem walkEntries_follows (env : Env) (n : Nat) (fields : Fields Value) (entries : List Entry) :
    Follows (walkEntries host limit call env n fields entries)
      (evalEntries host limit call env fields entries) n (entriesSize entries) := by
  cases entries with
  | nil => exact .value _
  | cons entry rest =>
    obtain ⟨key, value⟩ := entry
    simp only [walkEntries, evalEntries]
    exact .seq (walkExpr_follows env n value) fun v =>
      walkEntries_follows env (n + value.size) (fields.put key v) rest

theorem walkTarget_follows (env : Env) (n : Nat) (target : Target) :
    Follows (walkTarget host limit call env n target) (evalTarget host limit call env target) n
      target.size := by
  cases target with
  | name id position =>
    simp only [walkTarget, evalTarget]
    exact .node (.value (k := 0) _)
  | member holder property =>
    simp only [walkTarget, evalTarget]
    exact .node (.seq (walkExpr_follows env (n + 1) holder) fun _ => .value (k := 0) _)
  | index holder property =>
    simp only [walkTarget, evalTarget]
    exact .node (.seq (walkExpr_follows env (n + 1) holder) fun _ =>
      .seq (walkExpr_follows env (n + 1 + holder.size) property) fun _ => .value (k := 0) _)

end

end Walking

end EmitterLogic.Script
