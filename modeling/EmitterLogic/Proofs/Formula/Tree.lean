import EmitterLogic.Formula.Program
import EmitterLogic.Proofs.Datum.Fields
import EmitterLogic.Proofs.Number.Sign
import EmitterLogic.Proofs.Datum.InRange

/-!
Formulas as trees. The grammar has sums of products of factors; its sentences and the trees that they
stand for are given here, and the program made of a sentence is shown to be the tree in postorder.
-/

namespace EmitterLogic.Formula

inductive Tree where
  | number (x : Float)
  | name (s : String)
  | negation (t : Tree)
  | binary (o : ArithOp) (left right : Tree)
deriving Repr

namespace Tree

def postorder : Tree → List Instr
  | number x => [.number x]
  | name s => [.name s]
  | negation t => t.postorder ++ [.op .negation]
  | binary o left right => left.postorder ++ right.postorder ++ [.op (.binary o)]

/-- The value of a tree, worked out from the leaves on. -/
def value (s : Sight) : Tree → Except Fault Float
  | number x => .ok (finiteOrZero x)
  | name key => s.readD key 0.0
  | negation t => do
    let x ← t.value s
    return if x.isFinite then -x else 0.0
  | binary o left right => do
    let x ← left.value s
    return o.apply x (← right.value s)

end Tree

/-- The signs between the products of a sum. -/
inductive SumSign where
  | plus | minus
deriving DecidableEq, Repr

/-- The signs between the factors of a product. -/
inductive ProductSign where
  | times | divide | modulo
deriving DecidableEq, Repr

def SumSign.op : SumSign → ArithOp
  | plus => .add
  | minus => .sub

def ProductSign.op : ProductSign → ArithOp
  | times => .mul
  | divide => .div
  | modulo => .rem

mutual

/-- Products with `+` and `-` between them, grouped from the left. -/
inductive Sum where
  | one (p : Product)
  | more (left : Sum) (sign : SumSign) (right : Product)

/-- Factors with `*`, `/` and `%` between them, grouped from the left. -/
inductive Product where
  | one (f : Factor)
  | more (left : Product) (sign : ProductSign) (right : Factor)

inductive Factor where
  | negated (f : Factor)
  | number (x : Float)
  | name (s : String)
  | group (e : Sum)

end

mutual

def Sum.tokens : Sum → List Token
  | .one p => p.tokens
  | .more left sign right => left.tokens ++ .op sign.op :: right.tokens

def Product.tokens : Product → List Token
  | .one f => f.tokens
  | .more left sign right => left.tokens ++ .op sign.op :: right.tokens

def Factor.tokens : Factor → List Token
  | .negated f => .op .sub :: f.tokens
  | .number x => [.number x]
  | .name s => [.name s]
  | .group e => .opening :: e.tokens ++ [.closing]

end

mutual

def Sum.tree : Sum → Tree
  | .one p => p.tree
  | .more left sign right => .binary sign.op left.tree right.tree

def Product.tree : Product → Tree
  | .one f => f.tree
  | .more left sign right => .binary sign.op left.tree right.tree

def Factor.tree : Factor → Tree
  | .negated f => .negation f.tree
  | .number x => .number x
  | .name s => .name s
  | .group e => e.tree

end

section Release

variable {level : Nat} {pending : List Pending} {ops : List Operator}

def Below (level : Nat) : List Pending → Prop
  | .op o :: _ => o.rank < level
  | _ => True

theorem releaseFor_negation (pending : List Pending) :
    releaseFor .negation pending = ([], pending) := by
  match pending with
  | [] => rfl
  | .opening :: _ => rfl
  | .op (.binary o) :: _ => cases o <;> rfl
  | .op .negation :: _ => rfl

theorem releaseFor_below {o : ArithOp} (h : Below (Operator.binary o).rank pending) :
    releaseFor (.binary o) pending = ([], pending) := by
  match pending with
  | [] => rfl
  | .opening :: _ => rfl
  | .op waiting :: rest =>
    have stays : ¬(Operator.binary o).rank ≤ waiting.rank := Nat.not_le_of_lt h
    rw [releaseFor, Operator.yields, if_neg (by simpa using stays)]

theorem releaseFor_append {o : ArithOp} (h : ∀ waiting ∈ ops, (Operator.binary o).rank ≤ waiting.rank)
    (below : Below (Operator.binary o).rank pending) :
    releaseFor (.binary o) (ops.map .op ++ pending) = (ops.map .op, pending) := by
  induction ops with
  | nil => exact releaseFor_below below
  | cons waiting ops ih =>
    have goes := h waiting List.mem_cons_self
    have rest := ih fun w hw => h w (List.mem_cons_of_mem _ hw)
    rw [List.map_cons, List.cons_append, releaseFor, Operator.yields, if_pos (by simpa using goes),
      rest]
    rfl

theorem releaseGroup_append (ops : List Operator) (pending : List Pending) :
    releaseGroup (ops.map .op ++ .opening :: pending) = some (ops.map .op, pending) := by
  induction ops with
  | nil => rfl
  | cons o ops ih =>
    rw [List.map_cons, List.cons_append, releaseGroup, ih]
    rfl

theorem releaseAll_map (ops : List Operator) :
    releaseAll (ops.map .op) = some (ops.map .op) := by
  induction ops with
  | nil => rfl
  | cons o ops ih =>
    rw [List.map_cons, releaseAll, ih]
    rfl

end Release

/-- Tokens are read, where a value is expected, as the program of a tree: its front part is put out,
and the operators at its end wait. None of them ranks below the level. -/
structure Reads (level : Nat) (pending : List Pending) (ts : List Token) (program : List Instr)
    (out : List Instr) (ops : List Operator) : Prop where
  whole : out ++ ops.map .op = program
  high : ∀ o ∈ ops, level ≤ o.rank
  goesOn : ∀ rest, programFrom pending false (ts ++ rest) =
    (programFrom (ops.map .op ++ pending) true rest).map (out ++ ·)

theorem map_map_append (x : Except Error (List Instr)) (a b : List Instr) :
    (x.map (b ++ ·)).map (a ++ ·) = x.map (a ++ b ++ ·) := by
  cases x with
  | error e => rfl
  | ok out => simp [Except.map]

theorem Reads.more {level : Nat} {pending : List Pending} {o : ArithOp} {ts us : List Token}
    {p q out out' : List Instr} {ops ops' : List Operator}
    (rank : (Operator.binary o).rank = level) (below : Below level pending)
    (left : Reads level pending ts p out ops)
    (right : Reads (level + 1) (.op (.binary o) :: pending) us q out' ops') :
    Reads level pending (ts ++ .op o :: us) (p ++ q ++ [.op (.binary o)])
      (out ++ (ops.map .op ++ out')) (ops' ++ [.binary o]) := by
  subst rank
  refine ⟨?_, ?_, fun rest => ?_⟩
  · simp [← left.whole, ← right.whole]
  · intro o' h
    rcases List.mem_append.mp h with h | h
    · exact Nat.le_of_succ_le (right.high o' h)
    · obtain rfl := List.mem_singleton.mp h
      exact Nat.le_refl _
  · have next : operatorOf true o = .binary o := by cases o <;> rfl
    have released := releaseFor_append left.high below
    have step : programFrom (ops.map .op ++ pending) true (.op o :: (us ++ rest)) =
        (programFrom (.op (.binary o) :: pending) false (us ++ rest)).map (ops.map .op ++ ·) := by
      rw [programFrom, next, released]
    rw [List.append_assoc, List.cons_append, left.goesOn, step, right.goesOn, map_map_append,
      map_map_append]
    simp

theorem Reads.lower {level level' : Nat} {pending : List Pending} {ts : List Token}
    {p out : List Instr} {ops : List Operator} (h : Reads level pending ts p out ops)
    (le : level' ≤ level) : Reads level' pending ts p out ops :=
  ⟨h.whole, fun o ho => Nat.le_trans le (h.high o ho), h.goesOn⟩

mutual

theorem Sum.reads (e : Sum) (pending : List Pending) (below : Below 1 pending) :
    ∃ out ops, Reads 1 pending e.tokens e.tree.postorder out ops := by
  match e with
  | .one p =>
    obtain ⟨out, ops, h⟩ := p.reads pending (by
      match pending with
      | [] => trivial
      | .opening :: _ => trivial
      | .op o :: _ => exact Nat.lt_succ_of_lt below)
    exact ⟨out, ops, h.lower (by decide)⟩
  | .more left sign right =>
    have rank : (Operator.binary sign.op).rank = 1 := by cases sign <;> rfl
    obtain ⟨out, ops, hl⟩ := left.reads pending below
    obtain ⟨out', ops', hr⟩ := right.reads (.op (.binary sign.op) :: pending)
      (Nat.lt_succ_of_le (Nat.le_of_eq rank))
    exact ⟨_, _, hl.more rank below hr⟩

theorem Product.reads (p : Product) (pending : List Pending) (below : Below 2 pending) :
    ∃ out ops, Reads 2 pending p.tokens p.tree.postorder out ops := by
  match p with
  | .one f =>
    obtain ⟨out, ops, h⟩ := f.reads pending
    exact ⟨out, ops, h.lower (by decide)⟩
  | .more left sign right =>
    have rank : (Operator.binary sign.op).rank = 2 := by cases sign <;> rfl
    obtain ⟨out, ops, hl⟩ := left.reads pending below
    obtain ⟨out', ops', hr⟩ := right.reads (.op (.binary sign.op) :: pending)
    exact ⟨_, _, hl.more rank below hr⟩

theorem Factor.reads (f : Factor) (pending : List Pending) :
    ∃ out ops, Reads 3 pending f.tokens f.tree.postorder out ops := by
  match f with
  | .number x => exact ⟨[.number x], [], rfl, nofun, fun _ => rfl⟩
  | .name s => exact ⟨[.name s], [], rfl, nofun, fun _ => rfl⟩
  | .negated f =>
    obtain ⟨out, ops, h⟩ := f.reads (.op .negation :: pending)
    refine ⟨out, ops ++ [.negation], ?_, ?_, fun rest => ?_⟩
    · simp [Factor.tree, Tree.postorder, ← h.whole]
    · intro o ho
      rcases List.mem_append.mp ho with ho | ho
      · exact h.high o ho
      · obtain rfl := List.mem_singleton.mp ho
        exact Nat.le_refl _
    · have step : programFrom pending false (.op .sub :: (f.tokens ++ rest)) =
          (programFrom (.op .negation :: pending) false (f.tokens ++ rest)).map ([] ++ ·) := by
        have next : operatorOf false .sub = .negation := rfl
        rw [programFrom, next, releaseFor_negation]
      rw [Factor.tokens, List.cons_append, step, h.goesOn, map_map_append]
      simp
  | .group e =>
    obtain ⟨out, ops, h⟩ := e.reads (.opening :: pending) trivial
    refine ⟨out ++ ops.map .op, [], ?_, nofun, fun rest => ?_⟩
    · simpa [Factor.tree] using h.whole
    · have inside : (Factor.group e).tokens ++ rest =
          .opening :: (e.tokens ++ .closing :: rest) := by simp [Factor.tokens]
      rw [inside, programFrom, h.goesOn, programFrom, releaseGroup_append]
      simp only [map_map_append]
      rfl

end

theorem programOf_tokens (e : Sum) : programOf e.tokens = .ok e.tree.postorder := by
  obtain ⟨out, ops, h⟩ := e.reads [] trivial
  have ended : programFrom (ops.map .op ++ []) true [] = .ok (ops.map .op) := by
    rw [List.append_nil, programFrom, releaseAll_map]
  have all := h.goesOn []
  rw [List.append_nil, ended] at all
  rw [programOf, all, ← h.whole]
  rfl

theorem finiteOrZero_neg (x : Float) : finiteOrZero (-x) = if x.isFinite then -x else 0.0 := by
  rw [finiteOrZero, Binary64.isFinite_neg]

theorem runFrom_postorder (s : Sight) (t : Tree) (rest : List Instr) (stack : List Float) :
    runFrom s (t.postorder ++ rest) stack = t.value s >>= fun x => runFrom s rest (x :: stack) := by
  induction t generalizing rest stack with
  | number x => rfl
  | name key => rfl
  | negation t ih =>
    rw [Tree.postorder, List.append_assoc, ih, Tree.value]
    cases t.value s with
    | error f => rfl
    | ok x => exact congrArg (fun y => runFrom s rest (y :: stack)) (finiteOrZero_neg x)
  | binary o left right ihl ihr =>
    rw [Tree.postorder, List.append_assoc, List.append_assoc, ihl, Tree.value]
    cases left.value s with
    | error f => rfl
    | ok x =>
      refine (ihr _ _).trans ?_
      cases right.value s with
      | error f => rfl
      | ok y => rfl

theorem eval_postorder (s : Sight) (source : String) (t : Tree) :
    eval s ⟨source, t.postorder⟩ = (t.value s).map finiteOrZero := by
  have ran := runFrom_postorder s t [] []
  rw [List.append_nil] at ran
  rw [eval, ran]
  cases t.value s with
  | error f => rfl
  | ok x => rfl

theorem Tree.value_ok {s : Sight} (h : s.InRange) (t : Tree) : ∃ v, t.value s = .ok v := by
  induction t with
  | number x => exact ⟨_, rfl⟩
  | name key => exact Sight.readD_ok h key 0.0
  | negation t ih =>
    obtain ⟨x, hx⟩ := ih
    exact ⟨if x.isFinite then -x else 0.0, by rw [Tree.value, hx]; rfl⟩
  | binary o left right ihl ihr =>
    obtain ⟨x, hx⟩ := ihl
    obtain ⟨y, hy⟩ := ihr
    exact ⟨o.apply x y, by rw [Tree.value, hx, hy]; rfl⟩

/-- A sentence of the grammar has a program, which is its tree in postorder; with all numbers in
range the program has a value, which is that of the tree, or zero if that is not finite. -/
theorem sentence_compiles_and_evaluates (e : Sum) :
    programOf e.tokens = .ok e.tree.postorder ∧
      ∀ (s : Sight) (source : String), s.InRange →
        ∃ v, e.tree.value s = .ok v ∧
          eval s ⟨source, e.tree.postorder⟩ = .ok (finiteOrZero v) := by
  refine ⟨programOf_tokens e, fun s source inRange => ?_⟩
  obtain ⟨v, value⟩ := e.tree.value_ok inRange
  exact ⟨v, value, by rw [eval_postorder, value]; rfl⟩

theorem sentence_compiles_and_evaluates_signs :
    let sum : Sum := .more (.one (.one (.name "a"))) .plus (.one (.number 2.0))
    let e : Sum := .more (.one (.more (.one (.negated (.group sum))) .times (.number 3.0))) .minus
      (.more (.one (.name "b")) .modulo (.negated (.number 4.0)))
    let s : Sight := ⟨[("a", .int 1)], [("b", .float 7.0)]⟩
    s.InRange ∧ programOf e.tokens = .ok e.tree.postorder ∧
      ∃ v, e.tree.value s = .ok v ∧ eval s ⟨"", e.tree.postorder⟩ = .ok (finiteOrZero v) := by
  intro sum e s
  have inRange : s.InRange := by
    constructor
    · intro key n found
      have one : n = .int 1 := by
        rw [Fields.get?_cons] at found
        split at found
        · cases found
          rfl
        · cases found
      rw [one]
      exact ⟨1.0, rfl⟩
    · intro key n found
      have seven : n = .float 7.0 := by
        rw [Fields.get?_cons] at found
        split at found
        · cases found
          rfl
        · cases found
      rw [seven]
      exact ⟨7.0, rfl⟩
  exact ⟨inRange, (sentence_compiles_and_evaluates e).1,
    (sentence_compiles_and_evaluates e).2 s "" inRange⟩

end EmitterLogic.Formula
