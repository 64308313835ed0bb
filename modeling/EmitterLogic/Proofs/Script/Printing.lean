import EmitterLogic.Proofs.Script.Spelling

namespace EmitterLogic.Script

def Literal.word : Literal → String
  | bool true => "true"
  | bool false => "false"
  | null => "null"
  | undefined => "undefined"

def UnaryOp.kind : UnaryOp → TokenKind
  | not => .mark .not
  | negate => .mark .minus
  | toNumber => .mark .plus
  | typeOf => .word "typeof"

def UpdateOp.mark : UpdateOp → Mark
  | increment => .increment
  | decrement => .decrement

def BinaryOp.mark : BinaryOp → Mark
  | sequence => .comma
  | looseEq => .looseEq
  | looseNe => .looseNe
  | strictEq => .strictEq
  | strictNe => .strictNe
  | compare .lt => .lt
  | compare .gt => .gt
  | compare .le => .le
  | compare .ge => .ge
  | arith .add => .plus
  | arith .sub => .minus
  | arith .mul => .star
  | arith .div => .slash
  | arith .rem => .percent

def LogicalOp.mark : LogicalOp → Mark
  | and => .and
  | or => .or

def AssignOp.mark : AssignOp → Mark
  | plain => .assign
  | compound .add => .addAssign
  | compound .sub => .subAssign
  | compound .mul => .mulAssign
  | compound .div => .divAssign
  | compound .rem => .remAssign

def BinaryOp.looseness : BinaryOp → Nat
  | arith .mul | arith .div | arith .rem => 4
  | arith .add | arith .sub => 5
  | compare _ => 6
  | looseEq | looseNe | strictEq | strictNe => 7
  | sequence => 11

def LogicalOp.looseness : LogicalOp → Nat
  | and => 8
  | or => 9

/-- The level of an expression; that of a conditional and an assignment is the same, since no place
takes only one of them. -/
def Expr.looseness : Expr → Nat
  | number _ | text _ | literal _ | name _ _ | list _ | object _ | func _ => 0
  | member _ _ | index _ _ | call _ _ => 1
  | update _ false _ => 2
  | update _ true _ | unary _ _ => 3
  | binary op _ _ => op.looseness
  | logical op _ _ => op.looseness
  | conditional _ _ _ | assign _ _ _ => 10

/-- The tokens of a part in a place that takes a level. -/
def group (level looseness : Nat) (ks : List TokenKind) : List TokenKind :=
  if level < looseness then .mark .leftParen :: (ks ++ [.mark .rightParen]) else ks

mutual

/-- The tokens that an expression is printed as. The right operand of an operation is in a tighter
place than the left one. -/
def Expr.kinds : Expr → List TokenKind
  | .number x => [.number x]
  | .text s => [.text s]
  | .literal l => [.word l.word]
  | .name id _ => [.word id]
  | .member e p => group 1 e.looseness e.kinds ++ [.mark .dot, .word p]
  | .index e p =>
    group 1 e.looseness e.kinds ++ .mark .leftBracket :: (p.kinds ++ [.mark .rightBracket])
  | .call e args =>
    group 1 e.looseness e.kinds ++ .mark .leftParen :: (listKinds args ++ [.mark .rightParen])
  | .unary op e => op.kind :: group 3 e.looseness e.kinds
  | .update op true t => .mark op.mark :: t.kinds
  | .update op false t => t.kinds ++ [.mark op.mark]
  | .binary op a b =>
    group op.looseness a.looseness a.kinds ++
      .mark op.mark :: group (op.looseness - 1) b.looseness b.kinds
  | .logical op a b =>
    group op.looseness a.looseness a.kinds ++
      .mark op.mark :: group (op.looseness - 1) b.looseness b.kinds
  | .conditional test yes no =>
    group 9 test.looseness test.kinds ++ .mark .question :: (group 10 yes.looseness yes.kinds ++
      .mark .colon :: group 10 no.looseness no.kinds)
  | .assign op t e => t.kinds ++ .mark op.mark :: group 10 e.looseness e.kinds
  | .list items => .mark .leftBracket :: (listKinds items ++ [.mark .rightBracket])
  | .object _ => []
  | .func _ => []

def Target.kinds : Target → List TokenKind
  | .name id _ => [.word id]
  | .member e p => group 1 e.looseness e.kinds ++ [.mark .dot, .word p]
  | .index e p =>
    group 1 e.looseness e.kinds ++ .mark .leftBracket :: (p.kinds ++ [.mark .rightBracket])

def listKinds : List Expr → List TokenKind
  | [] => []
  | [e] => group 10 e.looseness e.kinds
  | e :: es => group 10 e.looseness e.kinds ++ .mark .comma :: listKinds es

end

/-- The text of an expression. -/
def Expr.printed (e : Expr) : String := String.ofList (spelled e.kinds)

mutual

/-- What can be printed: numbers are finite and have no sign, names and members are words, a name is
not reserved, and there are no objects and no functions. -/
def Expr.Printable : Expr → Prop
  | .number x => x.isFinite = true ∧ Binary64.Unsigned x
  | .text _ => True
  | .literal _ => True
  | .name id _ => isWord id = true ∧ isReserved id = false
  | .member e p => e.Printable ∧ isWord p = true
  | .index e p => e.Printable ∧ p.Printable
  | .call e args => e.Printable ∧ AllPrintable args
  | .unary _ e => e.Printable
  | .update _ _ t => t.Printable
  | .binary _ a b => a.Printable ∧ b.Printable
  | .logical _ a b => a.Printable ∧ b.Printable
  | .conditional test yes no => test.Printable ∧ yes.Printable ∧ no.Printable
  | .assign _ t e => t.Printable ∧ e.Printable
  | .list items => AllPrintable items
  | .object _ => False
  | .func _ => False

def Target.Printable : Target → Prop
  | .name id _ => isWord id = true ∧ isReserved id = false
  | .member e p => e.Printable ∧ isWord p = true
  | .index e p => e.Printable ∧ p.Printable

def AllPrintable : List Expr → Prop
  | [] => True
  | e :: es => e.Printable ∧ AllPrintable es

end

mutual

/-- An expression without the places of its names. -/
def Expr.forget : Expr → Expr
  | .number x => .number x
  | .text s => .text s
  | .literal l => .literal l
  | .name id _ => .name id 0
  | .member e p => .member e.forget p
  | .index e p => .index e.forget p.forget
  | .call e args => .call e.forget (forgetAll args)
  | .unary op e => .unary op e.forget
  | .update op before t => .update op before t.forget
  | .binary op a b => .binary op a.forget b.forget
  | .logical op a b => .logical op a.forget b.forget
  | .conditional test yes no => .conditional test.forget yes.forget no.forget
  | .assign op t e => .assign op t.forget e.forget
  | .list items => .list (forgetAll items)
  | .object entries => .object entries
  | .func f => .func f

def Target.forget : Target → Target
  | .name id _ => .name id 0
  | .member e p => .member e.forget p
  | .index e p => .index e.forget p.forget

def forgetAll : List Expr → List Expr
  | [] => []
  | e :: es => e.forget :: forgetAll es

end

section Targets

variable {t : Target}

theorem target?_of_forget {e : Expr} (h : e.forget = t.toExpr.forget) :
    ∃ t', e.target? = some t' ∧ t'.forget = t.forget := by
  cases t with
  | name id place =>
    cases e <;> simp only [Target.toExpr, Expr.forget, reduceCtorEq] at h
    next id' place' => exact ⟨_, rfl, by simpa [Target.forget] using h⟩
  | member holder property =>
    cases e <;> simp only [Target.toExpr, Expr.forget, reduceCtorEq] at h
    next holder' property' => exact ⟨_, rfl, by simpa [Target.forget] using h⟩
  | index holder property =>
    cases e <;> simp only [Target.toExpr, Expr.forget, reduceCtorEq] at h
    next holder' property' => exact ⟨_, rfl, by simpa [Target.forget] using h⟩

end Targets

end EmitterLogic.Script
