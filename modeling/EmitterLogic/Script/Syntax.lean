import EmitterLogic.Script.Token
import EmitterLogic.Formula.Token

/-!
Scripts as trees.
-/

namespace EmitterLogic.Script

inductive Literal where
  | bool (b : Bool)
  | null
  | undefined
deriving DecidableEq, Repr

inductive UnaryOp where
  | not | negate | toNumber | typeOf
deriving DecidableEq, Repr

inductive UpdateOp where
  | increment | decrement
deriving DecidableEq, Repr

inductive Relation where
  | lt | gt | le | ge
deriving DecidableEq, Repr

/-- The operators that work out both of their operands. -/
inductive BinaryOp where
  | sequence
  | looseEq | looseNe | strictEq | strictNe
  | compare (r : Relation)
  | arith (o : ArithOp)
deriving DecidableEq, Repr

inductive LogicalOp where
  | and | or
deriving DecidableEq, Repr

inductive AssignOp where
  | plain
  | compound (o : ArithOp)
deriving DecidableEq, Repr

inductive DeclKind where
  | letDecl | constDecl | varDecl
deriving DecidableEq, Repr

def UnaryOp.text : UnaryOp → String
  | not => "!"
  | negate => "-"
  | toNumber => "+"
  | typeOf => "typeof"

def UpdateOp.text : UpdateOp → String
  | increment => "++"
  | decrement => "--"

def Relation.text : Relation → String
  | lt => "<"
  | gt => ">"
  | le => "<="
  | ge => ">="

def BinaryOp.text : BinaryOp → String
  | sequence => ","
  | looseEq => "=="
  | looseNe => "!="
  | strictEq => "==="
  | strictNe => "!=="
  | compare r => r.text
  | arith o => o.sign

def LogicalOp.text : LogicalOp → String
  | and => "&&"
  | or => "||"

def AssignOp.text : AssignOp → String
  | plain => "="
  | compound o => o.sign ++ "="

def DeclKind.text : DeclKind → String
  | letDecl => "let"
  | constDecl => "const"
  | varDecl => "var"

mutual

inductive Expr where
  | number (x : Float)
  | text (s : String)
  | literal (l : Literal)
  | name (id : String) (position : Nat)
  | member (holder : Expr) (property : String)
  | index (holder property : Expr)
  | call (callee : Expr) (args : List Expr)
  | unary (op : UnaryOp) (arg : Expr)
  | update (op : UpdateOp) (before : Bool) (target : Target)
  | binary (op : BinaryOp) (left right : Expr)
  | logical (op : LogicalOp) (left right : Expr)
  | conditional (test yes no : Expr)
  | assign (op : AssignOp) (target : Target) (value : Expr)
  | list (items : List Expr)
  | object (entries : List Entry)
  | func (f : Func)

/-- What can be assigned to. -/
inductive Target where
  | name (id : String) (position : Nat)
  | member (holder : Expr) (property : String)
  | index (holder property : Expr)

inductive Entry where
  | mk (key : String) (value : Expr)

inductive Param where
  | mk (name : String) (default : Option Expr)

/-- A function; a concise one has an expression for its body. -/
inductive Func where
  | mk (name : String) (params : List Param) (body : Body)

inductive Body where
  | block (b : Block)
  | concise (e : Expr)

inductive Block where
  | mk (body : List Stmt)

inductive Declarator where
  | mk (name : String) (init : Option Expr)

inductive Catch where
  | mk (param : Option String) (body : Block)

inductive Stmt where
  | expr (e : Expr)
  | empty
  | declare (kind : DeclKind) (items : List Declarator)
  | func (f : Func)
  | block (b : Block)
  | branch (test : Expr) (yes : Stmt) (no : Option Stmt)
  | whileLoop (test : Expr) (body : Stmt)
  | doLoop (body : Stmt) (test : Expr)
  | forLoop (init : Option Stmt) (test update : Option Expr) (body : Stmt)
  | returning (value : Option Expr)
  | breaking
  | continuing
  | throwing (value : Expr)
  | attempt (body : Block) (handler : Option Catch) (finalizer : Option Block)

end

instance : Inhabited Expr := ⟨.literal .undefined⟩

structure Program where
  body : List Stmt

def Func.name : Func → String
  | mk name _ _ => name

/-- An expression as something to assign to, if it can be that. -/
def Expr.target? : Expr → Option Target
  | .name id position => some (.name id position)
  | .member holder property => some (.member holder property)
  | .index holder property => some (.index holder property)
  | _ => none

def Target.toExpr : Target → Expr
  | .name id position => .name id position
  | .member holder property => .member holder property
  | .index holder property => .index holder property

theorem Expr.target?_toExpr (t : Target) : t.toExpr.target? = some t := by
  cases t <;> rfl

end EmitterLogic.Script
