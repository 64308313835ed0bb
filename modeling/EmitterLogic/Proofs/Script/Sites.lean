import EmitterLogic.Script.Syntax

namespace EmitterLogic.Script

/-- How a name is bound: as the first name of a declaration or as one after it, by a function, as a
parameter, or by a handler. -/
inductive Binder where
  | first | later | function | parameter | handler
deriving DecidableEq, Repr

inductive Site where
  | name (id : String) (position : Nat)
  | call (callee : Expr)
  | binder (kind : Binder) (name : String)

/-- The empty name binds nothing; functions without a name have it. -/
def binderSite (kind : Binder) (name : String) : List Site :=
  if name.isEmpty then [] else [.binder kind name]

mutual

def Expr.sites : Expr → List Site
  | .number _ => []
  | .text _ => []
  | .literal _ => []
  | .name id position => [.name id position]
  | .member holder _ => holder.sites
  | .index holder property => holder.sites ++ property.sites
  | .call callee args => callee.sites ++ .call callee :: exprsSites args
  | .unary _ arg => arg.sites
  | .update _ _ target => target.sites
  | .binary _ left right => left.sites ++ right.sites
  | .logical _ left right => left.sites ++ right.sites
  | .conditional test yes no => test.sites ++ (yes.sites ++ no.sites)
  | .assign _ target value => target.sites ++ value.sites
  | .list items => exprsSites items
  | .object entries => entriesSites entries
  | .func f => f.sites

def exprsSites : List Expr → List Site
  | [] => []
  | e :: rest => e.sites ++ exprsSites rest

def optionSites : Option Expr → List Site
  | none => []
  | some e => e.sites

def Target.sites : Target → List Site
  | .name id position => [.name id position]
  | .member holder _ => holder.sites
  | .index holder property => holder.sites ++ property.sites

def Entry.sites : Entry → List Site
  | .mk _ value => value.sites

def entriesSites : List Entry → List Site
  | [] => []
  | entry :: rest => entry.sites ++ entriesSites rest

def Param.sites : Param → List Site
  | .mk name init => binderSite .parameter name ++ optionSites init

def paramsSites : List Param → List Site
  | [] => []
  | p :: rest => p.sites ++ paramsSites rest

def Func.sites : Func → List Site
  | .mk name params body => binderSite .function name ++ (paramsSites params ++ body.sites)

def Body.sites : Body → List Site
  | .block b => b.sites
  | .concise e => e.sites

def Block.sites : Block → List Site
  | .mk body => stmtsSites body

def Declarator.sites (kind : Binder) : Declarator → List Site
  | .mk name init => binderSite kind name ++ optionSites init

def declaratorsSites (kind : Binder) : List Declarator → List Site
  | [] => []
  | d :: rest => d.sites kind ++ declaratorsSites .later rest

def Stmt.sites : Stmt → List Site
  | .expr e => e.sites
  | .empty => []
  | .declare _ items => declaratorsSites .first items
  | .func f => f.sites
  | .block b => b.sites
  | .branch test yes no => test.sites ++ (yes.sites ++ elseSites no)
  | .whileLoop test body => test.sites ++ body.sites
  | .doLoop body test => body.sites ++ test.sites
  | .forLoop init test update body =>
    elseSites init ++ (optionSites test ++ (optionSites update ++ body.sites))
  | .returning value => optionSites value
  | .breaking => []
  | .continuing => []
  | .throwing value => value.sites
  | .attempt body handler finalizer =>
    body.sites ++ (catchSites handler ++ finallySites finalizer)

def stmtsSites : List Stmt → List Site
  | [] => []
  | s :: rest => s.sites ++ stmtsSites rest

def elseSites : Option Stmt → List Site
  | none => []
  | some s => s.sites

def catchSites : Option Catch → List Site
  | none => []
  | some (.mk none body) => body.sites
  | some (.mk (some name) body) => binderSite .handler name ++ body.sites

def finallySites : Option Block → List Site
  | none => []
  | some b => b.sites

end

def Program.sites (p : Program) : List Site := stmtsSites p.body

theorem Expr.sites_target {e : Expr} {t : Target} (h : e.target? = some t) : t.sites = e.sites := by
  cases e <;> cases h <;> rfl

def Closed (s : List Site) : Prop := ∀ callee, .call callee ∈ s → ∀ x ∈ callee.sites, x ∈ s

namespace Closed

variable {s t : List Site}

theorem nil : Closed [] := nofun

theorem append (h : Closed s) (h' : Closed t) : Closed (s ++ t) := by
  intro callee member x inside
  rcases List.mem_append.mp member with first | second
  · exact List.mem_append_left t (h callee first x inside)
  · exact List.mem_append_right s (h' callee second x inside)

theorem name (id : String) (position : Nat) : Closed [.name id position] := by
  intro callee member
  cases member with
  | tail _ member => cases member

theorem binderSite (kind : Binder) (name : String) : Closed (binderSite kind name) := by
  intro callee member
  rw [Script.binderSite] at member
  split at member
  · cases member
  · cases member with
    | tail _ member => cases member

theorem call {callee : Expr} (h : Closed callee.sites) (h' : Closed s) :
    Closed (callee.sites ++ .call callee :: s) := by
  intro other member x inside
  rcases List.mem_append.mp member with first | later
  · exact List.mem_append_left _ (h other first x inside)
  · rcases List.mem_cons.mp later with same | second
    · cases same
      exact List.mem_append_left _ inside
    · exact List.mem_append_right _ (List.mem_cons_of_mem _ (h' other second x inside))

end Closed

mutual

theorem Expr.closed : (e : Expr) → Closed e.sites
  | .number _ => .nil
  | .text _ => .nil
  | .literal _ => .nil
  | .name id position => .name id position
  | .member holder _ => holder.closed
  | .index holder property => holder.closed.append property.closed
  | .call callee args => .call callee.closed (exprs_closed args)
  | .unary _ arg => arg.closed
  | .update _ _ target => target.closed
  | .binary _ left right => left.closed.append right.closed
  | .logical _ left right => left.closed.append right.closed
  | .conditional test yes no => test.closed.append (yes.closed.append no.closed)
  | .assign _ target value => target.closed.append value.closed
  | .list items => exprs_closed items
  | .object entries => entries_closed entries
  | .func f => f.closed

theorem exprs_closed : (es : List Expr) → Closed (exprsSites es)
  | [] => .nil
  | e :: rest => e.closed.append (exprs_closed rest)

theorem option_closed : (e : Option Expr) → Closed (optionSites e)
  | none => .nil
  | some e => e.closed

theorem Target.closed : (t : Target) → Closed t.sites
  | .name id position => .name id position
  | .member holder _ => holder.closed
  | .index holder property => holder.closed.append property.closed

theorem Entry.closed : (e : Entry) → Closed e.sites
  | .mk _ value => value.closed

theorem entries_closed : (es : List Entry) → Closed (entriesSites es)
  | [] => .nil
  | entry :: rest => entry.closed.append (entries_closed rest)

theorem Param.closed : (p : Param) → Closed p.sites
  | .mk name init => (Closed.binderSite .parameter name).append (option_closed init)

theorem params_closed : (ps : List Param) → Closed (paramsSites ps)
  | [] => .nil
  | p :: rest => p.closed.append (params_closed rest)

theorem Func.closed : (f : Func) → Closed f.sites
  | .mk name params body =>
    (Closed.binderSite .function name).append ((params_closed params).append body.closed)

theorem Body.closed : (b : Body) → Closed b.sites
  | .block b => b.closed
  | .concise e => e.closed

theorem Block.closed : (b : Block) → Closed b.sites
  | .mk body => stmts_closed body

theorem Declarator.closed (kind : Binder) : (d : Declarator) → Closed (d.sites kind)
  | .mk name init => (Closed.binderSite kind name).append (option_closed init)

theorem declarators_closed (kind : Binder) : (ds : List Declarator) →
    Closed (declaratorsSites kind ds)
  | [] => .nil
  | d :: rest => (d.closed kind).append (declarators_closed .later rest)

theorem Stmt.closed : (s : Stmt) → Closed s.sites
  | .expr e => e.closed
  | .empty => .nil
  | .declare _ items => declarators_closed .first items
  | .func f => f.closed
  | .block b => b.closed
  | .branch test yes no => test.closed.append (yes.closed.append (else_closed no))
  | .whileLoop test body => test.closed.append body.closed
  | .doLoop body test => body.closed.append test.closed
  | .forLoop init test update body =>
    (else_closed init).append ((option_closed test).append ((option_closed update).append body.closed))
  | .returning value => option_closed value
  | .breaking => .nil
  | .continuing => .nil
  | .throwing value => value.closed
  | .attempt body handler finalizer =>
    body.closed.append ((catch_closed handler).append (finally_closed finalizer))

theorem stmts_closed : (ss : List Stmt) → Closed (stmtsSites ss)
  | [] => .nil
  | s :: rest => s.closed.append (stmts_closed rest)

theorem else_closed : (s : Option Stmt) → Closed (elseSites s)
  | none => .nil
  | some s => s.closed

theorem catch_closed : (c : Option Catch) → Closed (catchSites c)
  | none => .nil
  | some (.mk none body) => body.closed
  | some (.mk (some name) body) => (Closed.binderSite .handler name).append body.closed

theorem finally_closed : (b : Option Block) → Closed (finallySites b)
  | none => .nil
  | some b => b.closed

end

theorem Program.closed (p : Program) : Closed p.sites := stmts_closed p.body

end EmitterLogic.Script
