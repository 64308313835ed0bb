import EmitterLogic.Proofs.Script.InStep

namespace EmitterLogic.Script

open Script.Parser

namespace InStep

variable {k : Nat} {ts : List Token}

variable {A A' : Parser Expr} {S S' : Parser Stmt}

theorem expressionOver (hA : InStep true k A A') :
    InStep true k (expressionOver A) (expressionOver A') := chain hA

section Expressions

variable (hA : InStep true (k - 1) A A')
include hA

theorem paramOver : InStep true k (paramOver A) (paramOver A') := by
  refine freeWord.taking fun name => eat ?_ (value _)
  exact hA.earlier.taking fun default => value _

theorem paramsOver : InStep true k (paramsOver A) (paramsOver A') := by
  refine (expect .leftParen).taking fun _ => eat (value []) ?_
  refine (commaSeparated (paramOver hA.earlier)).taking fun params => ?_
  exact (expect .rightParen).taking fun _ => value params

theorem entryOf (t : Token) (key : String) : InStep false (k - 1)
    (do
      if ← Parser.eat .colon then return Entry.mk key (← A)
      match t.kind with
      | .word w => return .mk key (.name w t.position)
      | _ => Parser.refuseFront)
    (do
      if ← Parser.eat .colon then return Entry.mk key (← A')
      match t.kind with
      | .word w => return .mk key (.name w t.position)
      | _ => Parser.refuseFront) := by
  refine eat (hA.earlier.taking fun _ => value _) ?_
  split
  · exact value _
  · exact refuseFront

theorem entryOver : InStep true k (entryOver A) (entryOver A') := by
  intro ts ended short
  by_cases goes : (front ts).kind = .finish
  · -- The last token is not passed; no entry begins with it.
    obtain ⟨⟨kind, position, broken⟩, mid, rfl⟩ := ended.exists_cons
    cases goes
    exact .of_error (e := .at .unexpectedEnd position) rfl rfl
  · refine advance ended short goes fun t => ?_
    dsimp only
    split
    · exact (value _).bind (entryOf hA t)
    · exact (value _).bind (entryOf hA t)
    · exact (value _).bind (entryOf hA t)
    · exact (refuse t).bind (entryOf hA t)

theorem testOver : InStep true k (testOver A) (testOver A') := by
  refine (expect .leftParen).taking fun _ => ?_
  refine (expressionOver hA).taking fun e => ?_
  exact (expect .rightParen).taking fun _ => value e

theorem declaratorOver (kind : DeclKind) :
    InStep true k (declaratorOver A kind) (declaratorOver A' kind) := by
  refine freeWord.taking fun name => eat ?_ ?_
  · exact hA.earlier.taking fun _ => value _
  · exact choose (peek fun t => (failAt (α := PUnit) _ t).bind fun _ => value _) (value _)

theorem declarationOver (kind : DeclKind) :
    InStep true k (declarationOver A kind) (declarationOver A' kind) :=
  (commaSeparated (declaratorOver hA kind)).taking fun _ => value _

theorem accessRound {more more' : Expr → Parser Expr}
    (again : ∀ e, InStep false (k - 1) (more e) (more' e)) (e : Expr) :
    InStep false k (accessRound A more e) (accessRound A' more' e) := by
  have goesOn {j : Nat} (e : Expr) (le : j ≤ k - 1) : InStep false j (more e) (more' e) :=
    (again e).mono le
  refine eat ?_ (eat ?_ (eat ?_ (value e)))
  · refine facing fun ts ended short => ?_
    cases kind : (front ts).kind with
    | word w =>
      exact advance ended short (by rw [kind]; exact nofun) fun _ => goesOn _ (by omega)
    | _ => exact refuseFront ts ended short
  · refine eat (goesOn _ (by omega)) ?_
    refine (commaSeparated hA).taking fun args => ?_
    exact (expect .rightParen).taking fun _ => goesOn _ (by omega)
  · refine (expressionOver hA).taking fun property => ?_
    exact (expect .rightBracket).taking fun _ => goesOn _ (by omega)

theorem accessFrom (e : Expr) (n : Nat) : InStep false k (accessFrom A e n) (accessFrom A' e n) := by
  induction n generalizing e with
  | zero => exact value e
  | succ n ih => exact accessRound hA (fun e => (ih e).earlier) e

end Expressions

section Nested

variable (hA : InStep true (k - 1) A A') (hS : InStep true (k - 1 - 1) S S')

theorem blockOver (hS : InStep true (k - 1) S S') : InStep true k (blockOver S) (blockOver S') := by
  refine (expect .leftBrace).taking fun _ => remaining fun n => ?_
  exact (blockItems hS n).taking fun body => value _

include hA hS

theorem functionOver (name : String) :
    InStep true k (functionOver A S name) (functionOver A' S' name) := by
  refine (paramsOver hA).taking fun params => ?_
  exact (blockOver hS).taking fun body => value _

theorem arrowOver : InStep true k (arrowOver A S) (arrowOver A' S') := by
  have body {j : Nat} (hA : InStep true (j - 1) A A') (hS : InStep true (j - 1) S S')
      (params : List Param) : InStep false j
      (do
        Parser.expect .arrow
        if ← Parser.atMark .leftBrace then
          return Func.mk "" params (.block (← Script.blockOver S))
        return .mk "" params (.concise (← A)))
      (do
        Parser.expect .arrow
        if ← Parser.atMark .leftBrace then
          return Func.mk "" params (.block (← Script.blockOver S'))
        return .mk "" params (.concise (← A'))) := by
    refine (expect .arrow).taking fun _ => atMark ?_ ?_
    · exact (blockOver hS.earlier).taking fun _ => value _
    · exact hA.taking fun _ => value _
  refine facing fun ts ended short => ?_
  cases word : (front ts).freeWord? with
  | some name =>
    exact advance ended short (goes_of_freeWord word) fun _ => (value _).bind (body hA.earlier hS)
  | none => exact (paramsOver hA).taking (body hA.earlier hS) ts ended short

theorem wordOver {w : String} {t : Token} (ended : Ended ts) (short : ts.length ≤ k)
    (kind : (front ts).kind = .word w) : Concur true ts (wordOver A S w t) (wordOver A' S' w t) := by
  have goes : (front ts).kind ≠ .finish := by
    rw [kind]
    exact nofun
  unfold Script.wordOver
  split
  · exact advance ended short goes fun _ => value _
  split
  · refine advance ended short goes fun _ => peek fun u => ?_
    have function (name : String) : InStep false (k - 1)
        (do return Expr.func (← Script.functionOver A S name))
        (do return Expr.func (← Script.functionOver A' S' name)) :=
      (functionOver hA.earlier hS.earlier name).taking fun _ => value _
    dsimp only
    split
    · exact freeWord.taking fun name => (function name).earlier
    · exact (value "").bind function
  split
  · exact failAt _ t ts ended short
  · exact advance ended short goes fun _ => value _

theorem primaryOver : InStep true k (primaryOver A S) (primaryOver A' S') := by
  refine facing fun ts ended short => ?_
  have goes {kind : TokenKind} (same : (front ts).kind = kind) (other : kind ≠ .finish) :
      (front ts).kind ≠ .finish := same ▸ other
  split
  · next kind => exact advance ended short (goes kind nofun) fun _ => value _
  · next kind => exact advance ended short (goes kind nofun) fun _ => value _
  · next kind => exact wordOver hA hS ended short kind
  · next kind =>
    refine advance ended short (goes kind nofun) fun _ => ?_
    refine (expressionOver hA).taking fun e => ?_
    exact (expect .rightParen).taking fun _ => value e
  · next kind =>
    refine advance ended short (goes kind nofun) fun _ => remaining fun n => ?_
    exact (closedList hA .rightBracket n).taking fun items => value _
  · next kind =>
    refine advance ended short (goes kind nofun) fun _ => remaining fun n => ?_
    exact (closedList (entryOver hA.earlier) .rightBrace n).taking fun entries => value _
  · exact refuse (front ts) ts ended short

theorem accessOver : InStep true k (accessOver A S) (accessOver A' S') :=
  (primaryOver hA hS).taking fun e => remaining fun n => accessFrom hA.earlier e n

theorem afterOver : InStep true k (afterOver A S) (afterOver A' S') := by
  refine (accessOver hA hS).taking fun e => facing fun ts ended short => ?_
  cases update : (front ts).mark?.bind updateOp? with
  | none => exact value e ts ended short
  | some op =>
    dsimp only
    split
    · exact value e ts ended short
    cases e.target? with
    | none => exact failAt _ _ ts ended short
    | some target => exact advance ended short (goes_of_operator update) fun _ => value _

theorem unaryFrom (n : Nat) : InStep true k (unaryFrom A S n) (unaryFrom A' S' n) := by
  induction n with
  | zero => exact afterOver hA hS
  | succ n ih => exact unaryRound (afterOver hA hS) ih.earlier.weaken

theorem operatorsOver : InStep true k (operatorsOver A S) (operatorsOver A' S') :=
  chain <| chain <| chain <| chain <| chain <| chain <|
    remaining fun n => unaryFrom hA hS n

theorem conditionalOver : InStep true k (conditionalOver A S) (conditionalOver A' S') := by
  refine (operatorsOver hA hS).taking fun test => eat ?_ (value test)
  refine hA.earlier.taking fun yes => ?_
  refine (expect .colon).taking fun _ => ?_
  exact (hA.mono (by omega)).taking fun no => value _

theorem assignmentOver : InStep true k (assignmentOver A S) (assignmentOver A' S') := by
  refine look fun us => choose ((arrowOver hA hS).taking fun _ => value _) ?_
  refine (conditionalOver hA hS).taking fun left => facing fun ts ended short => ?_
  cases assign : (front ts).mark?.bind assignOp? with
  | none => exact value left ts ended short
  | some op =>
    refine advance ended short (goes_of_operator assign) fun _ => ?_
    cases left.target? with
    | none => exact failAt _ _
    | some target => exact hA.earlier.taking fun _ => value _

end Nested

section Statements

variable (hA : InStep true k A A') (hS : InStep true k S S')

theorem expressionUnless (hA : InStep true k A A') (m : Mark) :
    InStep false k (expressionUnless A m) (expressionUnless A' m) :=
  atMark (value none) ((expressionOver hA).taking fun _ => value _)

theorem expressionStatement (hA : InStep true k A A') :
    InStep true k (expressionStatement A) (expressionStatement A') := by
  refine (expressionOver hA).taking fun e => ?_
  exact endOfStatement.bind fun _ => value _

theorem loopInit (hA : InStep true k A A') : InStep false k (loopInit A) (loopInit A') := by
  refine facing fun ts ended short => ?_
  split
  · exact value none ts ended short
  dsimp only
  split
  · next kind found =>
    have goes : (front ts).kind ≠ .finish := by
      intro finish
      rw [finish] at found
      cases found
    exact advance ended short goes fun _ =>
      (declarationOver hA.earlier.earlier kind).taking fun _ => value _
  · exact (expressionOver hA).taking (fun _ => value _) ts ended short

theorem returnOver (hA : InStep true k A A') : InStep false k (returnOver A) (returnOver A') := by
  refine peek fun t => choose ((mayEat .semicolon).bind fun _ => value _) ?_
  refine (expressionOver hA).taking fun e => ?_
  exact endOfStatement.bind fun _ => value _

theorem throwOver (hA : InStep true k A A') : InStep true k (throwOver A) (throwOver A') := by
  have thrown : InStep true k
      (do
        let e ← Script.expressionOver A
        Parser.endOfStatement
        return Stmt.throwing e)
      (do
        let e ← Script.expressionOver A'
        Parser.endOfStatement
        return Stmt.throwing e) := by
    refine (expressionOver hA).taking fun e => ?_
    exact endOfStatement.bind fun _ => value _
  exact peek fun t => choose ((failAt _ t).bind fun _ => thrown) thrown

theorem handlerOver (hS : InStep true k S S') : InStep false k (handlerOver S) (handlerOver S') := by
  refine eatWord (eat ?_ ?_) (value none)
  · refine freeWord.taking fun param => ?_
    refine (expect .rightParen).taking fun _ => ?_
    exact (blockOver (hS.mono (by omega))).taking fun body => value _
  · exact (blockOver (hS.mono (by omega))).taking fun body => value _

theorem attemptOver (hS : InStep true k S S') : InStep true k (attemptOver S) (attemptOver S') := by
  refine (blockOver hS.earlier).taking fun body => ?_
  refine (handlerOver hS.earlier).bind fun handler => ?_
  have whole {j : Nat} (finalizer : Option Block) : InStep false j
      (do
        if handler.isNone && finalizer.isNone then Parser.failAt .missingHandler (← Parser.peek)
        return Stmt.attempt body handler finalizer)
      (do
        if handler.isNone && finalizer.isNone then Parser.failAt .missingHandler (← Parser.peek)
        return Stmt.attempt body handler finalizer) :=
    choose (peek fun t => (failAt (α := PUnit) _ t).bind fun _ => value _) (value _)
  refine eatWord ?_ ((value none).bind whole)
  exact (map (blockOver (hS.mono (by omega)))).taking whole

include hA hS

theorem branchOver : InStep true k (branchOver A S) (branchOver A' S') := by
  refine (testOver hA.earlier).taking fun test => ?_
  refine hS.earlier.taking fun yes => eatWord ?_ (value _)
  exact (hS.mono (by omega)).taking fun no => value _

theorem doOver : InStep true k (doOver A S) (doOver A' S') := by
  refine hS.taking fun body => ?_
  refine (expectWord "while").taking fun _ => ?_
  refine (testOver (hA.mono (by omega))).taking fun test => ?_
  exact (mayEat .semicolon).bind fun _ => value _

theorem forOver : InStep true k (forOver A S) (forOver A' S') := by
  have head {j : Nat} (le : j ≤ k) (m : Mark) :
      InStep false j (Script.expressionUnless A m) (Script.expressionUnless A' m) :=
    expressionUnless (hA.mono le) m
  refine (expect .leftParen).taking fun _ => ?_
  refine (loopInit hA.earlier).bind fun init => ?_
  refine (expect .semicolon).taking fun _ => ?_
  refine (head (by omega) .semicolon).bind fun test => ?_
  refine (expect .semicolon).taking fun _ => ?_
  refine (head (by omega) .rightParen).bind fun update => ?_
  refine (expect .rightParen).taking fun _ => ?_
  exact (hS.mono (by omega)).taking fun body => value _

theorem keywordOver (w : String) :
    Option.Rel (InStep false k) (keywordOver? A S w) (keywordOver? A' S' w) := by
  unfold keywordOver?
  split
  · refine .some ((declarationOver hA.earlier _).taking fun s => ?_)
    exact endOfStatement.bind fun _ => value s
  split
  · refine .some (freeWord.taking fun name => ?_)
    have function : InStep true (k - 1) (Script.functionOver A S name)
        (Script.functionOver A' S' name) :=
      functionOver (hA.mono (by omega)) (hS.mono (by omega)) name
    exact function.taking fun f => value _
  · exact .some (branchOver hA hS).weaken
  · refine .some ((testOver hA.earlier).taking fun test => ?_)
    exact hS.earlier.taking fun body => value _
  · exact .some (doOver hA hS).weaken
  · exact .some (forOver hA hS).weaken
  · exact .some (returnOver hA)
  · exact .some (endOfStatement.bind fun _ => value _)
  · exact .some (endOfStatement.bind fun _ => value _)
  · exact .some (throwOver hA).weaken
  · exact .some (attemptOver hS).weaken
  · exact .none

end Statements

theorem statementOver (hA : InStep true k A A') (hS : InStep true (k - 1) S S') :
    InStep true k (statementOver A S) (statementOver A' S') := by
  refine facing fun ts ended short => ?_
  have goes {kind : TokenKind} (same : (front ts).kind = kind) (other : kind ≠ .finish) :
      (front ts).kind ≠ .finish := same ▸ other
  split
  · exact (blockOver hS).taking (fun _ => value _) ts ended short
  · next kind => exact advance ended short (goes kind nofun) fun _ => value _
  · next w kind =>
    have related := keywordOver hA.earlier hS w
    generalize keywordOver? A S w = statement? at related
    generalize keywordOver? A' S' w = statement?' at related
    cases related with
    | none => exact expressionStatement hA ts ended short
    | some rest => exact advance ended short (goes kind nofun) fun _ => rest
  · exact expressionStatement hA ts ended short

end InStep

end EmitterLogic.Script
