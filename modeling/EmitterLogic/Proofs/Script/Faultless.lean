import EmitterLogic.Script.Parser

namespace EmitterLogic.Script

def Faultless {α : Type} (p : Parser α) : Prop := ∀ ts f, p ts ≠ .error (.fault f)

namespace Faultless

variable {α β : Type}

section Combinators

variable {p q : Parser α} {next : α → Parser β}

theorem value (a : α) : Faultless (pure a) := fun _ _ h => by cases h

theorem bind (h : Faultless p) (after : ∀ a, Faultless (next a)) : Faultless (p >>= next) := by
  intro ts f failed
  have unfolded : (p >>= next) ts = (p ts >>= fun r => next r.1 r.2) := rfl
  rw [unfolded] at failed
  cases first : p ts with
  | error e =>
    rw [first] at failed
    cases failed
    exact h ts f first
  | ok r =>
    rw [first] at failed
    exact after r.1 r.2 f failed

theorem choose {c : Prop} [Decidable c] (h : Faultless p) (h' : Faultless q) :
    Faultless (if c then p else q) := by
  split
  · exact h
  · exact h'

theorem map {g : α → β} (h : Faultless p) : Faultless (g <$> p) := by
  have unfolded : g <$> p = p >>= fun a => pure (g a) := (bind_pure_comp g p).symm
  rw [unfolded]
  exact h.bind fun a => value (g a)

theorem failAt (cause : SyntaxCause) (t : Token) : Faultless (Parser.failAt cause t : Parser α) :=
  fun _ _ h => by cases h

theorem get : Faultless (get : Parser (List Token)) := fun _ _ h => by cases h

theorem peek : Faultless Parser.peek := fun _ _ h => by cases h

theorem advance : Faultless Parser.next := fun _ _ h => by cases h

theorem remaining : Faultless Parser.remaining := fun _ _ h => by cases h

theorem refuse (t : Token) : Faultless (Parser.refuse t : Parser α) := by
  unfold Parser.refuse
  split
  · exact failAt _ t
  · exact failAt _ t

theorem refuseFront : Faultless (Parser.refuseFront : Parser α) := peek.bind fun t => refuse t

theorem atMark (m : Mark) : Faultless (Parser.atMark m) := peek.bind fun t => value (t.isMark m)

theorem eat (m : Mark) : Faultless (Parser.eat m) :=
  (atMark m).bind fun _ => choose (advance.bind fun _ => value true) (value false)

theorem eatWord (w : String) : Faultless (Parser.eatWord w) :=
  peek.bind fun _ => choose (advance.bind fun _ => value true) (value false)

theorem expect (m : Mark) : Faultless (Parser.expect m) :=
  (eat m).bind fun _ => choose refuseFront (value ())

theorem expectWord (w : String) : Faultless (Parser.expectWord w) :=
  (eatWord w).bind fun _ => choose refuseFront (value ())

theorem freeWord : Faultless Parser.freeWord := by
  refine peek.bind fun t => ?_
  cases t.freeWord? with
  | some w => exact advance.bind fun _ => value w
  | none => exact refuseFront

theorem endOfStatement : Faultless Parser.endOfStatement := by
  refine (eat .semicolon).bind fun _ => choose ?_ (value ())
  exact peek.bind fun t => choose (refuse t) (value ())

theorem commaList (h : Faultless p) (n : Nat) : Faultless (Parser.commaList p n) := by
  induction n with
  | zero => exact refuseFront
  | succ n ih =>
    refine h.bind fun a => (eat .comma).bind fun _ => choose ?_ (value [a])
    exact ih.bind fun _ => value _

theorem commaSeparated (h : Faultless p) : Faultless (Parser.commaSeparated p) :=
  remaining.bind fun n => h.commaList n

theorem closedList (h : Faultless p) (close : Mark) (n : Nat) :
    Faultless (Parser.closedList p close n) := by
  induction n with
  | zero => exact refuseFront
  | succ n ih =>
    refine (eat close).bind fun _ => choose (value []) (h.bind fun a => ?_)
    refine (eat .comma).bind fun _ => choose (ih.bind fun _ => value _) ?_
    exact (expect close).bind fun _ => value [a]

theorem chainFrom {op? : Mark → Option (Expr → Expr → Expr)} {operand : Parser Expr}
    (h : Faultless operand) (left : Expr) (n : Nat) :
    Faultless (Parser.chainFrom op? operand left n) := by
  induction n generalizing left with
  | zero => exact value left
  | succ n ih =>
    refine peek.bind fun t => ?_
    cases t.mark?.bind op? with
    | none => exact value left
    | some make => exact advance.bind fun _ => h.bind fun right => ih (make left right)

theorem chain {op? : Mark → Option (Expr → Expr → Expr)} {operand : Parser Expr}
    (h : Faultless operand) : Faultless (Parser.chain op? operand) :=
  h.bind fun left => remaining.bind fun n => h.chainFrom left n

end Combinators

section Grammar

variable {A : Parser Expr} {S : Parser Stmt} (hA : Faultless A) (hS : Faultless S)

section Expressions

include hA

theorem expressionOver : Faultless (expressionOver A) := chain hA

theorem paramOver : Faultless (paramOver A) := by
  refine freeWord.bind fun name => (eat .assign).bind fun _ => choose ?_ (value _)
  exact hA.bind fun _ => value _

theorem paramsOver : Faultless (paramsOver A) := by
  refine (expect _).bind fun _ => (eat _).bind fun _ => choose (value []) ?_
  exact (commaSeparated (paramOver hA)).bind fun params => (expect _).bind fun _ => value params

theorem entryOf (t : Token) (key : String) : Faultless (do
    if ← Parser.eat .colon then return Entry.mk key (← A)
    match t.kind with
    | .word w => return .mk key (.name w t.position)
    | _ => Parser.refuseFront) := by
  refine (eat _).bind fun _ => choose (hA.bind fun _ => value _) ?_
  split
  · exact value _
  · exact refuseFront

theorem entryOver : Faultless (entryOver A) := by
  refine advance.bind fun t => ?_
  dsimp only
  split
  · exact (value _).bind (entryOf hA t)
  · exact (value _).bind (entryOf hA t)
  · exact (value _).bind (entryOf hA t)
  · exact (refuse t).bind (entryOf hA t)

theorem expressionUnless (m : Mark) : Faultless (expressionUnless A m) :=
  (atMark m).bind fun _ => choose (value none) ((expressionOver hA).bind fun _ => value _)

theorem testOver : Faultless (testOver A) :=
  (expect _).bind fun _ => (expressionOver hA).bind fun e => (expect _).bind fun _ => value e

theorem declaratorOver (kind : DeclKind) : Faultless (declaratorOver A kind) := by
  refine freeWord.bind fun name => (eat .assign).bind fun _ => choose ?_ ?_
  · exact hA.bind fun _ => value _
  · exact choose (peek.bind fun t => (failAt (α := PUnit) _ t).bind fun _ => value _) (value _)

theorem declarationOver (kind : DeclKind) : Faultless (declarationOver A kind) :=
  (commaSeparated (declaratorOver hA kind)).bind fun _ => value _

theorem expressionStatement : Faultless (expressionStatement A) :=
  (expressionOver hA).bind fun _ => endOfStatement.bind fun _ => value _

theorem loopInit : Faultless (loopInit A) := by
  refine peek.bind fun t => choose (value none) ?_
  dsimp only
  split
  · exact advance.bind fun _ => (declarationOver hA _).bind fun _ => value _
  · exact (expressionOver hA).bind fun _ => value _

theorem returnOver : Faultless (returnOver A) := by
  refine peek.bind fun t => choose ((eat _).bind fun _ => value _) ?_
  exact (expressionOver hA).bind fun _ => endOfStatement.bind fun _ => value _

theorem throwOver : Faultless (throwOver A) := by
  have thrown : Faultless (do
      let e ← Script.expressionOver A
      Parser.endOfStatement
      return Stmt.throwing e) :=
    (expressionOver hA).bind fun _ => endOfStatement.bind fun _ => value _
  exact peek.bind fun t => choose ((failAt _ t).bind fun _ => thrown) thrown

theorem accessFrom (e : Expr) (n : Nat) : Faultless (accessFrom A e n) := by
  induction n generalizing e with
  | zero => exact value e
  | succ n ih =>
    refine (eat .dot).bind fun _ => choose ?_ ?_
    · refine peek.bind fun t => ?_
      split
      · exact advance.bind fun _ => ih _
      · exact refuseFront
    refine (eat .leftParen).bind fun _ => choose ?_ ?_
    · refine (eat .rightParen).bind fun _ => choose (ih _) ?_
      exact (commaSeparated hA).bind fun _ => (expect _).bind fun _ => ih _
    refine (eat .leftBracket).bind fun _ => choose ?_ (value e)
    exact (expressionOver hA).bind fun _ => (expect _).bind fun _ => ih _

end Expressions

section Statements

include hS

theorem blockItems (n : Nat) : Faultless (blockItems S n) := by
  induction n with
  | zero => exact refuseFront
  | succ n ih =>
    have items : Faultless (do
        let s ← S
        return s :: (← Script.blockItems S n)) :=
      hS.bind fun _ => ih.bind fun _ => value _
    refine (eat _).bind fun _ => choose (value []) ?_
    exact peek.bind fun _ => choose (refuseFront.bind fun _ => items) items

theorem blockOver : Faultless (blockOver S) :=
  (expect _).bind fun _ => remaining.bind fun n => (blockItems hS n).bind fun _ => value _

theorem handlerOver : Faultless (handlerOver S) := by
  refine (eatWord _).bind fun _ => choose ?_ (value none)
  refine (eat _).bind fun _ => choose ?_ ((blockOver hS).bind fun _ => value _)
  exact freeWord.bind fun _ => (expect _).bind fun _ => (blockOver hS).bind fun _ => value _

theorem attemptOver : Faultless (attemptOver S) := by
  refine (blockOver hS).bind fun body => (handlerOver hS).bind fun handler => ?_
  have whole (finalizer : Option Block) : Faultless (do
      if handler.isNone && finalizer.isNone then Parser.failAt .missingHandler (← Parser.peek)
      return Stmt.attempt body handler finalizer) :=
    choose (peek.bind fun t => (failAt (α := PUnit) _ t).bind fun _ => value _) (value _)
  refine (eatWord _).bind fun b => ?_
  cases b with
  | true => exact (blockOver hS).map.bind whole
  | false => exact (value none).bind whole

theorem doOver (hA : Faultless A) : Faultless (doOver A S) := by
  refine hS.bind fun _ => (expectWord _).bind fun _ => ?_
  exact (testOver hA).bind fun _ => (eat _).bind fun _ => value _

theorem branchOver (hA : Faultless A) : Faultless (branchOver A S) := by
  refine (testOver hA).bind fun _ => hS.bind fun _ => (eatWord _).bind fun _ => ?_
  exact choose (hS.bind fun _ => value _) (value _)

theorem forOver (hA : Faultless A) : Faultless (forOver A S) := by
  refine (expect _).bind fun _ => (loopInit hA).bind fun init => ?_
  refine (expect _).bind fun _ => (expressionUnless hA _).bind fun test => ?_
  refine (expect _).bind fun _ => (expressionUnless hA _).bind fun update => ?_
  exact (expect _).bind fun _ => hS.bind fun body => value _

end Statements

section Nested

include hA hS

theorem functionOver (name : String) : Faultless (functionOver A S name) :=
  (paramsOver hA).bind fun _ => (blockOver hS).bind fun _ => value _

theorem arrowOver : Faultless (arrowOver A S) := by
  have body (params : List Param) : Faultless (do
      Parser.expect .arrow
      if ← Parser.atMark .leftBrace then
        return Func.mk "" params (.block (← Script.blockOver S))
      return .mk "" params (.concise (← A))) := by
    refine (expect _).bind fun _ => (atMark _).bind fun _ => choose ?_ ?_
    · exact (blockOver hS).bind fun _ => value _
    · exact hA.bind fun _ => value _
  refine peek.bind fun t => ?_
  cases t.freeWord? with
  | some name => exact advance.bind fun _ => (value _).bind body
  | none => exact (paramsOver hA).bind body

theorem wordOver (w : String) (t : Token) : Faultless (wordOver A S w t) := by
  unfold Script.wordOver
  split
  · exact advance.bind fun _ => value _
  · refine choose ?_ (choose (failAt _ t) (advance.bind fun _ => value _))
    refine advance.bind fun _ => peek.bind fun _ => ?_
    have function (name : String) : Faultless (do
        return Expr.func (← Script.functionOver A S name)) :=
      (functionOver hA hS name).bind fun _ => value _
    dsimp only
    split
    · exact freeWord.bind function
    · exact (value "").bind function

theorem primaryOver : Faultless (primaryOver A S) := by
  refine peek.bind fun t => ?_
  split
  · exact advance.bind fun _ => value _
  · exact advance.bind fun _ => value _
  · exact wordOver hA hS _ t
  · exact advance.bind fun _ => (expressionOver hA).bind fun e => (expect _).bind fun _ => value e
  · exact advance.bind fun _ => remaining.bind fun n => (closedList hA _ n).bind fun _ => value _
  · exact advance.bind fun _ => remaining.bind fun n =>
      (closedList (entryOver hA) _ n).bind fun _ => value _
  · exact refuse t

theorem accessOver : Faultless (accessOver A S) :=
  (primaryOver hA hS).bind fun e => remaining.bind fun n => accessFrom hA e n

theorem afterOver : Faultless (afterOver A S) := by
  refine (accessOver hA hS).bind fun e => peek.bind fun t => ?_
  cases t.mark?.bind updateOp? with
  | none => exact value e
  | some op =>
    refine choose (value e) ?_
    cases e.target? with
    | none => exact failAt _ t
    | some target => exact advance.bind fun _ => value _

theorem unaryFrom (n : Nat) : Faultless (unaryFrom A S n) := by
  induction n with
  | zero => exact afterOver hA hS
  | succ n ih =>
    refine peek.bind fun t => ?_
    split
    · exact advance.bind fun _ => ih.bind fun _ => value _
    · refine advance.bind fun _ => ih.bind fun e => ?_
      cases e.target? with
      | none => exact failAt _ t
      | some target => exact value _
    · exact afterOver hA hS

theorem operatorsOver : Faultless (operatorsOver A S) :=
  chain <| chain <| chain <| chain <| chain <| chain <|
    remaining.bind fun n => unaryFrom hA hS n

theorem conditionalOver : Faultless (conditionalOver A S) := by
  refine (operatorsOver hA hS).bind fun test => (eat _).bind fun _ => choose ?_ (value test)
  exact hA.bind fun _ => (expect _).bind fun _ => hA.bind fun _ => value _

theorem assignmentOver : Faultless (assignmentOver A S) := by
  refine get.bind fun ts => choose ((arrowOver hA hS).bind fun _ => value _) ?_
  refine (conditionalOver hA hS).bind fun left => peek.bind fun t => ?_
  cases t.mark?.bind assignOp? with
  | none => exact value left
  | some op =>
    refine advance.bind fun _ => ?_
    cases left.target? with
    | none => exact failAt _ t
    | some target => exact hA.bind fun _ => value _

theorem keywordOver {w : String} {p : Parser Stmt} (h : keywordOver? A S w = some p) :
    Faultless p := by
  unfold keywordOver? at h
  split at h
  · cases h
    exact (declarationOver hA _).bind fun s => endOfStatement.bind fun _ => value s
  split at h
  · cases h
    exact freeWord.bind fun name => (functionOver hA hS name).bind fun _ => value _
  · cases h
    exact branchOver hS hA
  · cases h
    exact (testOver hA).bind fun _ => hS.bind fun _ => value _
  · cases h
    exact doOver hS hA
  · cases h
    exact forOver hS hA
  · cases h
    exact returnOver hA
  · cases h
    exact endOfStatement.bind fun _ => value _
  · cases h
    exact endOfStatement.bind fun _ => value _
  · cases h
    exact throwOver hA
  · cases h
    exact attemptOver hS
  · cases h

theorem statementOver : Faultless (statementOver A S) := by
  refine peek.bind fun t => ?_
  split
  · exact (blockOver hS).bind fun _ => value _
  · exact advance.bind fun _ => value _
  · split
    · next rest keyword => exact advance.bind fun _ => keywordOver hA hS keyword
    · exact expressionStatement hA
  · exact expressionStatement hA

end Nested

end Grammar

theorem nested (n : Nat) : Faultless (assignment n) ∧ Faultless (statement n) := by
  induction n with
  | zero =>
    rw [assignment, statement]
    exact ⟨refuseFront, refuseFront⟩
  | succ n ih =>
    rw [assignment, statement]
    exact ⟨assignmentOver ih.1 ih.2, statementOver ih.1 ih.2⟩

theorem statementsFrom (depth n : Nat) : Faultless (statementsFrom depth n) := by
  induction n with
  | zero => exact value []
  | succ n ih =>
    refine peek.bind fun _ => choose (value []) ?_
    exact (nested depth).2.bind fun _ => ih.bind fun _ => value _

theorem program : Faultless program :=
  remaining.bind fun n => (statementsFrom (n + 1) (n + 1)).bind fun _ => value _

end Faultless

end EmitterLogic.Script
