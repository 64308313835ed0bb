import EmitterLogic.Proofs.Script.Nesting

namespace EmitterLogic.Script

open Script.Parser

variable {α β : Type} {takes : Bool} {k : Nat} {ts mid rest : List Token}

/-- Wherever it begins, the parser takes a token before it returns, and leaves the end of the tokens. -/
def Advances (p : Parser α) : Prop :=
  ∀ ts a rest, Ended ts → p ts = .ok (a, rest) → Left true ts rest

section Nesting

theorem InStep.nothing (p q : Parser α) : InStep takes 0 p q := by
  intro ts ended short
  exact absurd (List.length_eq_zero_iff.mp (Nat.le_zero.mp short)) ended.ne_nil

theorem InStep.congr {p p' q q' : Parser α} (same : ∀ ts, Ended ts → p ts = q ts)
    (same' : ∀ ts, Ended ts → p' ts = q' ts) (h : InStep takes k q q') : InStep takes k p p' := by
  intro ts ended short
  rw [Concur, same ts ended, same' ts ended]
  exact h ts ended short

theorem Advances.inStep {p : Parser α} (h : Advances p) : InStep true k p p :=
  fun ts ended _ => ⟨rfl, fun a rest => h ts a rest ended⟩

theorem InStep.advances {p : Parser α} (h : ∀ k, InStep true k p p) : Advances p :=
  fun ts a rest ended => (h ts.length ts ended (Nat.le_refl _)).2 a rest

/-- Parsers that unroll the grammar, whatever is read at the depth where they begin. -/
structure Unrolls (A : Nat → Parser Expr) (S : Nat → Parser Stmt) : Prop where
  assignment : ∀ n ts, Ended ts → A (n + 1) ts = assignmentOver (A n) (S n) ts
  statement : ∀ n ts, Ended ts → S (n + 1) ts = statementOver (A n) (S n) ts

theorem grammar_unrolls : Unrolls assignment statement where
  assignment n ts _ := by rw [assignment]
  statement n ts _ := by rw [statement]

theorem Unrolls.inStep {A A' : Nat → Parser Expr} {S S' : Nat → Parser Stmt} (h : Unrolls A S)
    (h' : Unrolls A' S') {n m : Nat} (deep : k ≤ n) (deep' : k ≤ m) :
    InStep true k (A n) (A' m) ∧ InStep true (k - 1) (S n) (S' m) := by
  induction k generalizing n m with
  | zero => exact ⟨.nothing _ _, .nothing _ _⟩
  | succ k ih =>
    obtain ⟨n, rfl⟩ := Nat.exists_eq_add_of_le' (Nat.le_trans (Nat.succ_le_succ (Nat.zero_le k)) deep)
    obtain ⟨m, rfl⟩ := Nat.exists_eq_add_of_le' (Nat.le_trans (Nat.succ_le_succ (Nat.zero_le k)) deep')
    -- An expression nests expressions a token later and statements two tokens later; a statement
    -- nests expressions at once, so for statements one token less is known.
    obtain ⟨exprs, stmts⟩ := ih (Nat.le_of_succ_le_succ deep) (Nat.le_of_succ_le_succ deep')
    exact ⟨(InStep.assignmentOver (k := k + 1) exprs stmts).congr (h.assignment n) (h'.assignment m),
      (InStep.statementOver exprs stmts).congr (h.statement n) (h'.statement m)⟩

theorem nested_inStep (n : Nat) : InStep true k (assignment n) (assignment n) ∧
    InStep true k (statement n) (statement n) := by
  induction n generalizing k with
  | zero =>
    rw [assignment, statement]
    exact ⟨.refuseFront, .refuseFront⟩
  | succ n ih =>
    rw [assignment, statement]
    exact ⟨.assignmentOver ih.1 ih.2, .statementOver ih.1 ih.2⟩

end Nesting

section Loops

variable {σ : Type}

/-- A loop in rounds. A round ends the loop or fails, or it takes a token before it asks for the next
round, whatever that would do; so a bound of as many rounds as there are tokens is never reached. -/
structure Loop (round : (σ → Parser α) → σ → Parser α) (loop : Nat → σ → Parser α) : Prop where
  step : ∀ n, loop (n + 1) = round (loop n)
  advances : ∀ k again again', (∀ s, InStep false (k - 1) (again s) (again' s)) →
    ∀ s, InStep false k (round again s) (round again' s)
  ends : ∀ loop' : Nat → σ → Parser α, (∀ n, loop' (n + 1) = round (loop' n)) → ∀ ts, Ended ts →
    ∀ n m, ts.length ≤ n → ts.length ≤ m → ∀ s, loop n s ts = loop' m s ts

theorem Loop.of_advances {round : (σ → Parser α) → σ → Parser α} {loop : Nat → σ → Parser α}
    (step : ∀ n, loop (n + 1) = round (loop n))
    (advances : ∀ k again again', (∀ s, InStep false (k - 1) (again s) (again' s)) →
      ∀ s, InStep false k (round again s) (round again' s)) : Loop round loop := by
  refine ⟨step, advances, fun loop' step' ts ended n m enough enough' s => ?_⟩
  have inStep (k : Nat) : ∀ n m, k ≤ n → k ≤ m → ∀ s, InStep false k (loop n s) (loop' m s) := by
    induction k with
    | zero => exact fun n m _ _ s => .nothing _ _
    | succ k ih =>
      intro n m enough enough' s
      obtain ⟨n, rfl⟩ := Nat.exists_eq_add_of_le' (Nat.le_trans (Nat.succ_le_succ (Nat.zero_le k)) enough)
      obtain ⟨m, rfl⟩ := Nat.exists_eq_add_of_le' (Nat.le_trans (Nat.succ_le_succ (Nat.zero_le k)) enough')
      rw [step, step']
      exact advances (k + 1) _ _ (ih n m (Nat.le_of_succ_le_succ enough) (Nat.le_of_succ_le_succ enough')) s
  exact (inStep ts.length n m enough enough' s ts ended (Nat.le_refl _)).1

/-- The loops of the grammar, with the parsers of what is nested. -/
structure Loops (A : Parser Expr) (S : Parser Stmt) : Prop where
  commas {β : Type} (item : Parser β) : Advances item →
    Loop (fun again _ => commaRound item (again ())) (fun n (_ : Unit) => commaList item n)
  closed {β : Type} (item : Parser β) (close : Mark) : Advances item →
    Loop (fun again _ => closedRound item close (again ())) (fun n (_ : Unit) => closedList item close n)
  operators (op? : Mark → Option (Expr → Expr → Expr)) (operand : Parser Expr) : Advances operand →
    Loop (chainRound op? operand) (fun n left => chainFrom op? operand left n) ∧
      Advances (chain op? operand)
  accesses : Loop (accessRound A) (fun n e => accessFrom A e n)
  signs : Loop (fun again _ => unaryRound (afterOver A S) (again ())) (fun n (_ : Unit) => unaryFrom A S n)
  block : Loop (fun again _ => blockRound S (again ())) (fun n (_ : Unit) => blockItems S n)
  /-- The search for the bracket that closes stops at a token or goes on behind it. -/
  closing (depth : Int) (t : Token) (rest : List Token) : fromClosing depth (t :: rest) = t :: rest ∨
    ∃ inner, fromClosing depth (t :: rest) = fromClosing inner rest
  items : Advances A ∧ Advances (paramOver A) ∧ Advances (entryOver A) ∧
    (∀ kind, Advances (declaratorOver A kind)) ∧ Advances (unaryOver A S)

theorem loops {A : Parser Expr} {S : Parser Stmt} (hA : Advances A) (hS : Advances S) : Loops A S where
  commas item h := by
    refine .of_advances (fun _ => rfl) fun k again again' more _ => ?_
    exact (InStep.commaRound h.inStep (more ())).weaken
  closed item close h := by
    refine .of_advances (fun _ => rfl) fun k again again' more _ => ?_
    exact (InStep.closedRound h.inStep (more ())).weaken
  operators op? operand h := by
    refine ⟨.of_advances (fun _ => rfl) fun k again again' more left => ?_, ?_⟩
    · exact InStep.chainRound h.inStep more left
    · exact InStep.advances fun k => .chain h.inStep
  accesses := by
    refine .of_advances (fun _ => rfl) fun k again again' more e => ?_
    exact InStep.accessRound hA.inStep more e
  signs := by
    refine .of_advances (fun _ => rfl) fun k again again' more _ => ?_
    exact (InStep.unaryRound (.afterOver hA.inStep hS.inStep) (more ())).weaken
  block := by
    refine .of_advances (fun _ => rfl) fun k again again' more _ => ?_
    exact (InStep.blockRound hS.inStep (more ())).weaken
  closing depth t rest := by
    rw [fromClosing]
    split
    · exact .inl rfl
    · exact .inr ⟨_, rfl⟩
  items := ⟨hA, InStep.advances fun _ => .paramOver hA.inStep,
    InStep.advances fun _ => .entryOver hA.inStep,
    fun kind => InStep.advances fun _ => .declaratorOver hA.inStep kind,
    InStep.advances fun _ => .remaining fun n => .unaryFrom hA.inStep hS.inStep n⟩

end Loops

section Procedures

/-- An object in braces. -/
def objectOver (A : Parser Expr) : Parser Expr := do
  expect .leftBrace
  return .object (← closedList (entryOver A) .rightBrace (← remaining))

theorem primaryOver_object {A : Parser Expr} {S : Parser Stmt} (ended : Ended ts)
    (brace : (front ts).isMark .leftBrace = true) : primaryOver A S ts = objectOver A ts := by
  obtain ⟨t, mid, rfl⟩ := ended.exists_cons
  have kind : t.kind = .mark .leftBrace := kind_of_isMark brace
  have later : Ended mid := ended.tail (not_finish_of_kind (by rw [kind]; exact nofun))
  have entries : objectOver A (t :: mid) =
      (do return .object (← closedList (entryOver A) .rightBrace (← remaining)) : Parser Expr) mid :=
    bind_read (expect_cons brace later.ne_nil) _
  rw [entries]
  refine (bind_read (a := t) rfl _).trans ?_
  rw [kind]
  exact bind_read (next_cons later.ne_nil) _

theorem objectOver_advances {A : Parser Expr} (hA : Advances A) : Advances (objectOver A) := by
  refine InStep.advances fun k => ?_
  refine (InStep.expect .leftBrace).taking fun _ => .remaining fun n => ?_
  exact (InStep.closedList (.entryOver hA.inStep) .rightBrace n).taking fun entries => .value _

/-- What the procedures of the grammar leave where nesting is read by `A` and `S`. -/
structure Procedures (A : Parser Expr) (S : Parser Stmt) : Prop where
  statement : Advances S
  block : Advances (blockOver S)
  assignment : Advances A
  expression : Advances (expressionOver A)
  params : Advances (paramsOver A)
  object : Advances (objectOver A)
  objects (ts : List Token) : Ended ts → (front ts).isMark .leftBrace = true →
    primaryOver A S ts = objectOver A ts

theorem procedures (n : Nat) : Procedures (assignment n) (statement n) := by
  have hA : Advances (assignment n) := InStep.advances fun _ => (nested_inStep n).1
  have hS : Advances (statement n) := InStep.advances fun _ => (nested_inStep n).2
  exact ⟨hS, InStep.advances fun _ => .blockOver hS.inStep, hA,
    InStep.advances fun _ => .expressionOver hA.inStep,
    InStep.advances fun _ => .paramsOver hA.inStep, objectOver_advances hA,
    fun _ => primaryOver_object⟩

end Procedures

section Whole

def EndedOnce (ts : List Token) : Prop :=
  ∃ earlier last, ts = earlier ++ [last] ∧ last.isFinish = true ∧ ∀ t ∈ earlier, t.isFinish = false

theorem EndedOnce.ended (h : EndedOnce ts) : Ended ts := by
  obtain ⟨earlier, last, rfl, finish, _⟩ := h
  exact ⟨last, List.getLast?_concat .., finish⟩

theorem EndedOnce.suffix (h : EndedOnce ts) (part : rest <:+ ts) (some : rest ≠ []) :
    EndedOnce rest := by
  obtain ⟨earlier, last, rfl, finish, others⟩ := h
  obtain ⟨before, whole⟩ := part
  rw [← List.dropLast_concat_getLast some, ← List.append_assoc] at whole
  obtain ⟨rfl, same⟩ := List.append_inj' whole rfl
  cases same
  exact ⟨rest.dropLast, rest.getLast some, (List.dropLast_concat_getLast some).symm, finish,
    fun t inside => others t (List.mem_append_right before inside)⟩

theorem EndedOnce.last (h : EndedOnce ts) (finish : (front ts).isFinish = true) :
    ∃ t, ts = [t] ∧ t.isFinish = true := by
  obtain ⟨earlier, last, rfl, isLast, others⟩ := h
  cases earlier with
  | nil => exact ⟨last, rfl, isLast⟩
  | cons t more =>
    have first : t.isFinish = true := finish
    rw [others t List.mem_cons_self] at first
    cases first

theorem Spans.not_finish {after span : List Char} {kind : TokenKind} (h : Spans after kind span) :
    kind ≠ .finish := by
  cases h <;> exact nofun

theorem Scanned.endedOnce {place : Nat} {s : List Char} (h : Scanned place s ts) : EndedOnce ts := by
  induction h with
  | finish between => exact ⟨[], _, rfl, rfl, nofun⟩
  | token between spans later ih =>
    obtain ⟨earlier, last, rfl, finish, others⟩ := ih
    exact ⟨_ :: earlier, last, rfl, finish,
      List.forall_mem_cons.mpr ⟨not_finish_of_kind spans.not_finish, others⟩⟩

theorem statementsFrom_ends {depth n : Nat} {ss : List Stmt} (ended : Ended ts) (enough : ts.length ≤ n) :
    statementsFrom depth n ts = .ok (ss, rest) →
      Left false ts rest ∧ (front rest).isFinish = true := by
  induction n generalizing ts ss with
  | zero => exact absurd (List.length_eq_zero_iff.mp (Nat.le_zero.mp enough)) ended.ne_nil
  | succ n ih =>
    refine of_peek ?_
    split
    · next finish =>
      refine of_pure fun _ same => ?_
      rw [same]
      exact ⟨.refl ended, finish⟩
    · refine of_bind fun s mid first => of_bind fun more last read => of_pure fun _ same => ?_
      subst same
      have left := (procedures depth).statement ts s mid ended first
      have fewer := left.fewer rfl
      obtain ⟨left', finish⟩ := ih left.ended (by omega) read
      exact ⟨(left.after left').weaken, finish⟩

theorem program_ends {p : Program} (once : EndedOnce ts) :
    program ts = .ok (p, rest) → ∃ t, rest = [t] ∧ t.isFinish = true := by
  refine of_bind fun n mid count => ?_
  cases count
  refine of_bind fun ss last read => of_pure fun _ same => ?_
  subst same
  obtain ⟨left, finish⟩ := statementsFrom_ends once.ended (Nat.le_succ _) read
  exact (once.suffix left.suffix left.ended.ne_nil).last finish

theorem wholeExpression_ends {e : Expr} (once : EndedOnce ts)
    (read : wholeExpression ts = .ok (e, rest)) : ∃ t, rest = [t] ∧ t.isFinish = true := by
  obtain ⟨read, finish⟩ := wholeExpression_ok read
  have left := (procedures (ts.length + 1)).expression ts e rest once.ended read
  exact (once.suffix left.suffix left.ended.ne_nil).last finish

/-- From any place of the tokens of a text reading ends. The procedures that return have taken a token
and left the last one; the nesting is less deep than there are tokens, and the loops have fewer rounds,
whatever the parsers would do beyond; a script or an expression that is read leaves the last token. -/
theorem reading_ends {text : String} {whole : List Token} (read : tokens text = .ok whole) :
    (∀ ts, ts ≠ [] → ts <:+ whole → Ended ts) ∧
      (∀ n, Procedures (assignment n) (statement n) ∧ Loops (assignment n) (statement n) ∧
        Loop (fun again _ => programRound (statement n) (again ()))
          (fun m (_ : Unit) => statementsFrom n m)) ∧
      (∀ A S, Unrolls A S → ∀ ts, Ended ts → ∀ n m, ts.length ≤ n → ts.length ≤ m →
        A n ts = assignment m ts ∧ S (n + 1) ts = statement (m + 1) ts) ∧
      (∀ p rest, program whole = .ok (p, rest) → ∃ t, rest = [t] ∧ t.isFinish = true) ∧
      ∀ e rest, wholeExpression whole = .ok (e, rest) → ∃ t, rest = [t] ∧ t.isFinish = true := by
  have once := (scanned_of_tokens read).endedOnce
  refine ⟨fun ts some part => (once.suffix part some).ended, fun n => ⟨procedures n, ?_, ?_⟩, ?_,
    fun p rest => program_ends once, fun e rest => wholeExpression_ends once⟩
  · exact loops (procedures n).assignment (procedures n).statement
  · refine .of_advances (fun _ => rfl) fun k again again' more _ => ?_
    exact InStep.programRound (procedures n).statement.inStep (more ())
  · intro A S unrolls ts ended n m deep deep'
    have exprs := (unrolls.inStep grammar_unrolls deep deep').1
    have stmts := (unrolls.inStep grammar_unrolls (Nat.succ_le_succ deep) (Nat.succ_le_succ deep')).2
    exact ⟨(exprs ts ended (Nat.le_refl _)).1, (stmts ts ended (Nat.le_refl _)).1⟩

theorem reading_ends_branch :
    (∃ whole p rest, tokens "if (a) b = f(c, 1); else d++" = .ok whole ∧
      program whole = .ok (p, rest) ∧ Ended whole ∧
      Procedures (assignment whole.length) (statement whole.length) ∧
      Loops (assignment whole.length) (statement whole.length) ∧
      (∀ more, statement (whole.length + more + 1) whole = statement (whole.length + 1) whole) ∧
      ∃ t, rest = [t] ∧ t.isFinish = true) ∧
    ∃ whole e rest, tokens "a ? b[0] : (x, y) => x" = .ok whole ∧
      wholeExpression whole = .ok (e, rest) ∧ ∃ t, rest = [t] ∧ t.isFinish = true := by
  refine ⟨?_, ?_⟩
  · have lexed : (tokens "if (a) b = f(c, 1); else d++").isOk = true := by decide +kernel
    have parsed : (tokens "if (a) b = f(c, 1); else d++" >>= program).isOk = true := by
      decide +kernel
    obtain ⟨whole, lexed⟩ := ok_of_isOk lexed
    rw [bind_of_ok lexed] at parsed
    obtain ⟨⟨p, rest⟩, parsed⟩ := ok_of_isOk parsed
    obtain ⟨places, levels, deeper, programs, _⟩ := reading_ends lexed
    obtain ⟨procedures, loops, _⟩ := levels whole.length
    have ended : Ended whole := (scanned_of_tokens lexed).endedOnce.ended
    refine ⟨whole, p, rest, lexed, parsed, places whole ended.ne_nil List.suffix_rfl, procedures,
      loops, fun more => ?_, programs p rest parsed⟩
    have same := deeper assignment statement grammar_unrolls whole ended (whole.length + more)
      whole.length (Nat.le_add_right _ _) (Nat.le_refl _)
    exact same.2
  · have lexed : (tokens "a ? b[0] : (x, y) => x").isOk = true := by decide +kernel
    have parsed : (tokens "a ? b[0] : (x, y) => x" >>= wholeExpression).isOk = true := by
      decide +kernel
    obtain ⟨whole, lexed⟩ := ok_of_isOk lexed
    rw [bind_of_ok lexed] at parsed
    obtain ⟨⟨e, rest⟩, parsed⟩ := ok_of_isOk parsed
    exact ⟨whole, e, rest, lexed, parsed, (reading_ends lexed).2.2.2.2 e rest parsed⟩

end Whole

end EmitterLogic.Script
