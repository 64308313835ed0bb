import EmitterLogic.Proofs.Script.Tagging.Expressions

namespace EmitterLogic.Script

open Script.Parser

section Grammar

variable {A : Parser Expr} {S : Parser Stmt} {past : List Tagged} {ts rest : List Token}

section Declarations

variable (hA : Tags false A Expr.sites)
include hA

theorem declaratorOver_arrives {binder : Binder} (quiet : binder ≠ .function) {kind : DeclKind}
    {d : Declarator} (ended : Ended ts)
    (suits : ∀ w t mid, t.freeWord? = some w → Suits past t mid (.binder binder)) :
    declaratorOver A kind ts = .ok (d, rest) →
      ∃ past', Arrives past ts (d.sites binder) past' rest ∧ past.length < past'.length := by
  refine of_freeWord ended fun w t mid given word later => ?_
  subst given
  have kind_eq := (kind_of_freeWord word).1
  have sites : roleSites t (.binder binder) = binderSite binder w := by rw [roleSites, kind_eq]
  have ready (us : List Token) : Ready (⟨t, .binder binder⟩ :: past) us := by
    refine .of_head ?_ ?_
    · cases binder with
      | function => exact absurd rfl quiet
      | _ => rfl
    · rw [Tagged.isOperand, kind_eq]
  have named {s : List Site} {past' : List Tagged} {rest : List Token}
      (h : Arrives (⟨t, .binder binder⟩ :: past) mid s past' rest) :
      Arrives past (t :: mid) (binderSite binder w ++ s) past' rest :=
    sites ▸ .cons (suits w t mid word) (bracketStep_word kind_eq) h
  refine of_eat later (fun u more given mark later' => ?_) (fun _ => ?_)
  · refine of_bind fun e mid' run => of_pure fun same same' => ?_
    subst given same same'
    obtain ⟨past', arrives, _⟩ := hA _ _ _ _ later' (.of_mark mark (by rintro ⟨⟩)) (by rintro ⟨⟩) run
    have value := Arrives.mark mark (by decide) (ready (u :: more)).settled arrives
    exact ⟨past', named value, Nat.lt_of_lt_of_le (Nat.lt_succ_self _) value.passage.length_le⟩
  · have plain : (pure (.mk w none) : Parser Declarator) mid = .ok (d, rest) →
        ∃ past', Arrives past (t :: mid) (d.sites binder) past' rest ∧
          past.length < past'.length := by
      refine of_pure fun same same' => ?_
      subst same same'
      exact ⟨_, named (.here later (ready _)), Nat.lt_succ_self _⟩
    split
    · exact of_peek (of_bind fun _ _ => of_failAt)
    · exact plain

theorem Tags.declaratorOver (kind : DeclKind) :
    Tags false (declaratorOver A kind) (Declarator.sites .later) := by
  intro past ts d rest ended ready _
  have suits (w : String) (t : Token) (mid : List Token) (word : t.freeWord? = some w) :
      Suits past t mid (.binder .later) := ⟨⟨w, word⟩, ready.settled⟩
  have named : Binder.later ≠ .function := by decide
  exact declaratorOver_arrives hA named ended suits

theorem declarationOver_arrives {kind : DeclKind} {stmt : Stmt} (ended : Ended ts)
    (unlisted : Unlisted past)
    (declares : ∃ d ∈ past.head?, d.isKeyword "let" || d.isKeyword "const" || d.isKeyword "var") :
    declarationOver A kind ts = .ok (stmt, rest) →
      ∃ past', Arrives past ts stmt.sites past' rest ∧ past.length < past'.length := by
  refine of_bind fun ds mid run => of_pure fun same same' => ?_
  subst same same'
  refine of_bind (fun n us count => ?_) run
  cases count
  cases ts.length with
  | zero => exact of_refuseFront
  | succ n =>
    refine of_bind fun d mid first => ?_
    have suits (w : String) (t : Token) (mid : List Token) (word : t.freeWord? = some w) :
        Suits past t mid (.binder .first) := ⟨⟨w, word⟩, declares⟩
    have named : Binder.first ≠ .function := by decide
    obtain ⟨past', arrives, grows⟩ := declaratorOver_arrives hA named ended suits first
    refine of_eat arrives.ended (fun t more given mark later => ?_) fun _ => ?_
    · refine of_bind fun ds' mid' others => of_pure fun same same' => ?_
      subst given same same'
      have unlisted' := arrives.keeps.unlisted unlisted
      have step : bracketStep t = 0 := bracketStep_mark mark (by decide)
      obtain ⟨past'', others, _⟩ := commaList_arrives (hA.declaratorOver kind) later
        (.of_mark mark nofun) ((Keeps.push step).unlisted unlisted') others
      have comma := Arrives.cons (suits_comma mark arrives.ready.settled unlisted') step others
      rw [← laterSites_eq] at comma
      exact ⟨past'', arrives.trans comma, Nat.lt_of_lt_of_le grows comma.passage.length_le⟩
    · refine of_pure fun same same' => ?_
      subst same same'
      refine ⟨past', ?_, grows⟩
      rw [Stmt.sites, declaratorsSites, declaratorsSites, List.append_nil]
      exact arrives

end Declarations

section Statements

variable (hA : Tags false A Expr.sites) (hS : Tags true S Stmt.sites)

theorem endOfStatement_arrives {u : Unit} (ended : Ended ts) (ready : Ready past ts) :
    endOfStatement ts = .ok (u, rest) → ∃ past', Arrives past ts [] past' rest := by
  have here : (pure () : Parser Unit) ts = .ok (u, rest) → ∃ past', Arrives past ts [] past' rest := by
    refine of_pure fun _ same => ?_
    subst same
    exact ⟨past, .here ended ready⟩
  intro run
  have unfolded : endOfStatement = (eat .semicolon >>= fun b => if b = true then pure () else do
      let t ← peek
      if !(t.isFinish || t.afterBreak || t.isMark .rightBrace) then refuse t) := by
    rw [endOfStatement]
    congr 1
    funext b
    cases b <;> rfl
  rw [unfolded] at run
  refine of_eat ended (fun t mid given mark later => ?_) (fun _ => of_peek ?_) run
  · refine of_pure fun _ same => ?_
    subst given same
    exact ⟨_, .mark mark (by decide) ready.settled (.here later (.of_mark mark nofun))⟩
  · split
    · exact of_refuse
    · exact here

theorem eatSemicolon_arrives {α : Type} {a b : α} (ended : Ended ts) (ready : Ready past ts) :
    (do let _ ← eat .semicolon; return a : Parser α) ts = .ok (b, rest) →
      b = a ∧ ∃ past', Arrives past ts [] past' rest := by
  have unfolded : (do let _ ← eat .semicolon; return a : Parser α) =
      (eat .semicolon >>= fun b => if b = true then pure a else pure a) := by
    congr 1
    funext b
    cases b <;> rfl
  rw [unfolded]
  refine of_eat ended (fun t mid given mark later => of_pure fun same same' => ?_)
    (fun _ => of_pure fun same same' => ?_)
  · subst given same same'
    exact ⟨rfl, _, .mark mark (by decide) ready.settled (.here later (.of_mark mark nofun))⟩
  · subst same same'
    exact ⟨rfl, past, .here ended ready⟩

section Simple

include hA

theorem expressionStatement_arrives {α : Type} {f : Expr → α} {a : α} (ended : Ended ts)
    (ready : Ready past ts) (unlisted : Unlisted past) :
    (do
      let e ← expressionOver A
      endOfStatement
      return f e : Parser α) ts = .ok (a, rest) →
    ∃ e past', a = f e ∧ Arrives past ts e.sites past' rest ∧ past.length < past'.length := by
  refine of_bind fun e mid first => of_bind fun u mid' last => of_pure fun same same' => ?_
  subst same same'
  obtain ⟨past', arrives, grows⟩ := hA.expressionOver _ _ _ _ ended ready (fun _ => unlisted) first
  obtain ⟨past'', done⟩ := endOfStatement_arrives arrives.ended arrives.ready last
  have whole := arrives.trans done
  rw [List.append_nil] at whole
  exact ⟨e, past'', rfl, whole, Nat.lt_of_lt_of_le grows done.passage.length_le⟩

theorem testOver_arrives {e : Expr} (ended : Ended ts) (ready : Ready past ts) :
    testOver A ts = .ok (e, rest) → ∃ past', Arrives past ts e.sites past' rest := by
  refine of_expect ended fun o mid given opening later => ?_
  subst given
  have suits : Suits past o mid .other :=
    suits_mark opening ready.settled (fun _ => ready.loose opening) nofun nofun
  refine of_enclosed hA .parens opening suits later fun e' past' c more test closing later' grown =>
    of_pure fun same same' => ?_
  subst same same'
  exact ⟨_, test⟩

theorem loopInit_arrives {init : Option Stmt} (ended : Ended ts) (ready : Ready past ts)
    (unlisted : Unlisted past) :
    loopInit A ts = .ok (init, rest) → ∃ past', Arrives past ts (elseSites init) past' rest := by
  refine of_peek ?_
  split
  · refine of_pure fun same same' => ?_
    subst same same'
    exact ⟨past, .here ended ready⟩
  · have expression : (do return some (Stmt.expr (← expressionOver A)) : Parser (Option Stmt)) ts =
        .ok (init, rest) → ∃ past', Arrives past ts (elseSites init) past' rest := by
      refine of_bind fun e mid run => of_pure fun same same' => ?_
      subst same same'
      obtain ⟨past', arrives, _⟩ := hA.expressionOver _ _ _ _ ended ready (fun _ => unlisted) run
      exact ⟨past', arrives⟩
    split
    · next w word =>
      cases declares : declKind? w with
      | none => exact expression
      | some kind =>
        refine of_next ended (by rw [word]; exact nofun) fun t mid given later =>
          of_bind fun stmt mid' run => of_pure fun same same' => ?_
        subst given same same'
        have suits : Suits past t mid .keyword := ⟨ready.settled, w, declKind_known declares, word⟩
        obtain ⟨past', arrives, _⟩ := declarationOver_arrives hA later
          ((Keeps.push (bracketStep_word word)).unlisted unlisted)
          ⟨_, rfl, declKind_keyword word declares⟩ run
        exact ⟨past', .cons suits (bracketStep_word word) arrives⟩
    · exact expression

theorem expressionUnless_arrives {m : Mark} {e? : Option Expr} (ended : Ended ts)
    (ready : Ready past ts) (unlisted : Unlisted past) :
    expressionUnless A m ts = .ok (e?, rest) →
      ∃ past', Arrives past ts (optionSites e?) past' rest := by
  refine of_bind fun there mid look => ?_
  cases look
  split
  · refine of_pure fun same same' => ?_
    subst same same'
    exact ⟨past, .here ended ready⟩
  · refine of_bind fun e mid run => of_pure fun same same' => ?_
    subst same same'
    obtain ⟨past', arrives, _⟩ := hA.expressionOver _ _ _ _ ended ready (fun _ => unlisted) run
    exact ⟨past', arrives⟩

theorem returnOver_arrives {stmt : Stmt} (ended : Ended ts) (ready : Ready past ts)
    (unlisted : Unlisted past) :
    returnOver A ts = .ok (stmt, rest) → ∃ past', Arrives past ts stmt.sites past' rest := by
  refine of_peek ?_
  split
  · intro run
    obtain ⟨rfl, past', arrives⟩ := eatSemicolon_arrives ended ready run
    exact ⟨past', arrives⟩
  · intro run
    obtain ⟨e, past', rfl, arrives, _⟩ :=
      expressionStatement_arrives hA (f := fun e => Stmt.returning (some e)) ended ready unlisted run
    exact ⟨past', arrives⟩

theorem throwOver_arrives {stmt : Stmt} (ended : Ended ts) (ready : Ready past ts)
    (unlisted : Unlisted past) :
    throwOver A ts = .ok (stmt, rest) → ∃ past', Arrives past ts stmt.sites past' rest := by
  refine of_peek ?_
  split
  · exact of_bind fun _ _ => of_failAt
  · intro run
    obtain ⟨e, past', rfl, arrives, _⟩ :=
      expressionStatement_arrives hA (f := Stmt.throwing) ended ready unlisted run
    exact ⟨past', arrives⟩

end Simple

section Compound

include hS

theorem handlerOver_arrives {handler : Option Catch} (ended : Ended ts) (ready : Ready past ts) :
    handlerOver S ts = .ok (handler, rest) →
      ∃ past', Arrives past ts (catchSites handler) past' rest := by
  refine of_eatWord ended (fun t mid given word later => ?_) ?_
  · subst given
    have keyword : (⟨t, .keyword⟩ : Tagged).isKeyword "catch" = true := by
      rw [Tagged.isKeyword, Token.isWord, word]
      rfl
    refine of_eat later (fun o us given opening later' => ?_) fun _ => ?_
    · refine of_freeWord later' fun name u vs given' named start => ?_
      refine of_expect start fun c more given'' closing later'' => of_bind fun b mid' run =>
        of_pure fun same same' => ?_
      subst given given' given'' same same'
      have kind := (kind_of_freeWord named).1
      have suits : Suits (⟨t, .keyword⟩ :: past) o (u :: c :: more) .caught := ⟨opening, _, rfl, keyword⟩
      have bound : Suits (⟨o, .caught⟩ :: ⟨t, .keyword⟩ :: past) u (c :: more) (.binder .handler) :=
        ⟨⟨name, named⟩, ⟨_, rfl, rfl⟩, closing⟩
      have sites : roleSites u (.binder .handler) = binderSite .handler name := by
        rw [roleSites, kind]
      have inner := Arrives.cons bound (bracketStep_word kind)
        (.here start (.of_head rfl (by rw [Tagged.isOperand, kind])))
      have head := Arrives.enclosed .parens opening closing suits later'' inner
      rw [sites, List.append_nil] at head
      obtain ⟨past', c', block, _⟩ := blockOver_arrives hS head.ended (.inl head.ready.settled) run
      exact ⟨_, .keyword word (by decide) ready.settled (head.trans block)⟩
    · refine of_bind fun b mid' run => of_pure fun same same' => ?_
      subst same same'
      have caught : Blocks (⟨t, .keyword⟩ :: past) := .inr ⟨_, rfl, keyword⟩
      obtain ⟨past', c, block, _⟩ := blockOver_arrives hS later caught run
      exact ⟨_, .keyword word (by decide) ready.settled block⟩
  · refine of_pure fun same same' => ?_
    subst same same'
    exact ⟨past, .here ended ready⟩

theorem finallyOver_arrives {α : Type} {C : Prop} {f : Option Block → Parser α} {r : α × List Token}
    (ended : Ended ts) (ready : Ready past ts)
    (h : ∀ finalizer past' mid, Arrives past ts (finallySites finalizer) past' mid →
      f finalizer mid = .ok r → C) :
    (do
      let finalizer ← if ← eatWord "finally" then some <$> blockOver S else pure none
      f finalizer) ts = .ok r → C := by
  refine of_eatWord ended (fun t mid given word later => ?_) ?_
  · subst given
    rw [← bind_pure_comp]
    refine of_bind fun finalizer mid' => of_bind fun b us run => of_pure fun same same' => ?_
    subst same same'
    have ready' : Ready (⟨t, .keyword⟩ :: past) mid := .of_keyword word (by decide)
    obtain ⟨past', c, block, _⟩ := blockOver_arrives hS later (.inl ready'.settled) run
    exact h _ _ _ (.keyword word (by decide) ready.settled block)
  · exact h none past ts (.here ended ready)

theorem attemptOver_arrives {stmt : Stmt} (ended : Ended ts) (ready : Ready past ts) :
    attemptOver S ts = .ok (stmt, rest) → ∃ past', Arrives past ts stmt.sites past' rest := by
  refine of_bind fun body mid first => of_bind fun handler mid' second => ?_
  obtain ⟨past₁, c, block, _⟩ := blockOver_arrives hS ended (.inl ready.settled) first
  obtain ⟨past₂, caught⟩ := handlerOver_arrives hS block.ended block.ready second
  refine finallyOver_arrives hS caught.ended caught.ready fun finalizer past₃ us last => ?_
  split
  · exact of_peek (of_bind fun _ _ => of_failAt)
  · refine of_pure fun same same' => ?_
    subst same same'
    exact ⟨past₃, block.trans (caught.trans last)⟩

include hA

theorem branchOver_arrives {stmt : Stmt} (ended : Ended ts) (ready : Ready past ts)
    (unlisted : Unlisted past) :
    branchOver A S ts = .ok (stmt, rest) → ∃ past', Arrives past ts stmt.sites past' rest := by
  refine of_bind fun test mid first => of_bind fun yes mid' second => ?_
  obtain ⟨past₁, tested⟩ := testOver_arrives hA ended ready first
  obtain ⟨past₂, chosen, _⟩ := hS _ _ _ _ tested.ended tested.ready
    (fun _ => tested.keeps.unlisted unlisted) second
  have both := tested.trans chosen
  refine of_eatWord chosen.ended (fun t us given word later => ?_) ?_
  · refine of_bind fun no us' third => of_pure fun same same' => ?_
    subst given same same'
    have step : bracketStep t = 0 := bracketStep_word word
    obtain ⟨past₃, other, _⟩ := hS _ _ _ _ later (.of_keyword word (by decide))
      (fun _ => (Keeps.push step).unlisted (both.keeps.unlisted unlisted)) third
    exact ⟨past₃, tested.trans (chosen.trans (.keyword word (by decide) chosen.ready.settled other))⟩
  · refine of_pure fun same same' => ?_
    subst same same'
    refine ⟨past₂, ?_⟩
    rw [Stmt.sites, elseSites, List.append_nil]
    exact both

theorem whileOver_arrives {stmt : Stmt} (ended : Ended ts) (ready : Ready past ts)
    (unlisted : Unlisted past) :
    (do
      let test ← testOver A
      return .whileLoop test (← S) : Parser Stmt) ts = .ok (stmt, rest) →
    ∃ past', Arrives past ts stmt.sites past' rest := by
  refine of_bind fun test mid first => of_bind fun body mid' second => of_pure fun same same' => ?_
  subst same same'
  obtain ⟨past₁, tested⟩ := testOver_arrives hA ended ready first
  obtain ⟨past₂, looped, _⟩ := hS _ _ _ _ tested.ended tested.ready
    (fun _ => tested.keeps.unlisted unlisted) second
  exact ⟨past₂, tested.trans looped⟩

theorem doOver_arrives {stmt : Stmt} (ended : Ended ts) (ready : Ready past ts)
    (unlisted : Unlisted past) :
    doOver A S ts = .ok (stmt, rest) → ∃ past', Arrives past ts stmt.sites past' rest := by
  refine of_bind fun body mid first => ?_
  obtain ⟨past₁, looped, _⟩ := hS _ _ _ _ ended ready (fun _ => unlisted) first
  refine of_expectWord looped.ended fun t us given word later => of_bind fun test us' second => ?_
  subst given
  obtain ⟨past₂, tested⟩ := testOver_arrives hA later (.of_keyword word (by decide)) second
  have both := looped.trans (.keyword word (by decide) looped.ready.settled tested)
  intro run
  obtain ⟨rfl, past₃, last⟩ := eatSemicolon_arrives tested.ended tested.ready run
  have whole := both.trans last
  rw [List.append_nil] at whole
  exact ⟨past₃, whole⟩

theorem forOver_arrives {stmt : Stmt} (ended : Ended ts) (ready : Ready past ts)
    (unlisted : Unlisted past) :
    forOver A S ts = .ok (stmt, rest) → ∃ past', Arrives past ts stmt.sites past' rest := by
  refine of_expect ended fun o mid given opening later => of_bind fun init mid₁ first => ?_
  subst given
  have inside : Unlisted (⟨o, .other⟩ :: past) := .opened .parens opening rfl
  obtain ⟨past₁, started⟩ := loopInit_arrives hA later (.of_mark opening nofun) inside first
  refine of_expect started.ended fun u us given mark later₁ => of_bind fun test us₁ second => ?_
  subst given
  have step : bracketStep u = 0 := bracketStep_mark mark (by decide)
  have inside₁ : Unlisted (⟨u, .other⟩ :: past₁) :=
    (Keeps.push step).unlisted (started.keeps.unlisted inside)
  obtain ⟨past₂, tested⟩ := expressionUnless_arrives hA later₁ (.of_mark mark nofun) inside₁ second
  refine of_expect tested.ended fun v vs given mark' later₂ => of_bind fun update vs₁ third => ?_
  subst given
  have step' : bracketStep v = 0 := bracketStep_mark mark' (by decide)
  have inside₂ : Unlisted (⟨v, .other⟩ :: past₂) :=
    (Keeps.push step').unlisted (tested.keeps.unlisted inside₁)
  obtain ⟨past₃, updated⟩ := expressionUnless_arrives hA later₂ (.of_mark mark' nofun) inside₂ third
  refine of_expect updated.ended fun c more given closing later₃ => of_bind fun body us' fourth =>
    of_pure fun same same' => ?_
  subst given same same'
  have suits : Suits past o mid .other :=
    suits_mark opening ready.settled (fun _ => ready.loose opening) nofun nofun
  have head := Arrives.enclosed .parens opening closing suits later₃
    (started.trans (.mark mark (by decide) started.ready.settled
      (tested.trans (.mark mark' (by decide) tested.ready.settled updated))))
  obtain ⟨past₄, looped, _⟩ := hS _ _ _ _ head.ended head.ready
    (fun _ => head.keeps.unlisted unlisted) fourth
  have whole := head.trans looped
  have sites : (Stmt.forLoop init test update body).sites = roleSites o .other ++
      (elseSites init ++ (optionSites test ++ optionSites update)) ++ body.sites := by
    simp only [Stmt.sites, List.append_assoc]
    rfl
  rw [sites]
  exact ⟨past₄, whole⟩

theorem keywordOver_arrives {w : String} {t : Token} {p : Parser Stmt} {stmt : Stmt}
    (word : t.kind = .word w) (known : keywordOver? A S w = some p) (ended : Ended ts)
    (unlisted : Unlisted (⟨t, .keyword⟩ :: past)) :
    p ts = .ok (stmt, rest) →
      w ∈ statementWords ∧ ∃ past', Arrives (⟨t, .keyword⟩ :: past) ts stmt.sites past' rest := by
  unfold keywordOver? at known
  split at known
  · next kind declares =>
    cases known
    refine of_bind fun s mid first => of_bind fun u mid' last => of_pure fun same same' => ?_
    subst same same'
    obtain ⟨past', arrives, _⟩ := declarationOver_arrives hA ended unlisted
      ⟨_, rfl, declKind_keyword word declares⟩ first
    obtain ⟨past'', done⟩ := endOfStatement_arrives arrives.ended arrives.ready last
    have whole := arrives.trans done
    rw [List.append_nil] at whole
    exact ⟨declKind_known declares, past'', whole⟩
  split at known
  · cases known
    refine of_freeWord ended fun name u mid given named later => of_bind fun f mid' run =>
      of_pure fun same same' => ?_
    subst given same same'
    have kind := (kind_of_freeWord named).1
    have keyword : (⟨t, .keyword⟩ : Tagged).isKeyword "function" = true := by
      rw [Tagged.isKeyword, Token.isWord, word]
      rfl
    have suits : Suits (⟨t, .keyword⟩ :: past) u mid (.binder .function) :=
      ⟨⟨name, named⟩, _, rfl, keyword⟩
    have sites : roleSites u (.binder .function) = binderSite .function name := by
      rw [roleSites, kind]
    have headed : ∃ d ∈ (⟨u, .binder .function⟩ :: ⟨t, .keyword⟩ :: past).head?,
        d.role = .binder .function := ⟨_, rfl, rfl⟩
    obtain ⟨s, past', c, arrives, _, whole⟩ := functionOver_arrives hA hS later (.inr headed) run
    have named := Arrives.cons suits (bracketStep_word kind) arrives
    rw [sites, ← whole] at named
    exact ⟨by decide, _, named⟩
  · cases known
    exact fun run => ⟨by decide,
      branchOver_arrives hA hS ended (.of_keyword word (by decide)) unlisted run⟩
  · cases known
    exact fun run => ⟨by decide,
      whileOver_arrives hA hS ended (.of_keyword word (by decide)) unlisted run⟩
  · cases known
    exact fun run => ⟨by decide,
      doOver_arrives hA hS ended (.of_keyword word (by decide)) unlisted run⟩
  · cases known
    exact fun run => ⟨by decide,
      forOver_arrives hA hS ended (.of_keyword word (by decide)) unlisted run⟩
  · cases known
    exact fun run => ⟨by decide,
      returnOver_arrives hA ended (.of_keyword word (by decide)) unlisted run⟩
  · cases known
    refine of_bind fun u mid last => of_pure fun same same' => ?_
    subst same same'
    exact ⟨by decide, endOfStatement_arrives ended (.of_keyword word (by decide)) last⟩
  · cases known
    refine of_bind fun u mid last => of_pure fun same same' => ?_
    subst same same'
    exact ⟨by decide, endOfStatement_arrives ended (.of_keyword word (by decide)) last⟩
  · cases known
    exact fun run => ⟨by decide,
      throwOver_arrives hA ended (.of_keyword word (by decide)) unlisted run⟩
  · cases known
    exact fun run => ⟨by decide,
      attemptOver_arrives hS ended (.of_keyword word (by decide)) run⟩
  · cases known

theorem Tags.statementOver : Tags true (statementOver A S) Stmt.sites := by
  intro past ts stmt rest ended ready commas
  have unlisted := commas rfl
  have expression : expressionStatement A ts = .ok (stmt, rest) →
      ∃ past', Arrives past ts stmt.sites past' rest ∧ past.length < past'.length := by
    intro run
    obtain ⟨e, past', rfl, done⟩ := expressionStatement_arrives hA (f := Stmt.expr) ended ready unlisted run
    exact ⟨past', done⟩
  refine of_peek ?_
  cases kind : (front ts).kind with
  | word w =>
    cases known : keywordOver? A S w with
    | none =>
      simp only [known]
      exact expression
    | some p =>
      simp only [known]
      refine of_next ended (by rw [kind]; rintro ⟨⟩) fun t mid given later run => ?_
      subst given
      have kind : t.kind = .word w := kind
      have step : bracketStep t = 0 := bracketStep_word kind
      obtain ⟨member, past', arrives⟩ := keywordOver_arrives hA hS kind known later
        ((Keeps.push step).unlisted unlisted) run
      exact ⟨past', .keyword kind member ready.settled arrives,
        Nat.lt_of_lt_of_le (Nat.lt_succ_self _) arrives.passage.length_le⟩
  | mark m =>
    cases m with
    | leftBrace =>
      refine of_bind fun b mid run => of_pure fun same same' => ?_
      subst same same'
      obtain ⟨past', c, block, _, grows⟩ := blockOver_arrives hS ended (.inl ready.settled) run
      exact ⟨_, block, Nat.lt_succ_of_le grows⟩
    | semicolon =>
      refine of_next ended (by rw [kind]; rintro ⟨⟩) fun t mid given later =>
        of_pure fun same same' => ?_
      subst given same same'
      have mark : t.isMark .semicolon = true := isMark_of_kind kind
      exact ⟨_, .mark mark (by decide) ready.settled (.here later (.of_mark mark (by rintro ⟨⟩))),
        Nat.lt_succ_self _⟩
    | _ => exact expression
  | _ => exact expression

end Compound

end Statements

end Grammar

theorem nested_tags (n : Nat) :
    Tags false (assignment n) Expr.sites ∧ Tags true (statement n) Stmt.sites := by
  induction n with
  | zero =>
    rw [assignment, statement]
    exact ⟨fun _ _ _ _ _ _ _ => of_refuseFront, fun _ _ _ _ _ _ _ => of_refuseFront⟩
  | succ n ih =>
    rw [assignment, statement]
    exact ⟨ih.1.assignmentOver ih.2, ih.1.statementOver ih.2⟩

theorem statementsFrom_arrives {depth n : Nat} {past : List Tagged} {ts rest : List Token}
    {ss : List Stmt} (enough : ts.length ≤ n) (ended : Ended ts) (ready : Ready past ts)
    (unlisted : Unlisted past) :
    statementsFrom depth n ts = .ok (ss, rest) →
      ∃ past', Arrives past ts (stmtsSites ss) past' rest ∧ (front rest).isFinish = true := by
  induction n generalizing past ts ss with
  | zero => exact absurd (List.length_eq_zero_iff.mp (Nat.le_zero.mp enough)) ended.ne_nil
  | succ n ih =>
    refine of_peek ?_
    split
    · next finish =>
      refine of_pure fun same same' => ?_
      subst same same'
      exact ⟨past, .here ended ready, finish⟩
    · refine of_bind fun s mid first => of_bind fun ss' mid' others => of_pure fun same same' => ?_
      subst same same'
      obtain ⟨past', arrives, grows⟩ :=
        (nested_tags depth).2 _ _ _ _ ended ready (fun _ => unlisted) first
      have used := arrives.passage.length
      obtain ⟨past'', more, finish⟩ := ih (by omega) arrives.ended arrives.ready
        (arrives.keeps.unlisted unlisted) others
      exact ⟨past'', arrives.trans more, finish⟩

theorem program_passage {ts rest : List Token} {p : Program} (ended : Ended ts)
    (run : program ts = .ok (p, rest)) :
    ∃ past, Passage [] ts p.sites past rest ∧ Ended rest ∧ (front rest).isFinish = true := by
  revert run
  refine of_bind fun n mid count => ?_
  cases count
  refine of_bind fun ss mid' run => of_pure fun same same' => ?_
  subst same same'
  obtain ⟨past, arrives, finish⟩ := statementsFrom_arrives (Nat.le_succ _) ended
    .start trivial run
  exact ⟨past, arrives.passage, arrives.ended, finish⟩

end EmitterLogic.Script
