import EmitterLogic.Proofs.Script.Tagging.Parts

namespace EmitterLogic.Script

open Script.Parser

section Grammar

variable {A : Parser Expr} {S : Parser Stmt} {past : List Tagged} {ts rest : List Token}

section Blocks

variable (hS : Tags true S Stmt.sites)
include hS

theorem blockItems_arrives {n : Nat} {ss : List Stmt} (ended : Ended ts) (ready : Ready past ts)
    (unlisted : Unlisted past) :
    blockItems S n ts = .ok (ss, rest) →
      ∃ past' c, Arrives past ts (stmtsSites ss) past' (c :: rest) ∧ c.isMark .rightBrace = true ∧
        Ended rest := by
  induction n generalizing past ts ss with
  | zero => exact of_refuseFront
  | succ n ih =>
    refine of_eat ended (fun c more given mark later => ?_) (fun _ => ?_)
    · refine of_pure fun same same' => ?_
      subst given same same'
      exact ⟨past, c, .here ended ready, mark, later⟩
    · refine of_peek ?_
      split
      · exact of_bind fun _ _ => of_refuseFront
      · refine of_bind fun s mid first => of_bind fun ss' mid' others => of_pure fun same same' => ?_
        subst same same'
        obtain ⟨past', arrives, _⟩ := hS _ _ _ _ ended ready (fun _ => unlisted) first
        obtain ⟨past'', c, others, last⟩ :=
          ih arrives.ended arrives.ready (arrives.keeps.unlisted unlisted) others
        exact ⟨past'', c, arrives.trans others, last⟩

def Blocks (past : List Tagged) : Prop :=
  Settled past ∨ ∃ d ∈ past.head?, d.isKeyword "catch" = true

theorem blockOver_arrives {b : Block} (ended : Ended ts) (blocks : Blocks past) :
    blockOver S ts = .ok (b, rest) →
      ∃ past' c, Arrives past ts b.sites (⟨c, .other⟩ :: past') rest ∧
        c.isMark .rightBrace = true ∧ past.length ≤ past'.length := by
  refine of_expect ended fun o mid given opening later => ?_
  refine of_bind fun n us count => ?_
  cases count
  refine of_bind fun ss mid' run => of_pure fun same same' => ?_
  subst given same same'
  have suits : Suits past o mid .other :=
    suits_other opening (blocks.imp_right fun h => .inr ⟨rfl, h⟩) nofun nofun nofun
  obtain ⟨past', c, inner, closing, restEnded⟩ := blockItems_arrives hS later
    (.of_mark opening nofun) (.opened .braces opening rfl) run
  exact ⟨past', c, .enclosed .braces opening closing suits restEnded inner, closing,
    Nat.le_of_succ_le inner.passage.length_le⟩

end Blocks

section Nested

variable (hA : Tags false A Expr.sites) (hS : Tags true S Stmt.sites)
include hA hS

theorem functionOver_arrives {name : String} {f : Func} (ended : Ended ts)
    (headed : (∃ d ∈ past.head?, d.isKeyword "function" = true) ∨
      ∃ d ∈ past.head?, d.role = .binder .function) :
    functionOver A S name ts = .ok (f, rest) →
      ∃ s past' c, Arrives past ts s (⟨c, .other⟩ :: past') rest ∧ c.isMark .rightBrace = true ∧
        f.sites = binderSite .function name ++ s := by
  refine of_bind fun params mid first => ?_
  have opens (t : Token) (more : List Token) (mark : t.isMark .leftParen = true) :
      Suits past t more (.list false) := ⟨mark, headed⟩
  obtain ⟨past', c, list, _⟩ :=
    paramsOver_arrives hA ended (fun t more _ mark => opens t more mark) first
  refine of_bind fun b mid' second => of_pure fun same same' => ?_
  subst same same'
  obtain ⟨past'', c', block, closing, _⟩ := blockOver_arrives hS list.ended (.inl list.ready.settled) second
  exact ⟨_, past'', c', list.trans block, closing, rfl⟩

theorem arrowBody_arrives {params : List Param} {f : Func} (ended : Ended ts)
    (suits : ∀ t more, ts = t :: more → t.isMark .arrow = true → Suits past t more .other) :
    (do
      expect .arrow
      if ← atMark .leftBrace then return Func.mk "" params (.block (← blockOver S))
      return .mk "" params (.concise (← A)) : Parser Func) ts = .ok (f, rest) →
    ∃ s past', Arrives past ts s past' rest ∧ f.sites = paramsSites params ++ s := by
  refine of_expect ended fun t mid given mark later => ?_
  subst given
  have step : bracketStep t = 0 := bracketStep_mark mark (by decide)
  have ready : Ready (⟨t, .other⟩ :: past) mid := .of_mark mark nofun
  have suits := suits t mid rfl mark
  refine of_bind fun block mid' look => ?_
  cases look
  split
  · refine of_bind fun b mid' run => of_pure fun same same' => ?_
    subst same same'
    obtain ⟨past', c, arrives, _⟩ := blockOver_arrives hS later (.inl ready.settled) run
    exact ⟨_, _, .cons suits step arrives, rfl⟩
  · refine of_bind fun e mid' run => of_pure fun same same' => ?_
    subst same same'
    obtain ⟨past', arrives, _⟩ := hA _ _ _ _ later ready nofun run
    exact ⟨_, _, .cons suits step arrives, rfl⟩

theorem arrowOver_arrives {f : Func} (ended : Ended ts) (ready : Ready past ts)
    (ahead : arrowAhead ts = true) :
    arrowOver A S ts = .ok (f, rest) →
      ∃ past', Arrives past ts f.sites past' rest ∧ past.length < past'.length := by
  refine of_peek ?_
  cases word : (front ts).freeWord? with
  | some w =>
    have kind := (kind_of_freeWord word).1
    refine of_next ended (by rw [kind]; rintro ⟨⟩) fun t mid given later => ?_
    subst given
    have follows : (front mid).isMark .arrow = true := by
      have some : (front (t :: mid)).freeWord?.isSome = true := by rw [word]; rfl
      have next : arrowNext (behind (t :: mid)) = true := by
        rw [arrowAhead, if_pos some] at ahead
        exact ahead
      rw [behind_cons later.ne_nil, arrowNext, Bool.and_eq_true] at next
      exact next.1
    refine of_bind fun params mid' => of_pure fun same same' run => ?_
    subst same same'
    have suits : Suits past t mid' (.binder .parameter) :=
      ⟨⟨w, word⟩, .inl ⟨ready.settled, follows⟩⟩
    have sites : roleSites t (.binder .parameter) = paramsSites [.mk w none] := by
      have kind : t.kind = .word w := kind
      rw [roleSites, kind, paramsSites, paramsSites, Param.sites, optionSites]
      simp only [List.append_nil]
    have arrow (u : Token) (more : List Token) (mark : u.isMark .arrow = true) :
        Suits (⟨t, .binder .parameter⟩ :: past) u more .other :=
      suits_other mark (.inl (.of_head rfl)) (by rintro ⟨⟩) (by rintro ⟨⟩) fun _ => ⟨_, _, rfl, .inl rfl⟩
    obtain ⟨s, past', arrives, whole⟩ :=
      arrowBody_arrives hA hS later (fun u more _ mark => arrow u more mark) run
    have all := Arrives.cons suits (bracketStep_word kind) arrives
    rw [sites, ← whole] at all
    exact ⟨past', all, Nat.lt_of_lt_of_le (Nat.lt_succ_self _) arrives.passage.length_le⟩
  | none =>
    refine of_bind fun params mid first run => ?_
    have opens (t : Token) (more : List Token) (given : ts = t :: more)
        (mark : t.isMark .leftParen = true) : Suits past t more (.list true) := by
      subst given
      exact ⟨mark, ready.settled, ready.loose mark, ahead⟩
    obtain ⟨past', c, list, closing, inList, grows⟩ := paramsOver_arrives hA ended opens first
    have arrow (u : Token) (more : List Token) (mark : u.isMark .arrow = true) :
        Suits (⟨c, .other⟩ :: past') u more .other :=
      suits_other mark (.inl list.ready.settled) (by rintro ⟨⟩) (by rintro ⟨⟩)
        fun _ => ⟨_, _, rfl, .inr ⟨closing, inList⟩⟩
    obtain ⟨s, past'', arrives, whole⟩ :=
      arrowBody_arrives hA hS list.ended (fun u more _ mark => arrow u more mark) run
    have all := list.trans arrives
    rw [← whole] at all
    exact ⟨past'', all, Nat.lt_of_le_of_lt grows arrives.passage.length_le⟩

theorem functionExpr_passes {past₁ : List Tagged} {us : List Token} {name : String} {e : Expr}
    (passage : Passage past ts (binderSite .function name) past₁ us) (ended : Ended us)
    (keeps : Keeps past past₁) (grown : past.length < past₁.length)
    (headed : (∃ d ∈ past₁.head?, d.isKeyword "function" = true) ∨
      ∃ d ∈ past₁.head?, d.role = .binder .function) :
    (do return Expr.func (← functionOver A S name)) us = .ok (e, rest) →
      ∃ past', Passes past ts e.sites past' rest ∧ EndsAs past' e ∧ past.length < past'.length := by
  refine of_bind fun f mid run => of_pure fun same same' => ?_
  subst same same'
  obtain ⟨s, past', c, arrives, closing, sites⟩ := functionOver_arrives hA hS ended headed run
  have whole := passage.trans arrives.passage
  rw [← sites] at whole
  exact ⟨_, ⟨whole, arrives.ended, keeps.trans arrives.keeps, arrives.ready.settled⟩,
    .of_mark closing nofun, Nat.lt_of_lt_of_le grown arrives.passage.length_le⟩

theorem wordOver_passes {w : String} {t : Token} {mid : List Token} {e : Expr}
    (kind : t.kind = .word w) (ended : Ended (t :: mid)) (ready : Ready past (t :: mid)) :
    wordOver A S w t (t :: mid) = .ok (e, rest) →
      ∃ past', Passes past (t :: mid) e.sites past' rest ∧ EndsAs past' e ∧
        past.length < past'.length := by
  have goes : (front (t :: mid)).kind ≠ .finish := by
    have same : (front (t :: mid)).kind = t.kind := rfl
    rw [same, kind]
    exact nofun
  have step : bracketStep t = 0 := bracketStep_word kind
  have tagged {role : Role} {s : List Site} {more : List Token} (later : Ended more)
      (suits : Suits past t more role) (sites : roleSites t role = s)
      (quiet : (⟨t, role⟩ : Tagged).awaits = false) :
      Passes past (t :: more) s (⟨t, role⟩ :: past) more :=
    ⟨sites ▸ .one suits, later, .push step, .of_head quiet⟩
  unfold wordOver
  cases literal : literalOf? w with
  | some l =>
    refine of_next ended goes fun u more given later => of_pure fun same same' => ?_
    cases given
    subst same same'
    have suits : Suits past t rest .literal := ⟨ready.settled, w, l, kind, literal⟩
    refine ⟨_, tagged later suits rfl rfl, ?_, Nat.lt_succ_self _⟩
    obtain ⟨tokenKind, position, broken⟩ := t
    have kind : tokenKind = .word w := kind
    subst kind
    exact nofun
  | none =>
    dsimp only
    split
    · next function =>
      have same : w = "function" := beq_iff_eq.mp function
      refine of_next ended goes fun u more given later => ?_
      cases given
      have keyword : (⟨t, .keyword⟩ : Tagged).isKeyword "function" = true := by
        rw [Tagged.isKeyword, Token.isWord, kind, same]
        rfl
      have suits : Suits past t mid .keyword :=
        ⟨ready.settled, w, by rw [same]; decide, kind⟩
      refine of_peek ?_
      cases (front mid).kind with
      | word _ =>
        refine of_freeWord later fun name u more given word later' => ?_
        subst given
        have kind' := (kind_of_freeWord word).1
        have suits' : Suits (⟨t, .keyword⟩ :: past) u more (.binder .function) :=
          ⟨⟨name, word⟩, _, rfl, keyword⟩
        have sites : roleSites u (.binder .function) = binderSite .function name := by
          rw [roleSites, kind']
        have passage := Passage.step suits (.one suits')
        rw [sites] at passage
        exact functionExpr_passes hA hS passage later'
          ((Keeps.push step).trans (.push (bracketStep_word kind')))
          (Nat.lt_succ_of_lt (Nat.lt_succ_self _)) (.inr ⟨_, rfl, rfl⟩)
      | _ =>
        exact functionExpr_passes hA hS (.one suits) later (.push step) (Nat.lt_succ_self _)
          (.inl ⟨_, rfl, keyword⟩)
    · split
      · exact of_failAt
      · next free =>
        refine of_next ended goes fun u more given later => of_pure fun same same' => ?_
        cases given
        subst same same'
        have suits : Suits past t rest .value :=
          ⟨ready.settled, w, kind, fun reserved => absurd reserved free⟩
        have sites : roleSites t .value = [.name w t.position] := by rw [roleSites, kind]
        refine ⟨_, tagged later suits sites rfl, ?_, Nat.lt_succ_self _⟩
        obtain ⟨tokenKind, position, broken⟩ := t
        have kind : tokenKind = .word w := kind
        subst kind
        rfl

omit hA hS in
theorem constant_passes {e e' : Expr} {t : Token} {mid : List Token}
    (constant : (∃ x, t.kind = .number x) ∨ ∃ s, t.kind = .text s) (plain : isNamed e' = false)
    (sites : e'.sites = []) (ended : Ended (t :: mid)) (ready : Ready past (t :: mid)) :
    (do let _ ← next; return e') (t :: mid) = .ok (e, rest) →
      ∃ past', Passes past (t :: mid) e.sites past' rest ∧ EndsAs past' e ∧
        past.length < past'.length := by
  obtain ⟨kind, position, broken⟩ := t
  have constant : (∃ x, kind = .number x) ∨ ∃ s, kind = .text s := constant
  have goes : kind ≠ .finish := by
    rcases constant with ⟨x, rfl⟩ | ⟨s, rfl⟩ <;> exact nofun
  refine of_next ended goes fun u more given later => of_pure fun same same' => ?_
  cases given
  subst same same'
  have suits : Suits past ⟨kind, position, broken⟩ rest .other := by
    rcases constant with ⟨x, rfl⟩ | ⟨s, rfl⟩ <;> exact ⟨.inl ready.settled, nofun, nofun, nofun, nofun⟩
  have step : bracketStep ⟨kind, position, broken⟩ = 0 := by
    rcases constant with ⟨x, rfl⟩ | ⟨s, rfl⟩ <;> rfl
  have quiet : (⟨⟨kind, position, broken⟩, .other⟩ : Tagged).awaits = false := by
    rcases constant with ⟨x, rfl⟩ | ⟨s, rfl⟩ <;> rfl
  have ends : EndsAs (⟨⟨kind, position, broken⟩, .other⟩ :: past) e := by
    rcases constant with ⟨x, rfl⟩ | ⟨s, rfl⟩ <;> exact fun named => absurd named (by rw [plain]; exact nofun)
  rw [sites]
  exact ⟨_, ⟨.one suits, later, .push step, .of_head quiet⟩, ends, Nat.lt_succ_self _⟩

theorem primaryOver_passes {e : Expr} (ended : Ended ts) (ready : Ready past ts) :
    primaryOver A S ts = .ok (e, rest) →
      ∃ past', Passes past ts e.sites past' rest ∧ EndsAs past' e ∧ past.length < past'.length := by
  refine of_peek ?_
  obtain ⟨t, mid, rfl⟩ := ended.exists_cons
  cases kind : (front (t :: mid)).kind with
  | number x => exact constant_passes (.inl ⟨x, kind⟩) rfl rfl ended ready
  | text s => exact constant_passes (.inr ⟨s, kind⟩) rfl rfl ended ready
  | word w => exact wordOver_passes hA hS kind ended ready
  | finish => exact of_refuse
  | mark m =>
    have mark : t.isMark m = true := isMark_of_kind kind
    have goes : (front (t :: mid)).kind ≠ .finish := by
      rw [kind]
      rintro ⟨⟩
    cases m with
    | leftParen =>
      refine of_next ended goes fun u more given later => ?_
      cases given
      have suits : Suits past t mid .other :=
        suits_mark mark ready.settled (fun _ => ready.loose mark) (by rintro ⟨⟩) (by rintro ⟨⟩)
      refine of_enclosed hA .parens mark suits later
        fun e' past' c more group closing later' grown => of_pure fun same same' => ?_
      subst same same'
      exact ⟨_, group.passes, .of_mark closing fun _ => rfl, Nat.lt_succ_of_lt grown⟩
    | leftBracket =>
      refine of_next ended goes fun u more given later => ?_
      cases given
      refine of_bind fun n us count => ?_
      cases count
      refine of_bind fun es mid' run => of_pure fun same same' => ?_
      subst same same'
      obtain ⟨past', c, inner, closing, later'⟩ := closedExprs_arrives hA later
        (.of_mark mark (by rintro ⟨⟩)) (.opened .brackets mark rfl) run
      have suits : Suits past t mid .other :=
        suits_mark mark ready.settled (by rintro ⟨⟩) (by rintro ⟨⟩) (by rintro ⟨⟩)
      have group := Arrives.enclosed .brackets mark closing suits later' inner
      exact ⟨_, group.passes, .of_mark closing (by rintro ⟨⟩), Nat.lt_succ_of_lt inner.passage.length_le⟩
    | leftBrace =>
      refine of_next ended goes fun u more given later => ?_
      cases given
      refine of_bind fun n us count => ?_
      cases count
      refine of_bind fun es mid' run => of_pure fun same same' => ?_
      subst same same'
      obtain ⟨past', c, inner, closing, later'⟩ := closedEntries_arrives hA later
        (.of_mark mark (by rintro ⟨⟩)) (.opened .braces mark rfl) run
      have suits : Suits past t mid .other :=
        suits_mark mark ready.settled (by rintro ⟨⟩) (by rintro ⟨⟩) (by rintro ⟨⟩)
      have group := Arrives.enclosed .braces mark closing suits later' inner
      exact ⟨_, group.passes, .of_mark closing (by rintro ⟨⟩), Nat.lt_succ_of_lt inner.passage.length_le⟩
    | _ => exact of_refuse

theorem Tags.accessOver : Tags false (accessOver A S) Expr.sites := by
  intro past ts e rest ended ready _
  refine of_bind fun primary mid first => of_bind fun n us count => ?_
  cases count
  obtain ⟨past', passes, ends, grows⟩ := primaryOver_passes hA hS ended ready first
  intro run
  obtain ⟨s, past'', arrives, sites⟩ :=
    accessFrom_arrives hA (Nat.le_refl _) passes.ended passes.settled ends run
  rw [sites]
  exact ⟨past'', passes.arrives arrives, Nat.lt_of_lt_of_le grows arrives.passage.length_le⟩

theorem Tags.afterOver : Tags false (afterOver A S) Expr.sites := by
  intro past ts e rest ended ready _
  refine of_bind fun e' mid first => of_peek ?_
  obtain ⟨past', arrives, grows⟩ := hA.accessOver hS _ _ _ _ ended ready nofun first
  have done : (pure e' : Parser Expr) mid = .ok (e, rest) →
      ∃ past', Arrives past ts e.sites past' rest ∧ past.length < past'.length := by
    refine of_pure fun same same' => ?_
    subst same same'
    exact ⟨past', arrives, grows⟩
  cases update : (front mid).mark?.bind updateOp? with
  | none => exact done
  | some op =>
    dsimp only
    split
    · exact done
    · cases target : e'.target? with
      | none => exact of_failAt
      | some place =>
        obtain ⟨m, mark, found⟩ := mark_of_bind update
        refine of_next arrives.ended (by rw [kind_of_isMark mark]; exact nofun)
          fun t more given later => of_pure fun same same' => ?_
        subst given same same'
        have sites : (Expr.update op false place).sites = e'.sites := Expr.sites_target target
        have last := Arrives.mark mark (updateOp_plain found) arrives.ready.settled
          (.here later (.of_mark mark (by rintro rfl; cases found)))
        have whole := arrives.trans last
        rw [List.append_nil, ← sites] at whole
        exact ⟨_, whole, Nat.lt_succ_of_lt grows⟩

theorem unaryFrom_tags (n : Nat) : Tags false (unaryFrom A S n) Expr.sites := by
  induction n with
  | zero => exact hA.afterOver hS
  | succ n ih =>
    intro past ts e rest ended ready _
    refine of_peek ?_
    cases unary : unaryOp? (front ts) with
    | some op =>
      have goes : (front ts).kind ≠ .finish := by
        rcases unaryOp_inv unary with ⟨m, mark, _⟩ | word
        · rw [kind_of_isMark mark]
          exact nofun
        · rw [word]
          exact nofun
      refine of_next ended goes fun t mid given later => of_bind fun e' mid' run =>
        of_pure fun same same' => ?_
      subst given same same'
      rcases unaryOp_inv unary with ⟨m, mark, plain⟩ | word
      · have dot : m ≠ .dot := by
          rintro rfl
          exact plain (by decide)
        obtain ⟨past', arrives, _⟩ := ih _ _ _ _ later (.of_mark mark dot) nofun run
        exact ⟨past', .mark mark plain ready.settled arrives,
          Nat.lt_of_lt_of_le (Nat.lt_succ_self _) arrives.passage.length_le⟩
      · obtain ⟨past', arrives, _⟩ :=
          ih _ _ _ _ later (.of_keyword word (by decide)) nofun run
        exact ⟨past', .keyword word (by decide) ready.settled arrives,
          Nat.lt_of_lt_of_le (Nat.lt_succ_self _) arrives.passage.length_le⟩
    | none =>
      cases update : (front ts).mark?.bind updateOp? with
      | none => exact hA.afterOver hS _ _ _ _ ended ready nofun
      | some op =>
        obtain ⟨m, mark, found⟩ := mark_of_bind update
        refine of_next ended (by rw [kind_of_isMark mark]; exact nofun) fun t mid given later =>
          of_bind fun e' mid' run => ?_
        subst given
        cases target : e'.target? with
        | none => exact of_failAt
        | some place =>
          refine of_pure fun same same' => ?_
          subst same same'
          have sites : (Expr.update op true place).sites = e'.sites := Expr.sites_target target
          obtain ⟨past', arrives, _⟩ := ih _ _ _ _ later
            (.of_mark mark (by rintro rfl; cases found)) nofun run
          rw [sites]
          exact ⟨past', .mark mark (updateOp_plain found) ready.settled arrives,
            Nat.lt_of_lt_of_le (Nat.lt_succ_self _) arrives.passage.length_le⟩

theorem Tags.operatorsOver : Tags false (operatorsOver A S) Expr.sites := by
  have unary : Tags false (unaryOver A S) Expr.sites := by
    intro past ts e rest ended ready commas
    refine of_bind fun n us count => ?_
    cases count
    exact unaryFrom_tags hA hS _ _ _ _ _ ended ready commas
  exact (((((unary.chain product_operators).chain sum_operators).chain relation_operators).chain
    equality_operators).chain conjunction_operators).chain disjunction_operators

theorem Tags.conditionalOver : Tags false (conditionalOver A S) Expr.sites := by
  intro past ts e rest ended ready _
  refine of_bind fun test mid first => ?_
  obtain ⟨past', arrives, grows⟩ := hA.operatorsOver hS _ _ _ _ ended ready nofun first
  refine of_eat arrives.ended (fun question us given mark later => ?_) fun _ => ?_
  · refine of_bind fun yes us' second => ?_
    subst given
    obtain ⟨past₁, chosen, _⟩ := hA _ _ _ _ later (.of_mark mark nofun) nofun second
    refine of_expect chosen.ended fun colon vs given mark' later' => of_bind fun no vs' third =>
      of_pure fun same same' => ?_
    subst given same same'
    obtain ⟨past₂, other, _⟩ := hA _ _ _ _ later' (.of_mark mark' nofun) nofun third
    have more := Arrives.mark mark (by decide) arrives.ready.settled
      (chosen.trans (.mark mark' (by decide) chosen.ready.settled other))
    exact ⟨past₂, arrives.trans more, Nat.lt_of_lt_of_le grows more.passage.length_le⟩
  · refine of_pure fun same same' => ?_
    subst same same'
    exact ⟨past', arrives, grows⟩

theorem Tags.assignmentOver : Tags false (assignmentOver A S) Expr.sites := by
  intro past ts e rest ended ready _
  refine of_bind fun all mid look => ?_
  cases look
  split
  · next ahead =>
    refine of_bind fun f mid run => of_pure fun same same' => ?_
    subst same same'
    exact arrowOver_arrives hA hS ended ready ahead run
  · refine of_bind fun left mid first => of_peek ?_
    obtain ⟨past', arrives, grows⟩ := hA.conditionalOver hS _ _ _ _ ended ready nofun first
    cases assign : (front mid).mark?.bind assignOp? with
    | none =>
      refine of_pure fun same same' => ?_
      subst same same'
      exact ⟨past', arrives, grows⟩
    | some op =>
      obtain ⟨m, mark, found⟩ := mark_of_bind assign
      refine of_next arrives.ended (by rw [kind_of_isMark mark]; exact nofun)
        fun t us given later => ?_
      subst given
      cases target : left.target? with
      | none => exact of_failAt
      | some place =>
        refine of_bind fun value us' second => of_pure fun same same' => ?_
        subst same same'
        obtain ⟨past'', right, _⟩ := hA _ _ _ _ later
          (.of_mark mark (by rintro rfl; cases found)) nofun second
        have sites : (Expr.assign op place value).sites = left.sites ++ value.sites := by
          rw [Expr.sites, Expr.sites_target target]
        have more := Arrives.mark mark (assignOp_plain found) arrives.ready.settled right
        rw [sites]
        exact ⟨past'', arrives.trans more, Nat.lt_of_lt_of_le grows more.passage.length_le⟩

end Nested

end Grammar

end EmitterLogic.Script
