import EmitterLogic.Proofs.Script.Passing

namespace EmitterLogic.Script

open Script.Parser

section Operators

theorem updateOp_plain {m : Mark} {op : UpdateOp} (h : updateOp? m = some op) :
    m ∉ structuralMarks := by
  cases m <;> cases h <;> decide

theorem assignOp_plain {m : Mark} {op : AssignOp} (h : assignOp? m = some op) :
    m ∉ structuralMarks := by
  cases m <;> cases h <;> decide

theorem declKind_known {w : String} {kind : DeclKind} (h : declKind? w = some kind) :
    w ∈ statementWords := by
  simp only [declKind?, beq_iff_eq] at h
  repeat' split at h
  all_goals cases h
  all_goals
    next same =>
    subst same
    decide

theorem declKind_keyword {t : Token} {w : String} {kind : DeclKind} (word : t.kind = .word w)
    (h : declKind? w = some kind) :
    ((⟨t, .keyword⟩ : Tagged).isKeyword "let" || (⟨t, .keyword⟩ : Tagged).isKeyword "const" ||
      (⟨t, .keyword⟩ : Tagged).isKeyword "var") = true := by
  simp only [Tagged.isKeyword, Token.isWord, word, Bool.or_eq_true]
  simp only [declKind?] at h
  repeat' split at h
  all_goals cases h
  · next same => exact .inl (.inl same)
  · next same => exact .inl (.inr same)
  · next same => exact .inr same

theorem unaryOp_inv {t : Token} {op : UnaryOp} (h : unaryOp? t = some op) :
    (∃ m, t.isMark m = true ∧ m ∉ structuralMarks) ∨ t.kind = .word "typeof" := by
  rw [unaryOp?] at h
  split at h
  · next kind => exact .inl ⟨.not, by rw [Token.isMark, kind]; rfl, by decide⟩
  · next kind => exact .inl ⟨.minus, by rw [Token.isMark, kind]; rfl, by decide⟩
  · next kind => exact .inl ⟨.plus, by rw [Token.isMark, kind]; rfl, by decide⟩
  · next kind => exact .inr kind
  · cases h

theorem sequence_operators :
    Operators true (fun m => if m == .comma then some (.binary .sequence) else none) :=
  .of_marks (fun {m make} h => by cases m <;> cases h; exact fun _ _ => rfl)
    (fun {m make} h => by cases m <;> cases h; decide)

theorem product_operators : Operators false productOp? :=
  .of_marks (fun {m make} h => by cases m <;> cases h <;> exact fun _ _ => rfl)
    (fun {m make} h => by cases m <;> cases h <;> decide)

theorem sum_operators : Operators false sumOp? :=
  .of_marks (fun {m make} h => by cases m <;> cases h <;> exact fun _ _ => rfl)
    (fun {m make} h => by cases m <;> cases h <;> decide)

theorem relation_operators : Operators false relationOp? :=
  .of_marks (fun {m make} h => by cases m <;> cases h <;> exact fun _ _ => rfl)
    (fun {m make} h => by cases m <;> cases h <;> decide)

theorem equality_operators : Operators false equalityOp? :=
  .of_marks (fun {m make} h => by cases m <;> cases h <;> exact fun _ _ => rfl)
    (fun {m make} h => by cases m <;> cases h <;> decide)

theorem conjunction_operators : Operators false conjunctionOp? :=
  .of_marks (fun {m make} h => by cases m <;> cases h; exact fun _ _ => rfl)
    (fun {m make} h => by cases m <;> cases h; decide)

theorem disjunction_operators : Operators false disjunctionOp? :=
  .of_marks (fun {m make} h => by cases m <;> cases h; exact fun _ _ => rfl)
    (fun {m make} h => by cases m <;> cases h; decide)

end Operators

section Lists

variable {α : Type} {item : Parser α} {sites : α → List Site}

theorem Tags.weaken {p : Parser α} (h : Tags false p sites) : Tags true p sites :=
  fun past ts a rest ended ready _ => h past ts a rest ended ready nofun

theorem exprsSites_eq (es : List Expr) : exprsSites es = es.flatMap Expr.sites := by
  induction es with
  | nil => rfl
  | cons e es ih => rw [exprsSites, ih, List.flatMap_cons]

theorem entriesSites_eq (es : List Entry) : entriesSites es = es.flatMap Entry.sites := by
  induction es with
  | nil => rfl
  | cons e es ih => rw [entriesSites, ih, List.flatMap_cons]

theorem laterSites_eq (ds : List Declarator) :
    declaratorsSites .later ds = ds.flatMap (Declarator.sites .later) := by
  induction ds with
  | nil => rfl
  | cons d ds ih => rw [declaratorsSites, ih, List.flatMap_cons]

variable {past : List Tagged} {ts rest : List Token} {as : List α}

theorem suits_comma {t : Token} {after : List Token} (mark : t.isMark .comma = true)
    (settled : Settled past) (unlisted : Unlisted past) : Suits past t after .other :=
  suits_mark mark settled nofun (fun _ => unlisted) nofun

theorem commaList_arrives (one : Tags false item sites) {n : Nat} (ended : Ended ts)
    (ready : Ready past ts) (unlisted : Unlisted past) :
    commaList item n ts = .ok (as, rest) →
      ∃ past', Arrives past ts (as.flatMap sites) past' rest ∧ past.length < past'.length := by
  induction n generalizing past ts as with
  | zero => exact of_refuseFront
  | succ n ih =>
    refine of_bind fun a mid first => ?_
    obtain ⟨past', arrives, grows⟩ := one _ _ _ _ ended ready nofun first
    refine of_eat arrives.ended (fun t more given mark later => ?_) (fun _ => ?_)
    · refine of_bind fun as' mid' others => of_pure fun same same' => ?_
      subst given same same'
      have unlisted' := arrives.keeps.unlisted unlisted
      have step : bracketStep t = 0 := bracketStep_mark mark (by decide)
      obtain ⟨past'', others, _⟩ := ih later (.of_mark mark nofun)
        ((Keeps.push step).unlisted unlisted') others
      have comma := Arrives.cons (suits_comma mark arrives.ready.settled unlisted') step others
      exact ⟨past'', arrives.trans comma,
        Nat.lt_of_lt_of_le grows comma.passage.length_le⟩
    · refine of_pure fun same same' => ?_
      subst same same'
      refine ⟨past', ?_, grows⟩
      rw [List.flatMap_singleton]
      exact arrives

theorem closedList_arrives {close : Mark}
    (one : ∀ {past ts a rest}, Ended ts → Ready past ts → Unlisted past → item ts = .ok (a, rest) →
      Ended rest ∧ ((front rest).isMark .comma = true ∨ (front rest).isMark close = true →
        ∃ past', Arrives past ts (sites a) past' rest))
    {n : Nat} (ended : Ended ts) (ready : Ready past ts) (unlisted : Unlisted past) :
    closedList item close n ts = .ok (as, rest) →
      ∃ past' c, Arrives past ts (as.flatMap sites) past' (c :: rest) ∧ c.isMark close = true ∧
        Ended rest := by
  -- On the fuel: an item, then the closing mark or a comma and the rest of the list.
  induction n generalizing past ts as with
  | zero => exact of_refuseFront
  | succ n ih =>
    refine of_eat ended (fun c more given mark later => ?_) (fun _ => ?_)
    · refine of_pure fun same same' => ?_
      subst given same same'
      exact ⟨past, c, .here ended ready, mark, later⟩
    · refine of_bind fun a mid first => ?_
      obtain ⟨midEnded, reads⟩ := one ended ready unlisted first
      refine of_eat midEnded (fun t more given mark later => ?_) (fun _ => ?_)
      · refine of_bind fun as' mid' others => of_pure fun same same' => ?_
        subst given same same'
        obtain ⟨past', arrives⟩ := reads (.inl mark)
        have unlisted' := arrives.keeps.unlisted unlisted
        have step : bracketStep t = 0 := bracketStep_mark mark (by decide)
        obtain ⟨past'', c, others, last⟩ := ih later (.of_mark mark nofun)
          ((Keeps.push step).unlisted unlisted') others
        have comma := Arrives.cons (suits_comma mark arrives.ready.settled unlisted') step others
        exact ⟨past'', c, arrives.trans comma, last⟩
      · refine of_expect midEnded fun c more given mark later => of_pure fun same same' => ?_
        subst given same same'
        obtain ⟨past', arrives⟩ := reads (.inr mark)
        refine ⟨past', c, ?_, mark, later⟩
        rw [List.flatMap_singleton]
        exact arrives

end Lists

section Grammar

variable {A : Parser Expr} {S : Parser Stmt} {past : List Tagged} {ts rest : List Token}

section Expressions

variable (hA : Tags false A Expr.sites)
include hA

theorem Tags.expressionOver : Tags true (expressionOver A) Expr.sites :=
  hA.weaken.chain sequence_operators

theorem closedExprs_arrives {n : Nat} {es : List Expr} {close : Mark} (ended : Ended ts)
    (ready : Ready past ts) (unlisted : Unlisted past) :
    closedList A close n ts = .ok (es, rest) →
      ∃ past' c, Arrives past ts (exprsSites es) past' (c :: rest) ∧ c.isMark close = true ∧
        Ended rest := by
  rw [exprsSites_eq]
  refine closedList_arrives (fun ended ready _ run => ?_) ended ready unlisted
  obtain ⟨past', arrives, _⟩ := hA _ _ _ _ ended ready nofun run
  exact ⟨arrives.ended, fun _ => ⟨past', arrives⟩⟩

theorem paramOver_arrives {p : Param} (ended : Ended ts) (listed : ∃ arrow, InList arrow past)
    (before : ∃ d ∈ past.head?, d.isList = true ∨ d.role = .separator) :
    paramOver A ts = .ok (p, rest) → Ended rest ∧
      ((front rest).isMark .comma = true ∨ (front rest).isMark .rightParen = true →
        ∃ past', Arrives past ts p.sites past' rest) := by
  refine of_freeWord ended fun w t mid given word later => ?_
  subst given
  have kind := (kind_of_freeWord word).1
  have suits (follows : (front mid).isMark .comma = true ∨ (front mid).isMark .rightParen = true ∨
      (front mid).isMark .assign = true) : Suits past t mid (.binder .parameter) :=
    ⟨⟨w, word⟩, .inr ⟨listed, before, follows⟩⟩
  have sites : roleSites t (.binder .parameter) = binderSite .parameter w := by
    rw [roleSites, kind]
  have settled : Settled (⟨t, .binder .parameter⟩ :: past) := .of_head rfl
  have loose : (⟨t, .binder .parameter⟩ : Tagged).isOperand = false := by
    rw [Tagged.isOperand, kind]
  have step := bracketStep_word kind
  refine of_eat later (fun u more given mark later' => ?_) (fun _ => ?_)
  · refine of_bind fun e mid' run => of_pure fun same same' => ?_
    subst given same same'
    obtain ⟨past', arrives, _⟩ := hA _ _ _ _ later' (.of_mark mark (by rintro ⟨⟩)) (by rintro ⟨⟩) run
    have assign : bracketStep u = 0 := bracketStep_mark mark (by decide)
    have whole := Arrives.cons (suits (.inr (.inr mark))) step
      (.cons (suits_mark mark settled (by rintro ⟨⟩) (by rintro ⟨⟩) (by rintro ⟨⟩)) assign arrives)
    rw [sites] at whole
    exact ⟨arrives.ended, fun _ => ⟨past', whole⟩⟩
  · refine of_pure fun same same' => ?_
    subst same same'
    refine ⟨later, fun follows => ?_⟩
    have whole := Arrives.cons (suits (follows.imp_right .inl)) step
      (.here later ⟨settled, fun _ => .of_head loose⟩)
    rw [sites] at whole
    exact ⟨_, whole⟩

theorem params_arrives {n : Nat} {ps : List Param} (ended : Ended ts)
    (listed : ∃ arrow, InList arrow past)
    (before : ∃ d ∈ past.head?, d.isList = true ∨ d.role = .separator) :
    commaList (paramOver A) n ts = .ok (ps, rest) → Ended rest ∧
      ((front rest).isMark .rightParen = true →
        ∃ past', Arrives past ts (paramsSites ps) past' rest) := by
  induction n generalizing past ts ps with
  | zero => exact of_refuseFront
  | succ n ih =>
    refine of_bind fun p mid first => ?_
    obtain ⟨midEnded, reads⟩ := paramOver_arrives hA ended listed before first
    refine of_eat midEnded (fun t more given mark later => ?_) (fun _ => ?_)
    · refine of_bind fun ps' mid' others => of_pure fun same same' => ?_
      subst given same same'
      obtain ⟨past', arrives⟩ := reads (.inl mark)
      have step : bracketStep t = 0 := bracketStep_mark mark (by decide)
      have listed' : ∃ arrow, InList arrow (⟨t, .separator⟩ :: past') := by
        obtain ⟨arrow, inList⟩ := listed
        exact ⟨arrow, (Keeps.push step).inList (arrives.keeps.inList inList)⟩
      obtain ⟨restEnded, reads'⟩ := ih later listed' ⟨_, rfl, .inr rfl⟩ others
      refine ⟨restEnded, fun closes => ?_⟩
      obtain ⟨past'', others⟩ := reads' closes
      have suits : Suits past' t more .separator := ⟨mark, arrives.ready.settled⟩
      exact ⟨past'', arrives.trans (.cons suits step others)⟩
    · refine of_pure fun same same' => ?_
      subst same same'
      refine ⟨midEnded, fun closes => ?_⟩
      obtain ⟨past', arrives⟩ := reads (.inr closes)
      refine ⟨past', ?_⟩
      rw [paramsSites, paramsSites, List.append_nil]
      exact arrives

theorem paramsOver_arrives {arrow : Bool} {ps : List Param} (ended : Ended ts)
    (suits : ∀ t more, ts = t :: more → t.isMark .leftParen = true →
      Suits past t more (.list arrow)) :
    paramsOver A ts = .ok (ps, rest) →
      ∃ past' c, Arrives past ts (paramsSites ps) (⟨c, .other⟩ :: past') rest ∧
        c.isMark .rightParen = true ∧ InList arrow past' ∧ past.length ≤ past'.length := by
  refine of_expect ended fun t mid given opening later => ?_
  subst given
  have suits := suits t mid rfl opening
  have opened : InList arrow (⟨t, .list arrow⟩ :: past) := .opened rfl
  refine of_eat later (fun c more given closing later' => ?_) (fun _ => ?_)
  · refine of_pure fun same same' => ?_
    subst given same same'
    have last : Suits (⟨t, .list arrow⟩ :: past) c rest .other :=
      suits_other closing (.inr (.inl ⟨rfl, _, rfl, rfl⟩)) nofun nofun nofun
    exact ⟨_, c, ⟨.step suits (.one last), later', .group .parens opening closing .refl
      (List.suffix_refl _), .of_mark closing nofun⟩, closing, opened, Nat.le_succ _⟩
  · refine of_bind fun params mid' run => of_bind (fun n us count run' => ?_) run
    cases count
    obtain ⟨restEnded, reads⟩ := params_arrives hA later ⟨arrow, opened⟩ ⟨_, rfl, .inl rfl⟩ run'
    refine of_expect restEnded fun c more given closing later' => of_pure fun same same' => ?_
    subst given same same'
    obtain ⟨past', arrives⟩ := reads closing
    exact ⟨past', c, .enclosed .parens opening closing suits later' arrives, closing,
      arrives.keeps.inList opened, Nat.le_of_succ_le arrives.passage.length_le⟩

theorem entryOf_arrives {entry : Entry} {t : Token} {mid : List Token} {key : String}
    {kind : TokenKind} (found : t.kind = kind) (ready : Ready past (t :: mid)) (later : Ended mid)
    (plain : ∀ m, kind ≠ .mark m) :
    (do
      if ← eat .colon then return Entry.mk key (← A)
      match kind with
      | .word w => return .mk key (.name w t.position)
      | _ => refuseFront : Parser Entry) mid = .ok (entry, rest) → Ended rest ∧
    ((front rest).isMark .comma = true ∨ (front rest).isMark .rightBrace = true →
      ∃ past', Arrives past (t :: mid) entry.sites past' rest) := by
  have step : bracketStep t = 0 := by
    rw [bracketStep, found]
    cases kind with
    | mark m => exact absurd rfl (plain m)
    | _ => rfl
  refine of_eat later (fun u more given mark later' => ?_) (fun _ => ?_)
  · refine of_bind fun e mid' run => of_pure fun same same' => ?_
    subst given same same'
    obtain ⟨past', arrives, _⟩ := hA _ _ _ _ later' (.of_mark mark (by rintro ⟨⟩)) (by rintro ⟨⟩) run
    have colon : bracketStep u = 0 := bracketStep_mark mark (by decide)
    have suits : Suits past t (u :: more) .key := ⟨ready.settled, found ▸ plain, mark⟩
    have settled : Settled (⟨t, .key⟩ :: past) := .of_head rfl
    have whole := Arrives.cons suits step
      (.cons (suits_mark mark settled (by rintro ⟨⟩) (by rintro ⟨⟩) (by rintro ⟨⟩)) colon arrives)
    exact ⟨arrives.ended, fun _ => ⟨past', whole⟩⟩
  · cases kind with
    | word w =>
      refine of_pure fun same same' => ?_
      subst same same'
      refine ⟨later, fun follows => ?_⟩
      have suits : Suits past t rest .value := ⟨ready.settled, w, found, fun _ => follows⟩
      have unlike : ¬(front rest).isMark .leftParen = true := by
        rcases follows with mark | mark
        · rw [Token.isMark, kind_of_isMark mark]
          rintro ⟨⟩
        · rw [Token.isMark, kind_of_isMark mark]
          rintro ⟨⟩
      have sites : roleSites t .value = [.name w t.position] := by rw [roleSites, found]
      have whole := Arrives.cons suits step
        (.here later ⟨.of_head rfl, fun paren => absurd paren unlike⟩)
      rw [sites] at whole
      exact ⟨_, whole⟩
    | _ => exact of_refuseFront

theorem entryOver_arrives {entry : Entry} (ended : Ended ts) (ready : Ready past ts) :
    entryOver A ts = .ok (entry, rest) → Ended rest ∧
      ((front rest).isMark .comma = true ∨ (front rest).isMark .rightBrace = true →
        ∃ past', Arrives past ts entry.sites past' rest) := by
  by_cases goes : (front ts).kind = .finish
  · refine of_bind fun t mid take => ?_
    cases take
    rw [goes]
    exact of_bind fun _ _ => of_refuse
  · refine of_next ended goes fun t mid given later => ?_
    subst given
    cases kind : t.kind with
    | word w => exact entryOf_arrives hA kind ready later nofun
    | text s => exact entryOf_arrives hA kind ready later nofun
    | number x => exact entryOf_arrives hA kind ready later nofun
    | mark m => exact of_bind fun _ _ => of_refuse
    | finish => exact of_bind fun _ _ => of_refuse

theorem closedEntries_arrives {n : Nat} {es : List Entry} (ended : Ended ts) (ready : Ready past ts)
    (unlisted : Unlisted past) :
    closedList (entryOver A) .rightBrace n ts = .ok (es, rest) →
      ∃ past' c, Arrives past ts (entriesSites es) past' (c :: rest) ∧
        c.isMark .rightBrace = true ∧ Ended rest := by
  rw [entriesSites_eq]
  exact closedList_arrives (fun ended ready _ => entryOver_arrives hA ended ready) ended ready unlisted

theorem of_enclosed {β : Type} {C : Prop} {m n : Mark} {o : Token} {mid : List Token}
    {f : Expr → Parser β} {r : β × List Token} (pair : Pair m n) (opening : o.isMark m = true)
    (suits : Suits past o mid .other) (later : Ended mid)
    (h : ∀ e past' c more, Arrives past (o :: mid) e.sites (⟨c, .other⟩ :: past') more →
      c.isMark n = true → Ended more → past.length < past'.length → f e more = .ok r → C) :
    (expressionOver A >>= fun e => expect n >>= fun _ => f e) mid = .ok r → C := by
  refine of_bind fun e mid' inside => ?_
  have dot : m ≠ .dot := by
    rintro rfl
    cases pair
  obtain ⟨past', inner, grows⟩ := hA.expressionOver _ _ _ _ later (.of_mark opening dot)
    (fun _ => .opened pair opening rfl) inside
  refine of_expect inner.ended fun c more given closing later' => ?_
  subst given
  exact h e past' c more (.enclosed pair opening closing suits later' inner) closing later'
    (Nat.lt_of_succ_lt grows)

theorem of_args {β : Type} {C : Prop} {o : Token} {mid : List Token} {e : Expr}
    {f : List Expr → Parser β} {r : β × List Token} (suits : Suits past o mid (.call e))
    (later : Ended mid)
    (h : ∀ args past' c more,
      Arrives past (o :: mid) (.call e :: exprsSites args) (⟨c, .other⟩ :: past') more →
        c.isMark .rightParen = true → Ended more → past.length < past'.length →
          f args more = .ok r → C) :
    (commaSeparated A >>= fun args => expect .rightParen >>= fun _ => f args) mid = .ok r → C := by
  have opening : o.isMark .leftParen = true := suits.1
  refine of_bind fun args mid' inside => ?_
  have inside : commaList A mid.length mid = .ok (args, mid') := inside
  have ready : Ready (⟨o, .call e⟩ :: past) mid := .of_head rfl (isOperand_mark opening)
  obtain ⟨past', inner, grows⟩ :=
    commaList_arrives hA later ready (.opened .parens opening rfl) inside
  rw [← exprsSites_eq] at inner
  refine of_expect inner.ended fun c more given closing later' => ?_
  subst given
  exact h args past' c more (.enclosed .parens opening closing suits later' inner) closing later'
    (Nat.lt_of_succ_lt grows)

theorem accessFrom_arrives {n : Nat} {e e' : Expr} (enough : ts.length ≤ n) (ended : Ended ts)
    (settled : Settled past) (ends : EndsAs past e) :
    accessFrom A e n ts = .ok (e', rest) →
      ∃ s past', Arrives past ts s past' rest ∧ e'.sites = e.sites ++ s := by
  induction n generalizing past ts e with
  | zero => exact absurd (List.length_eq_zero_iff.mp (Nat.le_zero.mp enough)) ended.ne_nil
  | succ n ih =>
    -- What follows the access that has been passed up to `us`.
    have onward {e₁ : Expr} {s : List Site} {past₁ : List Tagged} {us : List Token}
        (passed : Passes past ts s past₁ us) (ends₁ : EndsAs past₁ e₁)
        (grown : past.length < past₁.length) (sites : e₁.sites = e.sites ++ s) :
        accessFrom A e₁ n us = .ok (e', rest) →
          ∃ s past', Arrives past ts s past' rest ∧ e'.sites = e.sites ++ s := by
      intro run
      have used := passed.passage.length
      obtain ⟨s', past', arrives, sites'⟩ :=
        ih (by omega) passed.ended passed.settled ends₁ run
      exact ⟨_, past', passed.arrives arrives, by rw [sites', sites, List.append_assoc]⟩
    refine of_eat ended (fun dot mid given mark later => ?_) fun noDot => ?_
    · subst given
      refine of_peek ?_
      cases kind : (front mid).kind with
      | word w =>
        refine of_next later (by rw [kind]; exact nofun) fun t more given later' => ?_
        subst given
        obtain ⟨tokenKind, position, broken⟩ := t
        have kind : tokenKind = .word w := kind
        subst kind
        have ends' : EndsAs (⟨⟨.word w, position, broken⟩, .property⟩ :: ⟨dot, .other⟩ :: past)
            (.member e w) := ⟨e, rfl, ends⟩
        have first : Suits past dot (⟨.word w, position, broken⟩ :: more) .other :=
          suits_mark mark settled nofun nofun nofun
        have second : Suits (⟨dot, .other⟩ :: past) ⟨.word w, position, broken⟩ more .property :=
          ⟨⟨w, rfl⟩, _, rfl, mark⟩
        have step : bracketStep dot = 0 := bracketStep_mark mark (by decide)
        have keeps : Keeps past (⟨⟨.word w, position, broken⟩, .property⟩ :: ⟨dot, .other⟩ :: past) :=
          (Keeps.push step).trans (.push rfl)
        exact onward ⟨.step first (.one second), later', keeps, .of_head rfl⟩ ends'
          (by simp only [List.length_cons]; omega) (List.append_nil _).symm
      | _ => exact of_refuseFront
    refine of_eat ended (fun o mid given mark later => ?_) fun noParen => ?_
    · subst given
      have suits : Suits past o mid (.call e) := ⟨mark, settled, ends⟩
      refine of_eat later (fun c more given closing later' => ?_) fun _ => ?_
      · subst given
        have call := Arrives.enclosed .parens mark closing suits later'
          (.here later (.of_head rfl (isOperand_mark mark)))
        exact onward call.passes (.of_mark closing fun _ => rfl) (by simp only [List.length_cons]; omega) rfl
      · refine of_args hA suits later fun args past' c more call closing later' grown => ?_
        exact onward call.passes (.of_mark closing fun _ => rfl) (Nat.lt_succ_of_lt grown) rfl
    refine of_eat ended (fun o mid given mark later => ?_) fun _ => ?_
    · subst given
      have suits : Suits past o mid .other := suits_mark mark settled nofun nofun nofun
      refine of_enclosed hA .brackets mark suits later
        fun property past' c more index closing later' grown => ?_
      exact onward index.passes (.of_mark closing nofun) (Nat.lt_succ_of_lt grown) rfl
    · refine of_pure fun same same' => ?_
      subst same same'
      refine ⟨[], past, .here ended ⟨settled, fun paren => ?_⟩, (List.append_nil _).symm⟩
      rw [noParen] at paren
      cases paren

end Expressions

end Grammar

end EmitterLogic.Script
