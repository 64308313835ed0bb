import EmitterLogic.Proofs.Fault
import EmitterLogic.Proofs.Script.Parsing
import EmitterLogic.Proofs.Script.Roles

namespace EmitterLogic.Script

open Script.Parser

section Steps

variable {α β : Type} {ts rest : List Token} {t : Token} {C : Prop}

theorem of_bind {p : Parser α} {f : α → Parser β} {r : β × List Token}
    (h : ∀ a mid, p ts = .ok (a, mid) → f a mid = .ok r → C) : (p >>= f) ts = .ok r → C := by
  intro run
  have unfolded : (p >>= f) ts = (p ts >>= fun r => f r.1 r.2) := rfl
  rw [unfolded] at run
  obtain ⟨⟨a, mid⟩, first, second⟩ := bind_ok run
  exact h a mid first second

theorem of_pure {a b : α} (h : b = a → rest = ts → C) : (pure a : Parser α) ts = .ok (b, rest) → C := by
  intro run
  have unfolded : (pure a : Parser α) ts = .ok (a, ts) := rfl
  rw [unfolded] at run
  cases run
  exact h rfl rfl

theorem of_peek {f : Token → Parser β} {r : β × List Token}
    (h : f (front ts) ts = .ok r → C) : (peek >>= f) ts = .ok r → C := h

/-- The last token marks the end. -/
def Ended (ts : List Token) : Prop := ∃ t ∈ ts.getLast?, t.isFinish = true

theorem Ended.exists_cons (h : Ended ts) : ∃ t rest, ts = t :: rest := by
  cases ts with
  | nil =>
    obtain ⟨t, last, _⟩ := h
    cases last
  | cons t rest => exact ⟨t, rest, rfl⟩

theorem Ended.ne_nil (h : Ended ts) : ts ≠ [] := by
  obtain ⟨t, rest, rfl⟩ := h.exists_cons
  exact List.cons_ne_nil t rest

theorem Ended.tail (h : Ended (t :: rest)) (goes : t.isFinish = false) : Ended rest := by
  obtain ⟨u, last, finish⟩ := h
  cases rest with
  | nil =>
    obtain rfl : t = u := Option.some.inj last
    rw [goes] at finish
    cases finish
  | cons v rest => exact ⟨u, by rwa [List.getLast?_cons_cons] at last, finish⟩

theorem not_finish_of_kind (h : t.kind ≠ .finish) : t.isFinish = false := by
  obtain ⟨kind, position, broken⟩ := t
  cases kind with
  | finish => exact absurd rfl h
  | _ => rfl

theorem kind_of_isWord {w : String} (h : t.isWord w = true) : t.kind = .word w := by
  obtain ⟨kind, position, broken⟩ := t
  cases kind with
  | word v => exact congrArg TokenKind.word (beq_iff_eq.mp h)
  | _ => cases h

theorem kind_of_isMark {m : Mark} (h : t.isMark m = true) : t.kind = .mark m := by
  obtain ⟨kind, position, broken⟩ := t
  cases kind with
  | mark n => exact congrArg TokenKind.mark (beq_iff_eq.mp h)
  | _ => cases h

theorem isMark_of_kind {m : Mark} (h : t.kind = .mark m) : t.isMark m = true := by
  rw [Token.isMark, h]
  exact beq_self_eq_true m

theorem kind_of_isFinish (h : t.isFinish = true) : t.kind = .finish := by
  rw [Token.isFinish] at h
  split at h
  · assumption
  · cases h

theorem kind_of_freeWord {w : String} (h : t.freeWord? = some w) :
    t.kind = .word w ∧ isReserved w = false := by
  obtain ⟨kind, position, broken⟩ := t
  cases kind with
  | word v =>
    have unfolded : (if isReserved v = true then none else some v) = some w := h
    split at unfolded
    · cases unfolded
    · next free =>
      cases unfolded
      exact ⟨rfl, Bool.not_eq_true _ ▸ free⟩
  | _ => cases h

theorem of_next {f : Token → Parser β} {r : β × List Token} (ended : Ended ts)
    (goes : (front ts).kind ≠ .finish)
    (h : ∀ t mid, ts = t :: mid → Ended mid → f t mid = .ok r → C) : (next >>= f) ts = .ok r → C := by
  obtain ⟨t, mid, rfl⟩ := ended.exists_cons
  have later : Ended mid := ended.tail (not_finish_of_kind goes)
  obtain ⟨u, more, rfl⟩ := later.exists_cons
  exact h t (u :: more) rfl later

theorem of_refuse {a : α} : (refuse t : Parser α) ts = .ok (a, rest) → C := by
  intro run
  rw [refuse] at run
  cases kind : t.kind <;> simp only [kind] at run <;> cases run

theorem of_refuseFront {a : α} : (refuseFront : Parser α) ts = .ok (a, rest) → C :=
  of_peek of_refuse

theorem of_failAt {cause : SyntaxCause} {a : α} :
    (failAt cause t : Parser α) ts = .ok (a, rest) → C := nofun

theorem of_eat {m : Mark} {p q : Parser β} {r : β × List Token} (ended : Ended ts)
    (yes : ∀ t mid, ts = t :: mid → t.isMark m = true → Ended mid → p mid = .ok r → C)
    (no : (front ts).isMark m = false → q ts = .ok r → C) :
    (eat m >>= fun b => if b = true then p else q) ts = .ok r → C := by
  obtain ⟨t, mid, rfl⟩ := ended.exists_cons
  intro run
  cases mark : t.isMark m with
  | true =>
    have later : Ended mid := ended.tail (not_finish_of_kind (by rw [kind_of_isMark mark]; exact nofun))
    rw [bind_read (eat_cons mark later.ne_nil)] at run
    exact yes t mid rfl mark later run
  | false =>
    rw [bind_read (eat_other mark)] at run
    exact no mark run

theorem of_expect {m : Mark} {f : Unit → Parser β} {r : β × List Token} (ended : Ended ts)
    (h : ∀ t mid, ts = t :: mid → t.isMark m = true → Ended mid → f () mid = .ok r → C) :
    (expect m >>= f) ts = .ok r → C := by
  obtain ⟨t, mid, rfl⟩ := ended.exists_cons
  cases mark : t.isMark m with
  | true =>
    intro run
    have later : Ended mid := ended.tail (not_finish_of_kind (by rw [kind_of_isMark mark]; exact nofun))
    rw [bind_read (expect_cons mark later.ne_nil)] at run
    exact h t mid rfl mark later run
  | false =>
    have refused : expect m (t :: mid) = refuseFront (t :: mid) := bind_read (eat_other mark) _
    refine of_bind fun u mid' run => ?_
    rw [refused] at run
    exact of_refuseFront run

theorem of_eatWord {w : String} {p q : Parser β} {r : β × List Token} (ended : Ended ts)
    (yes : ∀ t mid, ts = t :: mid → t.kind = .word w → Ended mid → p mid = .ok r → C)
    (no : q ts = .ok r → C) :
    (eatWord w >>= fun b => if b = true then p else q) ts = .ok r → C := by
  obtain ⟨t, mid, rfl⟩ := ended.exists_cons
  have unfolded : eatWord w (t :: mid) =
      (if t.isWord w = true then (do let _ ← next; return true) else return false : Parser Bool)
        (t :: mid) := rfl
  intro run
  cases word : t.isWord w with
  | true =>
    have kind := kind_of_isWord word
    have later : Ended mid := ended.tail (not_finish_of_kind (by rw [kind]; exact nofun))
    rw [word, if_pos rfl] at unfolded
    rw [bind_read (unfolded.trans (bind_read (next_cons later.ne_nil) _))] at run
    exact yes t mid rfl kind later run
  | false =>
    rw [word] at unfolded
    rw [bind_read unfolded] at run
    exact no run

theorem of_expectWord {w : String} {f : Unit → Parser β} {r : β × List Token} (ended : Ended ts)
    (h : ∀ t mid, ts = t :: mid → t.kind = .word w → Ended mid → f () mid = .ok r → C) :
    (expectWord w >>= f) ts = .ok r → C := by
  refine of_bind fun u mid run => ?_
  have unfolded : expectWord w =
      (eatWord w >>= fun b => if b = true then pure () else refuseFront) := by
    rw [expectWord]
    congr 1
    funext b
    cases b <;> rfl
  rw [unfolded] at run
  refine of_eatWord ended (fun t more given kind later => of_pure fun _ same => ?_)
    of_refuseFront run
  rw [same]
  exact h t more given kind later

theorem of_freeWord {f : String → Parser β} {r : β × List Token} (ended : Ended ts)
    (h : ∀ w t mid, ts = t :: mid → t.freeWord? = some w → Ended mid → f w mid = .ok r → C) :
    (freeWord >>= f) ts = .ok r → C := by
  refine of_bind fun w mid => of_peek ?_
  cases word : (front ts).freeWord? with
  | none => exact of_refuseFront
  | some v =>
    have goes : (front ts).kind ≠ .finish := by
      rw [(kind_of_freeWord word).1]
      exact nofun
    refine of_next ended goes fun t more given later => of_pure fun same same' => ?_
    subst given same same'
    exact h _ t _ rfl word later

end Steps

section Whole

variable {text : String} {e : Expr} {ts us : List Token}

theorem wholeExpression_ok : wholeExpression ts = .ok (e, us) →
    expression ts = .ok (e, us) ∧ (front us).isFinish = true := by
  refine of_peek ?_
  split
  · exact of_bind fun _ _ refused => of_refuseFront refused
  · refine of_bind fun a mid read => of_peek ?_
    split
    · exact of_bind fun _ _ refused => of_refuseFront refused
    · next ended =>
      refine of_pure fun same left => ?_
      subst same left
      exact ⟨read, by simpa using ended⟩

theorem parseExpression_ok (h : parseExpression text = .ok e) :
    ∃ ts us, tokens text = .ok ts ∧ wholeExpression ts = .ok (e, us) := by
  rw [parseExpression, parseWith] at h
  split at h
  · next us read =>
    cases h
    obtain ⟨ts, lexed, whole⟩ := bind_ok read
    exact ⟨ts, us, lexed, whole⟩
  · cases h

theorem parseExpression_of (lexed : tokens text = .ok ts)
    (read : wholeExpression ts = .ok (e, us)) : parseExpression text = .ok e := by
  have run : (tokens text >>= fun ts => wholeExpression.run ts) = .ok (e, us) := by
    rw [lexed]
    exact read
  rw [parseExpression, parseWith, run]

end Whole

section Past

variable {past past' past'' : List Tagged} {t : Token} {ts after : List Token} {role : Role}

theorem Settled.of_head {d : Tagged} (h : d.awaits = false) : Settled (d :: past) := by
  intro e head
  cases head
  exact h

theorem Loose.of_head {d : Tagged} (h : d.isOperand = false) : Loose (d :: past) := by
  intro e head
  cases head
  exact h

structure Ready (past : List Tagged) (ts : List Token) : Prop where
  settled : Settled past
  loose : (front ts).isMark .leftParen = true → Loose past

theorem Ready.start : Ready [] ts where
  settled _ head := by cases head
  loose _ _ head := by cases head

theorem Ready.of_head {d : Tagged} (awaits : d.awaits = false) (operand : d.isOperand = false) :
    Ready (d :: past) ts := ⟨.of_head awaits, fun _ => .of_head operand⟩

theorem InList.opened {arrow : Bool} (h : role = .list arrow) : InList arrow (⟨t, role⟩ :: past) :=
  ⟨[], ⟨t, role⟩, past, rfl, h, nofun⟩

theorem InList.push {arrow : Bool} (h : InList arrow past) {d : Tagged}
    (other : d.token.isMark .rightParen = false) : InList arrow (d :: past) := by
  obtain ⟨inner, o, outer, rfl, list, first⟩ := h
  refine ⟨d :: inner, o, outer, rfl, list, fun e found => ?_⟩
  rw [List.reverse_cons, List.find?_append, Option.mem_def, Option.or_eq_some_iff] at found
  rcases found with found | ⟨_, found⟩
  · exact first e found
  · rw [List.find?_singleton] at found
    split at found
    · cases found
      exact other
    · cases found

theorem InList.group {arrow : Bool} (h : InList arrow past) {o : Tagged}
    (opening : o.token.isMark .leftParen = true) (more : o :: past <:+ past') :
    InList arrow past' := by
  obtain ⟨inner, l, outer, rfl, list, first⟩ := h
  obtain ⟨later, rfl⟩ := more
  have paren : isParen o.token = true := by rw [isParen, opening]; rfl
  have other : o.token.isMark .rightParen = false := by
    rw [Token.isMark, kind_of_isMark opening]
    rfl
  refine ⟨later ++ o :: inner, l, outer, by simp, list, fun e found => ?_⟩
  rw [List.reverse_append, List.reverse_cons, List.append_assoc, List.find?_append, Option.mem_def,
    Option.or_eq_some_iff] at found
  rcases found with found | ⟨_, found⟩
  · exact first e found
  · rw [List.singleton_append, List.find?_cons, paren] at found
    cases found
    exact other

structure Keeps (past past' : List Tagged) : Prop where
  unlisted : Unlisted past → Unlisted past'
  inList : ∀ {arrow}, InList arrow past → InList arrow past'

theorem Keeps.refl : Keeps past past := ⟨id, id⟩

theorem Keeps.trans (h : Keeps past past') (h' : Keeps past' past'') : Keeps past past'' :=
  ⟨fun u => h'.unlisted (h.unlisted u), fun l => h'.inList (h.inList l)⟩

theorem not_rightParen_of_step (h : bracketStep t = 0) : t.isMark .rightParen = false := by
  rw [Bool.eq_false_iff]
  intro mark
  rw [bracketStep, kind_of_isMark mark] at h
  cases h

theorem Keeps.push (h : bracketStep t = 0) : Keeps past (⟨t, role⟩ :: past) where
  unlisted u := by
    rw [Unlisted, if_pos h]
    exact u
  inList l := l.push (not_rightParen_of_step h)

inductive Pair : Mark → Mark → Prop where
  | parens : Pair .leftParen .rightParen
  | braces : Pair .leftBrace .rightBrace
  | brackets : Pair .leftBracket .rightBracket

theorem Keeps.group {m n : Mark} (pair : Pair m n) {o c : Token} (opening : o.isMark m = true)
    (closing : c.isMark n = true) (inner : Keeps (⟨o, role⟩ :: past) past')
    (more : ⟨o, role⟩ :: past <:+ past') : Keeps past (⟨c, .other⟩ :: past') where
  unlisted _ := by
    have step : bracketStep c ≠ 0 := by
      rw [bracketStep, kind_of_isMark closing]
      cases pair <;> decide
    rw [Unlisted, if_neg step]
    rfl
  inList l := by
    have other {m' : Mark} (t : Token) (h : t.isMark m' = true) (ne : m' ≠ .rightParen) :
        t.isMark .rightParen = false := by
      rw [Token.isMark, kind_of_isMark h]
      exact beq_eq_false_iff_ne.mpr ne
    cases pair with
    | parens => exact l.group opening (more.trans (List.suffix_cons _ _))
    | braces =>
      exact (inner.inList (l.push (other o opening (by decide)))).push (other c closing (by decide))
    | brackets =>
      exact (inner.inList (l.push (other o opening (by decide)))).push (other c closing (by decide))

theorem Unlisted.opened {m n : Mark} (pair : Pair m n) (opening : t.isMark m = true)
    (other : (⟨t, role⟩ : Tagged).isList = false) : Unlisted (⟨t, role⟩ :: past) := by
  have step : bracketStep t ≠ 0 := by
    rw [bracketStep, kind_of_isMark opening]
    cases pair <;> decide
  rw [Unlisted, if_neg step]
  exact other

theorem suits_other {m : Mark} (mark : t.isMark m = true)
    (before : Settled past ∨ (m = .rightParen ∧ ∃ d ∈ past.head?, d.isList = true) ∨
      m = .leftBrace ∧ ∃ d ∈ past.head?, d.isKeyword "catch" = true)
    (paren : m = .leftParen → Loose past) (comma : m = .comma → Unlisted past)
    (arrow : m = .arrow → ∃ d earlier, past = d :: earlier ∧
      (d.role = .binder .parameter ∨ d.token.isMark .rightParen = true ∧ InList true earlier)) :
    Suits past t after .other := by
  have kind := kind_of_isMark mark
  have same {n : Mark} (h : t.isMark n = true) : m = n := by
    rw [Token.isMark, kind] at h
    exact beq_iff_eq.mp h
  refine ⟨?_, fun w word => ?_, fun h => paren (same h), fun h => comma (same h),
    fun h => arrow (same h)⟩
  · rcases before with settled | ⟨rfl, list⟩ | ⟨rfl, caught⟩
    · exact .inl settled
    · exact .inr (.inl ⟨mark, list⟩)
    · exact .inr (.inr ⟨mark, caught⟩)
  · rw [kind] at word
    cases word

theorem suits_mark {m : Mark} (mark : t.isMark m = true) (settled : Settled past)
    (paren : m = .leftParen → Loose past) (comma : m = .comma → Unlisted past)
    (arrow : m ≠ .arrow) : Suits past t after .other :=
  suits_other mark (.inl settled) paren comma fun h => absurd h arrow

theorem awaits_mark {m : Mark} (mark : t.isMark m = true) (dot : m ≠ .dot) :
    (⟨t, .other⟩ : Tagged).awaits = false := by
  have unfolded : (⟨t, .other⟩ : Tagged).awaits = t.isMark .dot := rfl
  rw [unfolded, Token.isMark, kind_of_isMark mark]
  exact beq_eq_false_iff_ne.mpr dot

theorem isOperand_mark {m : Mark} (mark : t.isMark m = true) :
    (⟨t, role⟩ : Tagged).isOperand = false := by
  rw [Tagged.isOperand, kind_of_isMark mark]

theorem EndsAs.of_mark {d : Tagged} {m : Mark} {e : Expr} (mark : d.token.isMark m = true)
    (named : isNamed e = true → m = .rightParen) : EndsAs (d :: past) e := by
  obtain ⟨⟨kind, position, broken⟩, role⟩ := d
  have kind_eq : kind = .mark m := kind_of_isMark mark
  subst kind_eq
  intro name
  rw [← named name]
  exact mark

theorem Ready.of_keyword {w : String} (kind : t.kind = .word w) (other : w ∉ awaitingWords) :
    Ready (⟨t, .keyword⟩ :: past) ts := by
  refine .of_head ?_ ?_
  · rw [Tagged.awaits, List.any_eq_false]
    intro v await
    rw [Token.isWord, kind]
    exact fun same => other (beq_iff_eq.mp same ▸ await)
  · rw [Tagged.isOperand, kind]

theorem Ready.of_mark {m : Mark} (mark : t.isMark m = true) (dot : m ≠ .dot) :
    Ready (⟨t, .other⟩ :: past) ts := .of_head (awaits_mark mark dot) (isOperand_mark mark)

end Past

structure Arrives (past : List Tagged) (ts : List Token) (sites : List Site) (past' : List Tagged)
    (rest : List Token) : Prop where
  passage : Passage past ts sites past' rest
  ended : Ended rest
  keeps : Keeps past past'
  ready : Ready past' rest

structure Passes (past : List Tagged) (ts : List Token) (sites : List Site) (past' : List Tagged)
    (rest : List Token) : Prop where
  passage : Passage past ts sites past' rest
  ended : Ended rest
  keeps : Keeps past past'
  settled : Settled past'

theorem Arrives.passes {past past' : List Tagged} {ts rest : List Token} {s : List Site}
    (h : Arrives past ts s past' rest) : Passes past ts s past' rest :=
  ⟨h.passage, h.ended, h.keeps, h.ready.settled⟩

theorem Passes.arrives {past past' past'' : List Tagged} {ts us rest : List Token}
    {s s' : List Site} (h : Passes past ts s past' us) (h' : Arrives past' us s' past'' rest) :
    Arrives past ts (s ++ s') past'' rest :=
  ⟨h.passage.trans h'.passage, h'.ended, h.keeps.trans h'.keeps, h'.ready⟩

theorem Arrives.trans {past past' past'' : List Tagged} {ts us rest : List Token} {s s' : List Site}
    (h : Arrives past ts s past' us) (h' : Arrives past' us s' past'' rest) :
    Arrives past ts (s ++ s') past'' rest :=
  ⟨h.passage.trans h'.passage, h'.ended, h.keeps.trans h'.keeps, h'.ready⟩

section Parts

variable {past past' : List Tagged} {ts rest : List Token} {s : List Site} {t c : Token} {role : Role}

theorem Arrives.here (ended : Ended ts) (ready : Ready past ts) : Arrives past ts [] past ts :=
  ⟨.here, ended, .refl, ready⟩

theorem Arrives.cons (suits : Suits past t ts role) (step : bracketStep t = 0)
    (h : Arrives (⟨t, role⟩ :: past) ts s past' rest) :
    Arrives past (t :: ts) (roleSites t role ++ s) past' rest :=
  ⟨.step suits h.passage, h.ended, (Keeps.push step).trans h.keeps, h.ready⟩

theorem bracketStep_mark {m : Mark} (mark : t.isMark m = true)
    (h : m ∉ [.leftParen, .leftBracket, .leftBrace, .rightParen, .rightBracket, .rightBrace]) :
    bracketStep t = 0 := by
  rw [bracketStep, kind_of_isMark mark]
  cases m <;> first | rfl | exact absurd (by decide) h

theorem bracketStep_word {w : String} (kind : t.kind = .word w) : bracketStep t = 0 := by
  rw [bracketStep, kind]

def structuralMarks : List Mark :=
  [.arrow, .comma, .dot, .leftParen, .leftBracket, .leftBrace, .rightParen, .rightBracket,
    .rightBrace]

theorem Arrives.mark {m : Mark} (mark : t.isMark m = true) (plain : m ∉ structuralMarks)
    (settled : Settled past) (h : Arrives (⟨t, .other⟩ :: past) ts s past' rest) :
    Arrives past (t :: ts) s past' rest := by
  simp only [structuralMarks, List.mem_cons, List.not_mem_nil, or_false, not_or] at plain
  have suits : Suits past t ts .other :=
    suits_mark mark settled (fun e => absurd e plain.2.2.2.1) (fun e => absurd e plain.2.1) plain.1
  refine .cons suits (bracketStep_mark mark ?_) h
  simp only [List.mem_cons, List.not_mem_nil, or_false, not_or]
  exact plain.2.2.2

theorem Arrives.keyword {w : String} (kind : t.kind = .word w) (known : w ∈ statementWords)
    (settled : Settled past) (h : Arrives (⟨t, .keyword⟩ :: past) ts s past' rest) :
    Arrives past (t :: ts) s past' rest := by
  have suits : Suits past t ts .keyword := ⟨settled, w, known, kind⟩
  exact .cons suits (bracketStep_word kind) h

theorem Arrives.enclosed {m n : Mark} (pair : Pair m n) (opening : t.isMark m = true)
    (closing : c.isMark n = true) (suits : Suits past t ts role) (later : Ended rest)
    (inner : Arrives (⟨t, role⟩ :: past) ts s past' (c :: rest)) :
    Arrives past (t :: ts) (roleSites t role ++ s) (⟨c, .other⟩ :: past') rest := by
  have last : Suits past' c rest .other := by
    refine suits_mark closing inner.ready.settled (fun e => ?_) (fun e => ?_) (fun e => ?_)
    all_goals
      subst e
      cases pair
  have whole := (Passage.step suits inner.passage).trans (.one last)
  rw [show roleSites c .other = [] from rfl, List.append_nil] at whole
  have dot : n ≠ .dot := by
    rintro rfl
    cases pair
  exact ⟨whole, later, .group pair opening closing inner.keeps inner.passage.suffix,
    .of_mark closing dot⟩

end Parts

def Tags {α : Type} (commas : Bool) (p : Parser α) (sites : α → List Site) : Prop :=
  ∀ past ts a rest, Ended ts → Ready past ts → (commas = true → Unlisted past) →
    p ts = .ok (a, rest) →
      ∃ past', Arrives past ts (sites a) past' rest ∧ past.length < past'.length

section Operators

variable {commas : Bool} {op? : Mark → Option (Expr → Expr → Expr)} {operand : Parser Expr}

structure Operators (commas : Bool) (op? : Mark → Option (Expr → Expr → Expr)) : Prop where
  sites : ∀ {m make}, op? m = some make → ∀ l r, (make l r).sites = l.sites ++ r.sites
  plain : ∀ {m make}, op? m = some make →
    m ≠ .leftParen ∧ m ≠ .arrow ∧ m ≠ .dot ∧ (m = .comma → commas = true) ∧
      ∀ t : Token, t.isMark m = true → bracketStep t = 0

theorem mark_of_bind {β : Type} {op? : Mark → Option β} {t : Token} {b : β}
    (h : t.mark?.bind op? = some b) : ∃ m, t.isMark m = true ∧ op? m = some b := by
  obtain ⟨m, mark, found⟩ := Option.bind_eq_some_iff.mp h
  exact ⟨m, isMark_iff.mpr mark, found⟩

theorem chainFrom_arrives (h : Tags commas operand Expr.sites) (ops : Operators commas op?)
    {n : Nat} {past : List Tagged} {ts : List Token} {left e : Expr} {rest : List Token}
    (ended : Ended ts) (ready : Ready past ts) (free : commas = true → Unlisted past) :
    chainFrom op? operand left n ts = .ok (e, rest) →
      ∃ s past', Arrives past ts s past' rest ∧ e.sites = left.sites ++ s := by
  -- On the fuel; the left operand grows with each round, and its sites with it.
  induction n generalizing past ts left with
  | zero =>
    refine of_pure fun same same' => ?_
    subst same same'
    exact ⟨[], past, ⟨.here, ended, .refl, ready⟩, (List.append_nil _).symm⟩
  | succ n ih =>
    refine of_peek ?_
    cases found : (front ts).mark?.bind op? with
    | none =>
      refine of_pure fun same same' => ?_
      subst same same'
      exact ⟨[], past, ⟨.here, ended, .refl, ready⟩, (List.append_nil _).symm⟩
    | some make =>
      obtain ⟨m, mark, make_eq⟩ := mark_of_bind found
      obtain ⟨paren, arrow, dot, comma, step⟩ := ops.plain make_eq
      refine of_next ended (by rw [kind_of_isMark mark]; exact nofun) fun t mid given later => ?_
      subst given
      refine of_bind fun right us first run => ?_
      have suits : Suits past t mid .other :=
        suits_mark mark ready.settled (fun h => absurd h paren) (fun h => free (comma h)) arrow
      have push : Keeps past (⟨t, .other⟩ :: past) := .push (step t mark)
      obtain ⟨past', arrives, _⟩ := h _ _ _ _ later (.of_mark mark dot)
        (fun h => push.unlisted (free h)) first
      have free' (h : commas = true) : Unlisted past' := arrives.keeps.unlisted (push.unlisted (free h))
      obtain ⟨s, past'', more, sites⟩ := ih arrives.ended arrives.ready free' run
      have here : Arrives past (t :: mid) (roleSites t .other ++ right.sites) past' us :=
        ⟨.step suits arrives.passage, arrives.ended, push.trans arrives.keeps, arrives.ready⟩
      refine ⟨_, past'', here.trans more, ?_⟩
      rw [sites, ops.sites make_eq, List.append_assoc]
      rfl

theorem Tags.chain (h : Tags commas operand Expr.sites) (ops : Operators commas op?) :
    Tags commas (chain op? operand) Expr.sites := by
  intro past ts e rest ended ready free
  refine of_bind fun left mid first => of_bind fun n mid' count run => ?_
  cases count
  obtain ⟨past', arrives, grows⟩ := h _ _ _ _ ended ready free first
  obtain ⟨s, past'', more, sites⟩ := chainFrom_arrives h ops arrives.ended arrives.ready
    (fun h => arrives.keeps.unlisted (free h)) run
  rw [sites]
  exact ⟨past'', arrives.trans more, Nat.lt_of_lt_of_le grows more.passage.length_le⟩

theorem Operators.of_marks {commas : Bool} {op? : Mark → Option (Expr → Expr → Expr)}
    (sites : ∀ {m make}, op? m = some make → ∀ l r, (make l r).sites = l.sites ++ r.sites)
    (plain : ∀ {m make}, op? m = some make → (m = .comma → commas = true) ∧
      m ∉ [.arrow, .dot, .leftParen, .leftBracket, .leftBrace, .rightParen, .rightBracket,
        .rightBrace]) : Operators commas op? where
  sites := sites
  plain found := by
    obtain ⟨comma, other⟩ := plain found
    simp only [List.mem_cons, List.not_mem_nil, or_false, not_or] at other
    refine ⟨other.2.2.1, other.1, other.2.1, comma, fun t mark => bracketStep_mark mark ?_⟩
    simp only [List.mem_cons, List.not_mem_nil, or_false, not_or]
    exact other.2.2

end Operators

end EmitterLogic.Script
