import EmitterLogic.Proofs.Script.Code
import EmitterLogic.Proofs.Script.Parsing

namespace EmitterLogic.Script

open Script.Parser

section Follow

def followers : List Mark :=
  [.rightParen, .plus, .minus, .star, .slash, .percent, .looseEq, .looseNe, .gt, .ge, .lt, .le,
    .and, .or]

def Rank.Follow : Rank → Token → Prop
  | .whole, t => ∀ m, t.mark? = some m → m = .rightParen
  | _, t => ∀ m, t.mark? = some m → m ∈ followers

variable {t : Token}

theorem Rank.Follow.operand {r : Rank} (h : r.Follow t) : Rank.operand.Follow t := by
  cases r with
  | whole =>
    intro m hm
    rw [h m hm]
    decide
  | operand => exact h
  | signed => exact h

theorem Rank.Follow.not_mark (h : Rank.operand.Follow t) {m : Mark} (other : m ∉ followers) :
    t.isMark m = false :=
  Bool.eq_false_iff.mpr fun mark => other (h m (isMark_iff.mp mark))

theorem Rank.Follow.none_of {β : Type} (h : Rank.operand.Follow t) {f : Mark → Option β}
    (all : followers.all fun m => (f m).isNone) : t.mark?.bind f = none := by
  cases e : t.mark? with
  | none => rfl
  | some m => exact Option.isNone_iff_eq_none.mp (List.all_eq_true.mp all m (h m e))

theorem Rank.Follow.none_of_whole {β : Type} (h : Rank.whole.Follow t) {f : Mark → Option β}
    (closing : f .rightParen = none) : t.mark?.bind f = none := by
  cases e : t.mark? with
  | none => rfl
  | some m =>
    rw [h m e]
    exact closing

end Follow

section Arrows

namespace Code

theorem noArrow_tokens {r : Rank} (c : Code r) (place : Nat) : NoArrow (c.tokens place) := by
  have only {t : Token} (h : t.isMark .arrow = false) : NoArrow [t] :=
    List.forall_mem_singleton.mpr h
  induction c generalizing place with
  | numeral s => exact only rfl
  | name w => exact only rfl
  | group c ih => exact .cons rfl ((ih _).append (only rfl))
  | toDouble c ih =>
    exact .cons rfl ((ih _).append (.cons rfl (.cons rfl (.cons rfl (.cons rfl (only rfl))))))
  | abs c ih =>
    exact .append (.cons rfl (.cons rfl (.cons rfl (.cons rfl (.cons rfl (only rfl))))))
      ((ih _).append (only rfl))
  | plain c ih => exact ih place
  | negated c ih => exact .cons rfl (ih _)
  | single c ih => exact ih place
  | joined a o b iha ihb =>
    refine (iha _).append (.cons ?_ (ihb _))
    rcases o with o | o | o <;> cases o <;> rfl

def Begins : TokenKind → Prop
  | .number _ => True
  | .word _ => True
  | .mark m => m = .leftParen ∨ m = .minus
  | _ => False

theorem tokens_begin {r : Rank} (c : Code r) (place : Nat) :
    ∃ t ts, c.tokens place = t :: ts ∧ Begins t.kind := by
  induction c generalizing place with
  | numeral s => exact ⟨_, _, rfl, trivial⟩
  | name w => exact ⟨_, _, rfl, trivial⟩
  | group c ih => exact ⟨_, _, rfl, .inl rfl⟩
  | toDouble c ih => exact ⟨_, _, rfl, .inl rfl⟩
  | abs c ih => exact ⟨_, _, rfl, trivial⟩
  | plain c ih => exact ih place
  | negated c ih => exact ⟨_, _, rfl, .inr rfl⟩
  | single c ih => exact ih place
  | joined a o b iha ihb =>
    obtain ⟨t, ts, tokens, begins⟩ := iha place
    exact ⟨t, _, congrArg (· ++ _) tokens, begins⟩

end Code

end Arrows

section Grammar

variable {A : Parser Expr} {S : Parser Stmt} {t : Token} {more : List Token}

theorem accessFrom_stop (e : Expr) (follow : Rank.operand.Follow t) (n : Nat) :
    accessFrom A e n (t :: more) = .ok (e, t :: more) :=
  accessFrom_ends e (follow.not_mark (by decide)) (follow.not_mark (by decide))
    (follow.not_mark (by decide)) n

theorem accessFrom_apply {u w : Token} {ts : List Token} {a : Expr} (e : Expr) (n : Nat)
    (opening : u.mark? = some .leftParen) (nonempty : ts ≠ [])
    (given : eat .rightParen ts = .ok (false, ts)) (h : A ts = .ok (a, w :: t :: more))
    (closing : w.mark? = some .rightParen) :
    accessFrom A e (n + 1) (u :: ts) = accessFrom A (.call e [a]) n (t :: more) := by
  have args : commaSeparated A ts = .ok ([a], w :: t :: more) := by
    obtain ⟨v, vs, rfl⟩ := List.exists_cons_of_ne_nil nonempty
    refine (bind_read rfl _).trans ?_
    rw [List.length_cons]
    exact (bind_read h _).trans (bind_read (eat_other (not_isMark closing (by decide))) _)
  exact accessFrom_args e n opening nonempty given args closing

def levels : List (Mark → Option (Expr → Expr → Expr)) :=
  [productOp?, sumOp?, relationOp?, equalityOp?, conjunctionOp?, disjunctionOp?]

def chains (levels : List (Mark → Option (Expr → Expr → Expr))) (operand : Parser Expr) :
    Parser Expr := levels.foldl (fun p op? => chain op? p) operand

theorem operatorsOver_eq : operatorsOver A S = chains levels (unaryOver A S) := rfl

theorem chains_stop {operand : Parser Expr} {ts : List Token} {e : Expr}
    (h : operand ts = .ok (e, t :: more)) {ls : List (Mark → Option (Expr → Expr → Expr))}
    (none : ∀ op? ∈ ls, t.mark?.bind op? = none) : chains ls operand ts = .ok (e, t :: more) := by
  induction ls generalizing operand with
  | nil => exact h
  | cons op? ls ih =>
    rw [List.forall_mem_cons] at none
    exact ih (chain_stop h none.1) none.2

theorem Connective.level (o : Connective) :
    ∃ tighter op? looser, levels = tighter ++ op? :: looser ∧ op? o.mark = some o.make ∧
      (tighter.all fun op? => (op? o.mark).isNone) = true := by
  rcases o with o | o | o
  · cases o with
    | add => exact ⟨[productOp?], sumOp?, _, rfl, rfl, rfl⟩
    | sub => exact ⟨[productOp?], sumOp?, _, rfl, rfl, rfl⟩
    | mul => exact ⟨[], productOp?, _, rfl, rfl, rfl⟩
    | div => exact ⟨[], productOp?, _, rfl, rfl, rfl⟩
    | rem => exact ⟨[], productOp?, _, rfl, rfl, rfl⟩
  · cases o with
    | eq => exact ⟨[productOp?, sumOp?, relationOp?], equalityOp?, _, rfl, rfl, rfl⟩
    | ne => exact ⟨[productOp?, sumOp?, relationOp?], equalityOp?, _, rfl, rfl, rfl⟩
    | gt => exact ⟨[productOp?, sumOp?], relationOp?, _, rfl, rfl, rfl⟩
    | ge => exact ⟨[productOp?, sumOp?], relationOp?, _, rfl, rfl, rfl⟩
    | lt => exact ⟨[productOp?, sumOp?], relationOp?, _, rfl, rfl, rfl⟩
    | le => exact ⟨[productOp?, sumOp?], relationOp?, _, rfl, rfl, rfl⟩
  · cases o with
    | and =>
      exact ⟨[productOp?, sumOp?, relationOp?, equalityOp?], conjunctionOp?, _, rfl, rfl, rfl⟩
    | or =>
      exact ⟨[productOp?, sumOp?, relationOp?, equalityOp?, conjunctionOp?], disjunctionOp?, [],
        rfl, rfl, rfl⟩

theorem none_of_all {m : Mark} {ls : List (Mark → Option (Expr → Expr → Expr))}
    (all : (ls.all fun op? => (op? m).isNone) = true) : ∀ op? ∈ ls, op? m = none :=
  fun op? h => Option.isNone_iff_eq_none.mp (List.all_eq_true.mp all op? h)

theorem levels_end (follow : Rank.whole.Follow t) : ∀ op? ∈ levels, t.mark?.bind op? = none := by
  have closing : ∀ op? ∈ levels, op? .rightParen = none := none_of_all rfl
  exact fun op? h => follow.none_of_whole (closing op? h)

theorem operatorsOver_single {ts : List Token} {e : Expr}
    (h : unaryOver A S ts = .ok (e, t :: more)) (follow : Rank.whole.Follow t) :
    operatorsOver A S ts = .ok (e, t :: more) := by
  rw [operatorsOver_eq]
  exact chains_stop h (levels_end follow)

theorem operatorsOver_joined {ts us : List Token} {u : Token} {a b : Expr} {o : Connective}
    (first : unaryOver A S ts = .ok (a, u :: us)) (sign : u.mark? = some o.mark) (some : us ≠ [])
    (second : unaryOver A S us = .ok (b, t :: more)) (follow : Rank.whole.Follow t) :
    operatorsOver A S ts = .ok (o.make a b, t :: more) := by
  obtain ⟨tighter, op?, looser, split, found, none⟩ := o.level
  have ends := levels_end follow
  rw [split, List.forall_mem_append, List.forall_mem_cons] at ends
  have left : chains tighter (unaryOver A S) ts = .ok (a, u :: us) := by
    refine chains_stop first fun op? h => ?_
    rw [sign]
    exact none_of_all none op? h
  have right : chains tighter (unaryOver A S) us = .ok (b, t :: more) :=
    chains_stop second ends.1
  have here : u.mark?.bind op? = Option.some o.make := by
    rw [sign]
    exact found
  have joined := chain_once left here right ends.2.1 some
  have unfolded : chains levels (unaryOver A S) =
      chains looser (chain op? (chains tighter (unaryOver A S))) := by
    rw [split, chains, List.foldl_append]
    rfl
  rw [operatorsOver_eq, unfolded]
  exact chains_stop joined ends.2.2

theorem assignmentOver_whole {ts : List Token} {e : Expr} (arrows : NoArrow ts)
    (h : operatorsOver A S ts = .ok (e, t :: more)) (follow : Rank.whole.Follow t) :
    assignmentOver A S ts = .ok (e, t :: more) :=
  assignmentOver_ok arrows (conditionalOver_ok h (follow.operand.not_mark (by decide)))
    (follow.none_of_whole rfl)

theorem expressionOver_ok {ts : List Token} {e : Expr} (h : A ts = .ok (e, t :: more))
    (follow : Rank.whole.Follow t) : expressionOver A ts = .ok (e, t :: more) :=
  chain_stop h (follow.none_of_whole rfl)

theorem primaryOver_group {u w : Token} {ts : List Token} {e : Expr}
    (opening : u.kind = .mark .leftParen) (some : ts ≠ []) (h : A ts = .ok (e, w :: t :: more))
    (closing : w.kind = .mark .rightParen) : primaryOver A S (u :: ts) = .ok (e, t :: more) := by
  have closes : w.mark? = Option.some .rightParen := by rw [Token.mark?, closing]
  have follow : Rank.whole.Follow w := by
    intro m hm
    rw [closes] at hm
    exact (Option.some.inj hm).symm
  exact primaryOver_parens opening some (expressionOver_ok h follow) closes

end Grammar

namespace Code

def parser (n : Nat) : Rank → Parser Expr
  | .operand => accessOver (assignment n) (statement n)
  | .signed => unaryOver (assignment n) (statement n)
  | .whole => assignment (n + 1)

theorem operand_begin (c : Code .operand) (h : c.WellNamed) (place : Nat) :
    ∃ t ts, c.tokens place = t :: ts ∧ unaryOp? t = none ∧ t.mark?.bind updateOp? = none := by
  cases c with
  | numeral s => exact ⟨_, _, rfl, rfl, rfl⟩
  | name w =>
    refine ⟨_, _, rfl, ?_, rfl⟩
    unfold unaryOp?
    split
    · next kind => cases kind
    · next kind => cases kind
    · next kind => cases kind
    · next kind =>
      cases kind
      exact absurd h.2 (by decide)
    · rfl
  | group c => exact ⟨_, _, rfl, rfl, rfl⟩
  | toDouble c => exact ⟨_, _, rfl, rfl, rfl⟩
  | abs c => exact ⟨_, _, rfl, rfl, rfl⟩

theorem tokens_ne_nil {r : Rank} (c : Code r) (place : Nat) (rest : List Token) :
    c.tokens place ++ rest ≠ [] := by
  obtain ⟨t, ts, tokens, _⟩ := c.tokens_begin place
  rw [tokens]
  exact List.cons_ne_nil _ _

theorem tokens_not_closing {r : Rank} (c : Code r) (place : Nat) (rest : List Token) :
    eat .rightParen (c.tokens place ++ rest) = .ok (false, c.tokens place ++ rest) := by
  obtain ⟨t, ts, tokens, begins⟩ := c.tokens_begin place
  rw [tokens, List.cons_append]
  refine eat_other ?_
  obtain ⟨kind, position, broken⟩ := t
  cases kind with
  | mark m => rcases begins with rfl | rfl <;> rfl
  | number x => rfl
  | word w => rfl
  | text s => rfl
  | finish => rfl

theorem closing_follow (place : Nat) : Rank.whole.Follow (markAt .rightParen place) := by
  rintro m ⟨⟩
  rfl

theorem reads {r : Rank} (c : Code r) (h : c.WellNamed) (n place : Nat)
    (deep : (c.tokens place).length ≤ n) (t : Token) (more : List Token) (follow : r.Follow t)
    (arrows : NoArrow (t :: more)) :
    parser n r (c.tokens place ++ t :: more) = .ok (c.expr place, t :: more) := by
  -- The text of a piece ends where its rank does not go on, so the token that follows is part of the claim.
  induction c generalizing n place t more with
  | numeral s => exact (bind_read (primaryOver_number rfl) _).trans (accessFrom_stop _ follow _)
  | name w => exact (bind_read (primaryOver_word rfl h.2) _).trans (accessFrom_stop _ follow _)
  | group c ih =>
    simp only [tokens, List.length_cons, List.length_append] at deep
    obtain ⟨m, rfl⟩ : ∃ m, n = m + 1 := ⟨n - 1, by omega⟩
    have inside := ih h m (place + 1) (by omega) (markAt .rightParen (c.after (place + 1)))
      (t :: more) (closing_follow _) (.cons rfl arrows)
    have primary := primaryOver_group (S := statement (m + 1)) (u := markAt .leftParen place) rfl
      (c.tokens_ne_nil _ _) inside rfl
    have tokens : (group c).tokens place ++ t :: more = markAt .leftParen place ::
        (c.tokens (place + 1) ++ markAt .rightParen (c.after (place + 1)) :: t :: more) := by
      simp [tokens]
    rw [tokens]
    exact ((bind_read primary _).trans (bind_read rfl _)).trans (accessFrom_stop _ follow _)
  | toDouble c ih =>
    simp only [tokens, List.length_cons, List.length_append] at deep
    obtain ⟨m, rfl⟩ : ∃ m, n = m + 1 := ⟨n - 1, by omega⟩
    let close := c.after (place + 1)
    let call := [markAt .leftParen (close + 10), markAt .rightParen (close + 11)] ++ t :: more
    let tail := markAt .dot (close + 1) :: wordAt "toDouble" (close + 2) :: call
    have tailArrows : NoArrow tail := .cons rfl (.cons rfl (.cons rfl (.cons rfl arrows)))
    have inside := ih h m (place + 1) (by omega) (markAt .rightParen close) tail
      (closing_follow _) (.cons rfl tailArrows)
    have primary := primaryOver_group (S := statement (m + 1)) (u := markAt .leftParen place) rfl
      (c.tokens_ne_nil _ _) inside rfl
    have tokens : (toDouble c).tokens place ++ t :: more = markAt .leftParen place ::
        (c.tokens (place + 1) ++ markAt .rightParen close :: tail) := by
      simp [tokens, close, tail, call]
    rw [tokens]
    refine ((bind_read primary _).trans (bind_read rfl _)).trans ?_
    refine (accessFrom_member _ _ rfl rfl).trans ?_
    exact (accessFrom_call _ _ rfl rfl).trans (accessFrom_stop _ follow _)
  | abs c ih =>
    simp only [tokens, List.length_cons, List.length_append] at deep
    obtain ⟨m, rfl⟩ : ∃ m, n = m + 1 := ⟨n - 1, by omega⟩
    have inside := ih h m (place + 16) (by omega) (markAt .rightParen (c.after (place + 16)))
      (t :: more) (closing_follow _) (.cons rfl arrows)
    let args := c.tokens (place + 16) ++ markAt .rightParen (c.after (place + 16)) :: t :: more
    have tokens : (abs c).tokens place ++ t :: more = wordAt "kotlin" place ::
        markAt .dot (place + 6) :: wordAt "math" (place + 7) :: markAt .dot (place + 11) ::
        wordAt "abs" (place + 12) :: markAt .leftParen (place + 15) :: args := by
      simp [tokens, args]
    rw [tokens]
    refine ((bind_read (primaryOver_word rfl (by decide)) _).trans (bind_read rfl _)).trans ?_
    refine (accessFrom_member _ _ rfl rfl).trans ((accessFrom_member _ _ rfl rfl).trans ?_)
    refine (accessFrom_apply _ _ rfl (c.tokens_ne_nil _ _) (c.tokens_not_closing _ _) inside
      rfl).trans ?_
    exact accessFrom_stop _ follow _
  | plain c ih =>
    obtain ⟨u, us, tokens, unary, update⟩ := c.operand_begin h place
    have operand := ih h n place deep t more follow arrows
    have begins : (plain c).tokens place = u :: us := tokens
    rw [tokens, List.cons_append] at operand
    rw [begins, List.cons_append]
    have after := afterOver_ok operand (follow.none_of (by decide))
    exact (bind_read rfl _).trans (unaryFrom_operand unary update after _)
  | negated c ih =>
    obtain ⟨u, us, tokens, unary, update⟩ := c.operand_begin h (place + 1)
    have operand := ih h n (place + 1) (Nat.le_of_succ_le deep) t more follow arrows
    have begins : (negated c).tokens place = markAt .minus place :: u :: us :=
      congrArg (markAt .minus place :: ·) tokens
    rw [tokens, List.cons_append] at operand
    rw [begins, List.cons_append, List.cons_append]
    refine (bind_read rfl _).trans ?_
    rw [List.length_cons]
    have after := afterOver_ok operand (follow.none_of (by decide))
    exact unaryFrom_op rfl (List.cons_ne_nil _ _) (unaryFrom_operand unary update after _)
  | single c ih =>
    have signed := ih h n place deep t more follow.operand arrows
    exact assignmentOver_whole ((c.noArrow_tokens place).append arrows)
      (operatorsOver_single signed follow) follow
  | joined a o b iha ihb =>
    simp only [tokens, List.length_cons, List.length_append] at deep
    let sign := a.after place + 1
    let right := b.tokens (sign + o.mark.text.length + 1) ++ t :: more
    have sign_arrow : (markAt o.mark sign).isMark .arrow = false := by
      rcases o with o | o | o <;> cases o <;> rfl
    have sign_follow : Rank.signed.Follow (markAt o.mark sign) := by
      rintro m ⟨⟩
      rcases o with o | o | o <;> cases o <;> decide
    have rightArrows : NoArrow right := (b.noArrow_tokens _).append arrows
    have first := iha h.1 n place (by omega) (markAt o.mark sign) right sign_follow
      (.cons sign_arrow rightArrows)
    have rightDeep : (b.tokens (sign + o.mark.text.length + 1)).length ≤ n := by
      simp only [sign]
      omega
    have second := ihb h.2 n _ rightDeep t more follow.operand arrows
    have tokens : (joined a o b).tokens place ++ t :: more =
        a.tokens place ++ markAt o.mark sign :: right := by
      simp [tokens, sign, right]
    rw [tokens]
    exact assignmentOver_whole ((a.noArrow_tokens _).append (.cons sign_arrow rightArrows))
      (operatorsOver_joined first rfl (b.tokens_ne_nil _ _) second follow) follow

theorem parse_text (c : Code .whole) (h : c.WellNamed) :
    parseExpression c.text = .ok (c.expr 0) := by
  let finish : Token := ⟨.finish, c.chars.length, false⟩
  have follow : Rank.whole.Follow finish := nofun
  have whole := c.reads h (c.tokens 0 ++ [finish]).length 0 (by simp) finish [] follow
    (List.forall_mem_singleton.mpr rfl)
  have expression : expression (c.tokens 0 ++ [finish]) = .ok (c.expr 0, [finish]) :=
    (bind_read rfl _).trans (expressionOver_ok whole follow)
  have started : (front (c.tokens 0 ++ [finish])).isFinish = false := by
    obtain ⟨t, ts, tokens, begins⟩ := c.tokens_begin 0
    rw [tokens]
    obtain ⟨kind, position, broken⟩ := t
    cases kind with
    | finish => exact absurd begins id
    | number x => rfl
    | word w => rfl
    | mark m => rfl
    | text s => rfl
  have parsed : wholeExpression (c.tokens 0 ++ [finish]) = .ok (c.expr 0, [finish]) := by
    refine (bind_read rfl _).trans ?_
    rw [started]
    exact (bind_read expression _).trans ((bind_read (a := finish) rfl _).trans rfl)
  rw [parseExpression, parseWith, c.tokens_text h]
  have run : (Except.ok (c.tokens 0 ++ [finish]) >>= fun ts => wholeExpression.run ts) =
      wholeExpression (c.tokens 0 ++ [finish]) := rfl
  rw [run, parsed]

end Code

end EmitterLogic.Script
