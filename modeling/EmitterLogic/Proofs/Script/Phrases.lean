import EmitterLogic.Proofs.Script.Phrase

namespace EmitterLogic.Script

open Script.Parser

variable {l : Nat} {ks ls : List TokenKind} {e p : Expr}

section Brackets

theorem Phrase.read_inside {n : Nat} (h : Phrase ks l e) (le : l ≤ 11) (deep : ks.length < n)
    {ts : List Token} (spells : Spells ts ks) (m : Mark) (closing : m.looseness = 12)
    (arrow : m ≠ .arrow) (place : Nat) {rest : List Token} (arrows : NoArrow rest) :
    Read (expressionOver (assignment n)) ts (⟨.mark m, place, false⟩ :: rest) e := by
  obtain ⟨d, rfl⟩ : ∃ d, n = d + 1 := ⟨n - 1, by omega⟩
  exact h.reads le (Nat.le_refl 11) d ts _ (Nat.le_of_lt_succ deep) spells
    (follows_mark (closing ▸ by decide) arrow place arrows)

theorem phrase_token {k : TokenKind} (opens : Opens 0 k) (spelled : k.IsSpelled)
    (arrow : k ≠ .mark .arrow)
    (read : ∀ n place t more, Read (primaryOver (assignment n) (statement n)) [⟨k, place, false⟩]
      (t :: more) e) :
    Phrase [k] 0 e := by
  refine ⟨⟨k, [], rfl, opens⟩, shown_nil.cons spelled arrow, ?_⟩
  intro n ts rest _ spells follow
  obtain ⟨place, rfl⟩ := spells.single
  obtain ⟨t, more, rfl, _⟩ := follow.stops
  exact read n place t more

theorem phrase_parens (h : Phrase ks l e) (le : l ≤ 11) :
    Phrase (.mark .leftParen :: (ks ++ [.mark .rightParen])) 0 e := by
  refine ⟨⟨_, _, rfl, .inl rfl⟩, (h.shown.append (shown_nil.mark (by decide))).mark (by decide), ?_⟩
  intro n ts rest deep spells follow
  obtain ⟨place, us, rfl, others⟩ := spells.cons
  obtain ⟨us, vs, rfl, inner, last⟩ := others.append
  obtain ⟨close, rfl⟩ := last.single
  simp only [List.length_cons, List.length_append] at deep
  have shallow : ks.length < n := by omega
  obtain ⟨e', same, read⟩ := h.read_inside le shallow inner .rightParen rfl nofun close
    follow.arrows
  obtain ⟨t, more, rfl, _⟩ := follow.stops
  refine ⟨e', same, ?_⟩
  rw [List.cons_append, List.append_assoc]
  exact primaryOver_parens rfl (h.opens.ne_nil inner _) read rfl

theorem phrase_group (h : Phrase ks l e) (le : l ≤ 11) {level : Nat} (top : level ≤ 11) :
    Phrase (group level l ks) level e := by
  rw [group]
  split
  · exact (phrase_parens h le).looser (Nat.zero_le level) top
  · next tight => exact h.looser (Nat.le_of_not_lt tight) top

end Brackets

section Lists

inductive Phrases : List TokenKind → List Expr → Prop where
  | one {ks : List TokenKind} {e : Expr} (h : Phrase ks 10 e) : Phrases ks [e]
  | more {ks ls : List TokenKind} {e : Expr} {es : List Expr} (h : Phrase ks 10 e)
      (others : Phrases ls es) : Phrases (ks ++ .mark .comma :: ls) (e :: es)

namespace Phrases

variable {es : List Expr} {ts rest : List Token}

theorem opens (h : Phrases ks es) : Opening 10 ks := by
  cases h with
  | one h => exact h.opens
  | more h others => exact h.opens.append _

theorem shown (h : Phrases ks es) : Shown ks := by
  induction h with
  | one h => exact h.shown
  | more h others ih => exact h.shown.append (ih.mark (by decide))

theorem room (h : Phrases ks es) {m : Nat} (enough : ks.length ≤ m) : ∃ k, m = k + 1 := by
  obtain ⟨k, more, rfl, _⟩ := h.opens
  exact ⟨m - 1, by simp only [List.length_cons] at enough; omega⟩

theorem commaList_ok (h : Phrases ks es) {d m : Nat} (deep : ks.length ≤ d) (enough : ks.length ≤ m)
    (spells : Spells ts ks) (follow : MayFollow 11 rest) :
    ∃ es', forgetAll es' = forgetAll es ∧
      commaList (assignment (d + 1)) m (ts ++ rest) = .ok (es', rest) := by
  obtain ⟨m, rfl⟩ := h.room enough
  induction h generalizing m ts with
  | one h =>
    obtain ⟨e', same, read⟩ := h.reads (Nat.le_refl 10) (by decide) d ts rest deep spells
      (follow.tighter (by decide))
    obtain ⟨t, more, rfl, stops⟩ := follow.stops
    have comma : t.isMark .comma = false := stops.not_isMark (by decide)
    exact ⟨[e'], by simp only [forgetAll, same],
      (bind_read read _).trans (bind_read (eat_other comma) _)⟩
  | @more ks ls e es h others ih =>
    simp only [List.length_append, List.length_cons] at deep enough
    obtain ⟨us, vs, rfl, first, last⟩ := spells.append
    obtain ⟨place, vs, rfl, second⟩ := last.cons
    have arrows := (others.shown.noArrow second).append follow.arrows
    obtain ⟨e', same, read⟩ := h.reads (Nat.le_refl 10) (by decide) d us _ (by omega) first
      (follows_mark (m := .comma) (by decide) (by decide) place arrows)
    obtain ⟨k, rfl⟩ := others.room (m := m) (by omega)
    obtain ⟨es', same', read'⟩ := ih (by omega) second k (by omega)
    refine ⟨e' :: es', by simp only [forgetAll, same, same'], ?_⟩
    rw [List.append_assoc]
    refine (bind_read read _).trans ?_
    refine (bind_read (eat_cons rfl (others.opens.ne_nil second rest)) _).trans ?_
    exact bind_read read' _

theorem closedList_ok (h : Phrases ks es) {d m : Nat} (deep : ks.length ≤ d)
    (enough : ks.length ≤ m) (spells : Spells ts ks) (place : Nat) (arrows : NoArrow rest)
    (some : rest ≠ []) :
    ∃ es', forgetAll es' = forgetAll es ∧
      closedList (assignment (d + 1)) .rightBracket m
        (ts ++ ⟨.mark .rightBracket, place, false⟩ :: rest) = .ok (es', rest) := by
  have closes {l : Nat} (le : l ≤ 11) :
      MayFollow l (⟨.mark .rightBracket, place, false⟩ :: rest) :=
    follows_mark (m := .rightBracket) (Nat.lt_succ_of_le le) (by decide) place arrows
  obtain ⟨m, rfl⟩ := h.room enough
  -- Along the phrases; the fuel is enough because each phrase has a token.
  induction h generalizing m ts with
  | one h =>
    obtain ⟨e', same, read⟩ := h.reads (Nat.le_refl 10) (by decide) d ts _ deep spells
      (closes (by decide))
    refine ⟨[e'], by simp only [forgetAll, same], ?_⟩
    refine (bind_read (h.opens.not_eat (by decide) spells _) _).trans ((bind_read read _).trans ?_)
    exact (bind_read (eat_other rfl) _).trans (bind_read (expect_cons rfl some) _)
  | @more ks ls e es h others ih =>
    simp only [List.length_append, List.length_cons] at deep enough
    obtain ⟨us, vs, rfl, first, last⟩ := spells.append
    obtain ⟨comma, vs, rfl, second⟩ := last.cons
    have arrows := (others.shown.noArrow second).append (closes (Nat.le_refl 11)).arrows
    obtain ⟨e', same, read⟩ := h.reads (Nat.le_refl 10) (by decide) d us _ (by omega) first
      (follows_mark (m := .comma) (by decide) (by decide) comma arrows)
    obtain ⟨k, rfl⟩ := others.room (m := m) (by omega)
    obtain ⟨es', same', read'⟩ := ih (by omega) second k (by omega)
    refine ⟨e' :: es', by simp only [forgetAll, same, same'], ?_⟩
    rw [List.append_assoc]
    refine (bind_read (h.opens.not_eat (by decide) first _) _).trans ((bind_read read _).trans ?_)
    refine (bind_read (eat_cons rfl (others.opens.ne_nil second _)) _).trans ?_
    exact bind_read read' _

end Phrases

theorem phrase_emptyList : Phrase [.mark .leftBracket, .mark .rightBracket] 0 (.list []) := by
  refine ⟨⟨_, _, rfl, .inr (.inl rfl)⟩,
    (shown_nil.mark (by decide)).mark (by decide), ?_⟩
  intro n ts rest _ spells follow
  obtain ⟨place, us, rfl, others⟩ := spells.cons
  obtain ⟨close, rfl⟩ := others.single
  refine ⟨.list [], rfl, ?_⟩
  have items : closedList (assignment n) .rightBracket (rest.length + 1)
      (⟨.mark .rightBracket, close, false⟩ :: rest) = .ok ([], rest) :=
    bind_read (eat_cons rfl follow.ne_nil) _
  refine (bind_read rfl _).trans ((bind_read (next_cons (List.cons_ne_nil _ _)) _).trans ?_)
  exact (bind_read rfl _).trans (bind_read items _)

theorem phrase_list {es : List Expr} (h : Phrases ks es) :
    Phrase (.mark .leftBracket :: (ks ++ [.mark .rightBracket])) 0 (.list es) := by
  refine ⟨⟨_, _, rfl, .inr (.inl rfl)⟩,
    (h.shown.append (shown_nil.mark (by decide))).mark (by decide), ?_⟩
  intro n ts rest deep spells follow
  obtain ⟨place, us, rfl, others⟩ := spells.cons
  obtain ⟨us, vs, rfl, inner, last⟩ := others.append
  obtain ⟨close, rfl⟩ := last.single
  simp only [List.length_cons, List.length_append] at deep
  obtain ⟨d, rfl⟩ : ∃ d, n = d + 1 := ⟨n - 1, by omega⟩
  have enough : ks.length ≤ (us ++ ⟨.mark .rightBracket, close, false⟩ :: rest).length := by
    rw [List.length_append, inner.length]
    exact Nat.le_add_right _ _
  obtain ⟨es', same, read⟩ := h.closedList_ok (d := d) (by omega) enough inner close follow.arrows
    follow.ne_nil
  refine ⟨.list es', by simp only [Expr.forget, same], ?_⟩
  rw [List.cons_append, List.append_assoc]
  refine (bind_read rfl _).trans ((bind_read (next_cons (h.opens.ne_nil inner _)) _).trans ?_)
  exact (bind_read rfl _).trans (bind_read read _)

end Lists

section Access

theorem Nat.exists_succ {n k : Nat} (h : n + 1 ≤ k) : ∃ m, k = m + 1 := ⟨k - 1, by omega⟩

theorem phrase_member (h : Phrase ks 1 e) {w : String} (word : isWord w = true) :
    Phrase (ks ++ [.mark .dot, .word w]) 1 (.member e w) := by
  refine ⟨h.opens.append _, h.shown.append ((shown_nil.word word).mark (by decide)), ?_⟩
  intro n ts rest deep spells follow
  obtain ⟨us, vs, rfl, first, others⟩ := spells.append
  obtain ⟨dot, vs, rfl, last⟩ := others.cons
  obtain ⟨place, rfl⟩ := last.single
  rw [List.length_append] at deep
  have arrows : NoArrow (⟨.word w, place, false⟩ :: rest) := .cons rfl follow.arrows
  obtain ⟨e', k, same, room, read⟩ := h.leads n us _ (by omega) first
    (follows_mark (m := .dot) (by decide) (by decide) dot arrows)
  obtain ⟨k, rfl⟩ := Nat.exists_succ room
  obtain ⟨t, more, rfl, _⟩ := follow.stops
  refine ⟨.member e' w, k, by simp only [Expr.forget, same], ?_, ?_⟩
  · simp only [List.length_cons] at room ⊢
    omega
  · rw [List.append_assoc]
    exact read.trans (accessFrom_member e' k rfl rfl)

theorem phrase_index (h : Phrase ks 1 e) (inside : Phrase ls l p) (le : l ≤ 11) :
    Phrase (ks ++ .mark .leftBracket :: (ls ++ [.mark .rightBracket])) 1 (.index e p) := by
  refine ⟨h.opens.append _, h.shown.append
    ((inside.shown.append (shown_nil.mark (by decide))).mark (by decide)), ?_⟩
  intro n ts rest deep spells follow
  obtain ⟨us, vs, rfl, first, others⟩ := spells.append
  obtain ⟨place, vs, rfl, bracketed⟩ := others.cons
  obtain ⟨vs, ws, rfl, inner, last⟩ := bracketed.append
  obtain ⟨close, rfl⟩ := last.single
  simp only [List.length_append, List.length_cons] at deep
  obtain ⟨p', same', read'⟩ := inside.read_inside (n := n) le (by omega) inner .rightBracket rfl
    (by decide) close follow.arrows
  have arrows := (inside.shown.noArrow inner).append
    (noArrow_mark (m := .rightBracket) (by decide) close follow.arrows)
  obtain ⟨e', k, same, room, read⟩ := h.leads n us _ (by omega) first
    (follows_mark (m := .leftBracket) (by decide) (by decide) place arrows)
  obtain ⟨k, rfl⟩ := Nat.exists_succ room
  obtain ⟨t, more, rfl, _⟩ := follow.stops
  refine ⟨.index e' p', k, by simp only [Expr.forget, same, same'], ?_, ?_⟩
  · simp only [List.length_cons, List.length_append] at room ⊢
    omega
  · rw [List.append_assoc, List.cons_append, List.append_assoc]
    exact read.trans (accessFrom_index e' k rfl (inside.opens.ne_nil inner _) read' rfl)

theorem phrase_emptyCall (h : Phrase ks 1 e) :
    Phrase (ks ++ [.mark .leftParen, .mark .rightParen]) 1 (.call e []) := by
  refine ⟨h.opens.append _, h.shown.append
    ((shown_nil.mark (by decide)).mark (by decide)), ?_⟩
  intro n ts rest deep spells follow
  obtain ⟨us, vs, rfl, first, others⟩ := spells.append
  obtain ⟨place, vs, rfl, last⟩ := others.cons
  obtain ⟨close, rfl⟩ := last.single
  rw [List.length_append] at deep
  obtain ⟨e', k, same, room, read⟩ := h.leads n us _ (by omega) first
    (follows_mark (m := .leftParen) (by decide) (by decide) place
      (noArrow_mark (m := .rightParen) (by decide) close follow.arrows))
  obtain ⟨k, rfl⟩ := Nat.exists_succ room
  obtain ⟨t, more, rfl, _⟩ := follow.stops
  refine ⟨.call e' [], k, by simp only [Expr.forget, same], ?_, ?_⟩
  · simp only [List.length_cons] at room ⊢
    omega
  · rw [List.append_assoc]
    exact read.trans (accessFrom_call e' k rfl rfl)

theorem phrase_call (h : Phrase ks 1 e) {args : List Expr} (inside : Phrases ls args) :
    Phrase (ks ++ .mark .leftParen :: (ls ++ [.mark .rightParen])) 1 (.call e args) := by
  refine ⟨h.opens.append _, h.shown.append
    ((inside.shown.append (shown_nil.mark (by decide))).mark (by decide)), ?_⟩
  intro n ts rest deep spells follow
  obtain ⟨us, vs, rfl, first, others⟩ := spells.append
  obtain ⟨place, vs, rfl, bracketed⟩ := others.cons
  obtain ⟨vs, ws, rfl, inner, last⟩ := bracketed.append
  obtain ⟨close, rfl⟩ := last.single
  simp only [List.length_append, List.length_cons] at deep
  obtain ⟨d, rfl⟩ : ∃ d, n = d + 1 := ⟨n - 1, by omega⟩
  have enough : ls.length ≤ (vs ++ ⟨.mark .rightParen, close, false⟩ :: rest).length := by
    rw [List.length_append, inner.length]
    exact Nat.le_add_right _ _
  obtain ⟨args', same', read'⟩ := inside.commaList_ok (d := d) (by omega) enough inner
    (follows_mark (m := .rightParen) (by decide) (by decide) close follow.arrows)
  have arrows := (inside.shown.noArrow inner).append
    (noArrow_mark (m := .rightParen) (by decide) close follow.arrows)
  obtain ⟨e', k, same, room, read⟩ := h.leads (d + 1) us _ (by omega) first
    (follows_mark (m := .leftParen) (by decide) (by decide) place arrows)
  obtain ⟨k, rfl⟩ := Nat.exists_succ room
  obtain ⟨t, more, rfl, _⟩ := follow.stops
  refine ⟨.call e' args', k, by simp only [Expr.forget, same, same'], ?_, ?_⟩
  · simp only [List.length_cons, List.length_append] at room ⊢
    omega
  · rw [List.append_assoc, List.cons_append, List.append_assoc]
    exact read.trans (accessFrom_args e' k rfl (inside.opens.ne_nil inner _)
      (inside.opens.not_eat (by decide) inner _) ((bind_read rfl _).trans read') rfl)

end Access

section Signs

variable {target : Target}

theorem UnaryOp.opens (op : UnaryOp) : Opens 3 op.kind := by
  cases op with
  | not => exact .inr (.inr ⟨by decide, by decide⟩)
  | negate => exact .inr (.inr ⟨by decide, by decide⟩)
  | toNumber => exact .inr (.inr ⟨by decide, by decide⟩)
  | typeOf => exact fun tight => absurd tight (by decide)

theorem UnaryOp.shown (op : UnaryOp) (h : Shown ks) : Shown (op.kind :: ks) := by
  cases op with
  | not => exact h.mark (by decide)
  | negate => exact h.mark (by decide)
  | toNumber => exact h.mark (by decide)
  | typeOf => exact h.word (by decide)

theorem phrase_unary (op : UnaryOp) (h : Phrase ks 3 e) : Phrase (op.kind :: ks) 3 (.unary op e) := by
  refine ⟨⟨_, _, rfl, op.opens⟩, op.shown h.shown, ?_⟩
  intro n m ts rest deep enough spells follow
  obtain ⟨place, us, rfl, others⟩ := spells.cons
  rw [List.length_cons] at deep enough
  obtain ⟨m, rfl⟩ := Nat.exists_succ enough
  obtain ⟨e', same, read⟩ := h.leads n m us rest (by omega) (by omega) others follow
  have sign : unaryOp? ⟨op.kind, place, false⟩ = some op := by cases op <;> rfl
  exact ⟨.unary op e', by simp only [Expr.forget, same],
    unaryFrom_op sign (h.opens.ne_nil others rest) read⟩

theorem phrase_before (op : UpdateOp) (h : Phrase ks 3 target.toExpr) :
    Phrase (.mark op.mark :: ks) 3 (.update op true target) := by
  have sign : Opens 3 (.mark op.mark) := .inr (.inr ⟨by decide, by cases op <;> decide⟩)
  refine ⟨⟨_, _, rfl, sign⟩, h.shown.mark (by cases op <;> decide), ?_⟩
  intro n m ts rest deep enough spells follow
  obtain ⟨place, us, rfl, others⟩ := spells.cons
  rw [List.length_cons] at deep enough
  obtain ⟨m, rfl⟩ := Nat.exists_succ enough
  obtain ⟨e', same, read⟩ := h.leads n m us rest (by omega) (by omega) others follow
  obtain ⟨target', found, alike⟩ := target?_of_forget same
  refine ⟨.update op true target', by simp only [Expr.forget, alike], ?_⟩
  exact unaryFrom_update op (by cases op <;> rfl) (by cases op <;> rfl)
    (h.opens.ne_nil others rest) read found

theorem phrase_after (op : UpdateOp) (h : Phrase ks 1 target.toExpr) :
    Phrase (ks ++ [.mark op.mark]) 2 (.update op false target) := by
  have arrow : op.mark ≠ .arrow := by cases op <;> decide
  refine ⟨(h.opens.looser (by decide)).append _, h.shown.append (shown_nil.mark arrow), ?_⟩
  intro n ts rest deep spells follow
  obtain ⟨us, vs, rfl, first, others⟩ := spells.append
  obtain ⟨place, rfl⟩ := others.single
  rw [List.length_append] at deep
  obtain ⟨e', same, read⟩ := h.reads (Nat.le_refl 1) (by decide) n us _ (by omega) first
    (follows_mark (m := op.mark) (by cases op <;> decide) arrow place follow.arrows)
  obtain ⟨target', found, alike⟩ := target?_of_forget same
  refine ⟨.update op false target', by simp only [Expr.forget, alike], ?_⟩
  rw [List.append_assoc]
  exact afterOver_update op read (by cases op <;> rfl) rfl found follow.ne_nil

end Signs

end EmitterLogic.Script
