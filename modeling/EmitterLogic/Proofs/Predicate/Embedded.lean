import EmitterLogic.Proofs.Predicate.Plain
import EmitterLogic.Proofs.Script.Enclosed
import EmitterLogic.Proofs.Script.Printing

namespace EmitterLogic.Predicate

open Script Script.Parser

def Same (e e' : Expr) : Prop := e'.forget = e.forget

theorem Same.target {e e' : Expr} {target : Target} (same : Same e e')
    (found : e.target? = some target) :
    ∃ target', e'.target? = some target' ∧ target'.forget = target.forget := by
  refine target?_of_forget ?_
  have expr : e = target.toExpr := by
    cases e <;> cases found <;> rfl
  rw [← expr]
  exact same

inductive Carried (d : Nat) (closing : List Token) : List Token → List Token → Prop where
  | stop {t : Token} (finish : t.kind = .finish) : Carried d closing [t] closing
  | go {t : Token} {ts ts' : List Token} (goes : t.kind ≠ .finish) (plain : IsPlain t.kind)
    (more : Carried d closing ts ts') : Carried d closing (t :: ts) (t.moved d :: ts')

def Carries {α β : Type} (d : Nat) (closing : List Token) (k : Nat) (ts ts' : List Token)
    (p : Parser α) (p' : Parser β) (R : α → β → Prop) : Prop :=
  ∀ a us, p ts = .ok (a, us) → ∃ a' us', p' ts' = .ok (a', us') ∧ R a a' ∧
    Carried d closing us us' ∧ us.length + k ≤ ts.length

def Moves (d : Nat) (closing : List Token) (p p' : Parser Expr) : Prop :=
  ∀ ts ts', Carried d closing ts ts' → Carries d closing 1 ts ts' p p' Same

variable {d k : Nat} {close : Token} {rest closing ts ts' : List Token}

namespace Carried

theorem pos (h : Carried d closing ts ts') : 0 < ts.length := by
  cases h <;> exact Nat.succ_pos _

theorem ne_nil (h : Carried d closing ts ts') : ts ≠ [] := List.ne_nil_of_length_pos h.pos

theorem length_le (h : Carried d (close :: rest) ts ts') : ts.length ≤ ts'.length := by
  induction h with
  | stop finish => exact Nat.succ_le_succ (Nat.zero_le _)
  | go goes plain more ih => exact Nat.succ_le_succ ih

theorem ne_nil' (h : Carried d (close :: rest) ts ts') : ts' ≠ [] :=
  List.ne_nil_of_length_pos (Nat.lt_of_lt_of_le h.pos h.length_le)

theorem noArrow (h : Carried d closing ts ts') : NoArrow ts := by
  induction h with
  | stop finish =>
    refine List.forall_mem_singleton.mpr ?_
    rw [Token.isMark, finish]
  | go goes plain more ih =>
    refine .cons (Bool.eq_false_iff.mpr fun arrow => ?_) ih
    exact plain_mark plain (isMark_iff.mp arrow) (by decide)

theorem noArrow' (arrows : NoArrow closing) (h : Carried d closing ts ts') : NoArrow ts' := by
  induction h with
  | stop finish => exact arrows
  | go goes plain more ih =>
    refine .cons (Bool.eq_false_iff.mpr fun arrow => ?_) ih
    exact plain_mark plain (isMark_iff.mp arrow) (by decide)

theorem append (goes : ∀ t ∈ ts, t.kind ≠ .finish) (plain : ∀ t ∈ ts, IsPlain t.kind) {last : Token}
    (finish : last.kind = .finish) :
    Carried d closing (ts ++ [last]) (ts.map (Token.moved d) ++ closing) := by
  induction ts with
  | nil => exact .stop finish
  | cons t ts ih =>
    rw [List.forall_mem_cons] at goes plain
    exact .go goes.1 plain.1 (ih goes.2 plain.2)

theorem of_finish (h : Carried d closing ts ts') (finish : (front ts).isFinish = true) :
    ts' = closing := by
  cases h with
  | stop => rfl
  | @go t us us' goes plain more =>
    refine absurd ?_ goes
    rw [front, List.head?_cons, Option.getD_some, Token.isFinish] at finish
    split at finish
    · next kind => exact kind
    · cases finish

end Carried

namespace Carries

section Combinators

variable {α α' β β' : Type} {p : Parser α} {p' : Parser α'} {f : α → Parser β} {f' : α' → Parser β'}
  {R : α → α' → Prop} {Q : β → β' → Prop}

theorem value (h : Carried d closing ts ts') {a : α} {a' : α'} (same : R a a') :
    Carries d closing 0 ts ts' (pure a) (pure a') R := by
  intro b us read
  cases read
  exact ⟨a', ts', rfl, same, h, Nat.le_refl _⟩

theorem of_error {cause : Failure} (h : p ts = .error cause) : Carries d closing k ts ts' p p' R := by
  intro a us read
  rw [h] at read
  cases read

theorem failAt (cause : SyntaxCause) (t : Token) :
    Carries d closing k ts ts' (failAt cause t : Parser α) p' R := of_error rfl

theorem refuse (t : Token) : Carries d closing k ts ts' (refuse t : Parser α) p' R := by
  rw [Parser.refuse]
  split
  · exact failAt _ t
  · exact failAt _ t

theorem refuseFront : Carries d closing k ts ts' (refuseFront : Parser α) p' R :=
  refuse (front ts)

theorem bind (h : Carries d closing k ts ts' p p' R)
    (next : ∀ a a' us us', R a a' → Carried d closing us us' → us.length + k ≤ ts.length →
      Carries d closing 0 us us' (f a) (f' a') Q) :
    Carries d closing k ts ts' (p >>= f) (p' >>= f') Q := by
  intro b vs
  refine Script.of_bind fun a us first second => ?_
  obtain ⟨a', us', first', same, carried, le⟩ := h a us first
  obtain ⟨b', vs', second', same', carried', le'⟩ := next a a' us us' same carried le b vs second
  exact ⟨b', vs', (bind_read first' _).trans second', same', carried', by omega⟩

theorem weaken {j : Nat} (h : Carries d closing k ts ts' p p' R) (le : j ≤ k) :
    Carries d closing j ts ts' p p' R := by
  intro a us read
  obtain ⟨a', us', read', same, carried, le'⟩ := h a us read
  exact ⟨a', us', read', same, carried, by omega⟩

theorem next {f : Token → Parser β} {f' : Token → Parser β'} {t : Token}
    (h : Carried d (close :: rest) ts ts')
    (after : Carries d (close :: rest) k ts ts' (f t) (f' (t.moved d)) Q) :
    Carries d (close :: rest) (k + 1) (t :: ts) (t.moved d :: ts') (next >>= f) (next >>= f') Q := by
  intro b us read
  rw [bind_read (next_cons h.ne_nil)] at read
  obtain ⟨b', us', read', same, carried, le⟩ := after b us read
  refine ⟨b', us', (bind_read (next_cons h.ne_nil') _).trans read', same, carried, ?_⟩
  rw [List.length_cons]
  omega

theorem peek {f : Token → Parser β} {f' : Token → Parser β'} (h : Carried d (close :: rest) ts ts')
    (last : ∀ t, t.kind = .finish → ts = [t] →
      Carries d (close :: rest) k [t] (close :: rest) (f t) (f' close) Q)
    (go : ∀ t us us', t.kind ≠ .finish → IsPlain t.kind → Carried d (close :: rest) us us' →
      us.length + 1 = ts.length →
      Carries d (close :: rest) k (t :: us) (t.moved d :: us') (f t) (f' (t.moved d)) Q) :
    Carries d (close :: rest) k ts ts' (peek >>= f) (peek >>= f') Q := by
  cases h with
  | stop finish => exact last _ finish rfl
  | go goes plain more => exact go _ _ _ goes plain more rfl

theorem remaining {f : Nat → Parser β} {f' : Nat → Parser β'}
    (after : Carries d closing k ts ts' (f ts.length) (f' ts'.length) Q) :
    Carries d closing k ts ts' (remaining >>= f) (remaining >>= f') Q := after

theorem eat {f : Bool → Parser β} {f' : Bool → Parser β'} {m : Mark}
    (h : Carried d (close :: rest) ts ts') (other : close.isMark m = false)
    (yes : ∀ us us', IsPlain (.mark m) → Carried d (close :: rest) us us' →
      us.length + 1 = ts.length → Carries d (close :: rest) 0 us us' (f true) (f' true) Q)
    (no : Carries d (close :: rest) 0 ts ts' (f false) (f' false) Q) :
    Carries d (close :: rest) 0 ts ts' (eat m >>= f) (eat m >>= f') Q := by
  cases h with
  | @stop t finish =>
    have none : t.isMark m = false := by rw [Token.isMark, finish]
    intro b us read
    rw [bind_read (eat_other none)] at read
    obtain ⟨b', us', read', found⟩ := no b us read
    exact ⟨b', us', (bind_read (eat_other other) _).trans read', found⟩
  | @go t us us' goes plain more =>
    intro b vs read
    cases mark : t.isMark m with
    | true =>
      have mark' : (t.moved d).isMark m = true := mark
      rw [bind_read (eat_cons mark more.ne_nil)] at read
      obtain ⟨b', vs', read', same, carried, le⟩ :=
        yes us us' (plain_mark plain (isMark_iff.mp mark)) more rfl b vs read
      exact ⟨b', vs', (bind_read (eat_cons mark' more.ne_nil') _).trans read', same, carried,
        Nat.le_succ_of_le le⟩
    | false =>
      have mark' : (t.moved d).isMark m = false := mark
      rw [bind_read (eat_other mark)] at read
      obtain ⟨b', vs', read', found⟩ := no b vs read
      exact ⟨b', vs', (bind_read (eat_other mark') _).trans read', found⟩

theorem expect {m : Mark} (h : Carried d (close :: rest) ts ts') :
    Carries d (close :: rest) 1 ts ts' (expect m) (expect m) fun _ _ => True := by
  cases h with
  | @stop t finish =>
    have none : t.isMark m = false := by rw [Token.isMark, finish]
    intro b vs read
    have refused : Carries d (close :: rest) 1 [t] (close :: rest)
        (Parser.refuseFront : Parser Unit) (Parser.expect m) fun _ _ => True := refuseFront
    rw [Parser.expect, bind_read (eat_other none)] at read
    exact refused b vs read
  | @go t us us' goes plain more =>
    intro b vs read
    cases mark : t.isMark m with
    | true =>
      have mark' : (t.moved d).isMark m = true := mark
      rw [expect_cons mark more.ne_nil] at read
      cases read
      exact ⟨(), us', expect_cons mark' more.ne_nil', trivial, more, Nat.le_refl _⟩
    | false =>
      have refused : Carries d (close :: rest) 1 (t :: us) (t.moved d :: us')
          (Parser.refuseFront : Parser Unit) (Parser.expect m) fun _ _ => True := refuseFront
      rw [Parser.expect, bind_read (eat_other mark)] at read
      exact refused b vs read

end Combinators

section Grammar

variable {A A' operand operand' : Parser Expr} {S S' : Parser Stmt}

theorem levels_same : ∀ op? ∈ levels, ∀ m make, op? m = some make →
    ∀ a a' b b', Same a a' → Same b b' → Same (make a b) (make a' b') := by
  intro op? level m make found a a' b b' ha hb
  simp only [levels, List.mem_cons, List.not_mem_nil, or_false] at level
  rcases level with rfl | rfl | rfl | rfl | rfl | rfl
  all_goals cases m
  all_goals cases found
  all_goals
    simp only [Same, Expr.forget] at ha hb ⊢
    rw [ha, hb]

theorem chainFrom {op? : Mark → Option (Expr → Expr → Expr)} {left left' : Expr} {n n' : Nat}
    (closes : close.mark?.bind op? = none)
    (makes : ∀ m make, op? m = some make →
      ∀ a a' b b', Same a a' → Same b b' → Same (make a b) (make a' b'))
    (moves : Moves d (close :: rest) operand operand') (h : Carried d (close :: rest) ts ts')
    (same : Same left left') (le : ts.length ≤ n) (le' : ts.length ≤ n') :
    Carries d (close :: rest) 0 ts ts' (chainFrom op? operand left n)
      (chainFrom op? operand' left' n') Same := by
  induction n generalizing left left' n' ts ts' with
  | zero => exact absurd h.pos (by omega)
  | succ n ih =>
    obtain ⟨m, rfl⟩ : ∃ m, n' = m + 1 := ⟨n' - 1, by have := h.pos; omega⟩
    refine peek h (fun t finish _ => ?_) fun t us us' goes plain more length => ?_
    · have none : t.mark? = none := by rw [Token.mark?, finish]
      rw [none, closes]
      exact value (.stop finish) same
    · have moved : (t.moved d).mark? = t.mark? := rfl
      rw [moved]
      cases found : t.mark?.bind op? with
      | none => exact value (.go goes plain more) same
      | some make =>
        obtain ⟨mark, _, here⟩ := Option.bind_eq_some_iff.mp found
        refine weaken (next more ?_) (Nat.zero_le 1)
        refine weaken ((moves us us' more).bind fun right right' vs vs' same' more' length' => ?_)
          (Nat.zero_le 1)
        exact ih more' (makes mark make here _ _ _ _ same same') (by omega) (by omega)

theorem chain {op? : Mark → Option (Expr → Expr → Expr)} (closes : close.mark?.bind op? = none)
    (makes : ∀ m make, op? m = some make →
      ∀ a a' b b', Same a a' → Same b b' → Same (make a b) (make a' b'))
    (moves : Moves d (close :: rest) operand operand') :
    Moves d (close :: rest) (chain op? operand) (chain op? operand') := fun _ _ h =>
  (moves _ _ h).bind fun _ _ _ _ same more _ => remaining
    (chainFrom closes makes moves more same (Nat.le_refl _) more.length_le)

theorem chains {ls : List (Mark → Option (Expr → Expr → Expr))}
    (closes : ∀ op? ∈ ls, close.mark?.bind op? = none)
    (makes : ∀ op? ∈ ls, ∀ m make, op? m = some make →
      ∀ a a' b b', Same a a' → Same b b' → Same (make a b) (make a' b'))
    (moves : Moves d (close :: rest) operand operand') :
    Moves d (close :: rest) (chains ls operand) (chains ls operand') := by
  induction ls generalizing operand operand' with
  | nil => exact moves
  | cons op? ls ih =>
    rw [List.forall_mem_cons] at makes closes
    exact ih closes.2 makes.2 (chain closes.1 makes.1 moves)

variable (closes : close.kind = .mark .rightParen) (hA : Moves d (close :: rest) A A')

include closes

theorem other_mark {m : Mark} (other : m ≠ .rightParen) : close.isMark m = false :=
  not_isMark (by rw [Token.mark?, closes]) (Ne.symm other)

theorem no_operator {β : Type} {f : Mark → Option β} (none : f .rightParen = none) :
    close.mark?.bind f = Option.none := by
  rw [Token.mark?, closes]
  exact none

omit closes in
theorem wordOver {w : String} {t : Token} (h : Carried d (close :: rest) ts ts')
    (plain : w ∉ blockedWords) :
    Carries d (close :: rest) 1 (t :: ts) (t.moved d :: ts') (wordOver A S w t)
      (wordOver A' S' w (t.moved d)) Same := by
  unfold Script.wordOver
  split
  · exact next h (value h rfl)
  · split
    · next function =>
      rw [beq_iff_eq.mp function] at plain
      exact absurd (by decide) plain
    · split
      · exact failAt _ t
      · exact next h (value h rfl)

include hA

theorem expressionOver : Moves d (close :: rest) (expressionOver A) (expressionOver A') := by
  refine chain (no_operator closes rfl) (fun m make found a a' b b' ha hb => ?_) hA
  split at found
  · cases found
    simp only [Same, Expr.forget] at ha hb ⊢
    rw [ha, hb]
  · cases found

theorem primaryOver : Moves d (close :: rest) (primaryOver A S) (primaryOver A' S') := by
  intro ts ts' h
  refine peek h (fun t finish _ => ?_) fun t us us' goes plain more _ => ?_
  · rw [finish]
    exact refuse t
  · have kind : (t.moved d).kind = t.kind := rfl
    rw [kind]
    split
    · exact next more (value more rfl)
    · next kind =>
      rw [kind] at plain
      cases plain
    · next kind =>
      rw [kind] at plain
      exact wordOver more plain
    · refine next more (weaken ((expressionOver closes hA us us' more).bind
        fun e e' vs vs' same more' _ => ?_) (Nat.zero_le 1))
      exact weaken ((expect more').bind fun _ _ ws ws' _ more'' _ => value more'' same)
        (Nat.zero_le 1)
    · next kind =>
      rw [kind] at plain
      exact absurd (by decide) plain
    · next kind =>
      rw [kind] at plain
      exact absurd (by decide) plain
    · exact refuse t

theorem commaSeparated (h : Carried d (close :: rest) ts ts') :
    Carries d (close :: rest) 1 ts ts' (commaSeparated A) (commaSeparated A')
      fun as as' => forgetAll as' = forgetAll as := by
  refine remaining ?_
  obtain ⟨n, length⟩ : ∃ n, ts.length = n + 1 := ⟨ts.length - 1, by have := h.pos; omega⟩
  obtain ⟨m, length'⟩ : ∃ m, ts'.length = m + 1 :=
    ⟨ts'.length - 1, by have := h.pos; have := h.length_le; omega⟩
  rw [length, length']
  refine (hA ts ts' h).bind fun a a' us us' same more _ => ?_
  refine eat more (other_mark closes (by decide)) (fun vs vs' comma => ?_) (value more ?_)
  · exact absurd (by decide) comma
  · have first : a'.forget = a.forget := same
    rw [forgetAll, first]
    rfl

theorem callFrom {f f' : List Expr → Parser Expr} (h : Carried d (close :: rest) ts ts')
    (after : ∀ args args' us us', forgetAll args' = forgetAll args →
      Carried d (close :: rest) us us' → us.length < ts.length →
      Carries d (close :: rest) 0 us us' (f args) (f' args') Same) :
    Carries d (close :: rest) 0 ts ts'
      (do if ← Parser.eat .rightParen then f []
          else
            let args ← Parser.commaSeparated A
            Parser.expect .rightParen
            f args)
      (do if ← Parser.eat .rightParen then f' []
          else
            let args ← Parser.commaSeparated A'
            Parser.expect .rightParen
            f' args) Same := by
  cases h with
  | @stop t finish =>
    have none : t.isMark .rightParen = false := by rw [Token.isMark, finish]
    have missing : Carries d (close :: rest) 0 [t] (close :: rest) (Parser.commaSeparated A)
        (Parser.eat .rightParen) fun _ _ => False := by
      intro args us read
      obtain ⟨_, _, _, _, more, le⟩ := commaSeparated closes hA (.stop finish) args us read
      exact absurd more.pos (by rw [List.length_singleton] at le; omega)
    intro b us read
    rw [bind_read (eat_other none)] at read
    exact missing.bind (fun _ _ _ _ wrong => wrong.elim) b us read
  | @go t us us' goes plain more =>
    cases mark : t.isMark .rightParen with
    | true =>
      have mark' : (t.moved d).isMark .rightParen = true := mark
      intro b vs read
      rw [bind_read (eat_cons mark more.ne_nil)] at read
      obtain ⟨b', vs', read', same, carried, le⟩ :=
        after [] [] us us' rfl more (Nat.lt_succ_self _) b vs read
      exact ⟨b', vs', (bind_read (eat_cons mark' more.ne_nil') _).trans read', same, carried,
        Nat.le_succ_of_le le⟩
    | false =>
      have mark' : (t.moved d).isMark .rightParen = false := mark
      intro b vs read
      rw [bind_read (eat_other mark)] at read
      have given := (commaSeparated closes hA (.go goes plain more)).bind
        fun args args' ws ws' list more' _ => weaken ((expect (m := .rightParen) more').bind
          fun _ _ xs xs' _ more'' _ => after args args' xs xs' list more'' (by omega))
          (Nat.zero_le 1)
      obtain ⟨b', vs', read', found⟩ := weaken given (Nat.zero_le 1) b vs read
      exact ⟨b', vs', (bind_read (eat_other mark') _).trans read', found⟩

theorem accessFrom {e e' : Expr} {n n' : Nat} (h : Carried d (close :: rest) ts ts')
    (same : Same e e') (le : ts.length ≤ n) (le' : ts.length ≤ n') :
    Carries d (close :: rest) 0 ts ts' (accessFrom A e n) (accessFrom A' e' n') Same := by
  have expr : e'.forget = e.forget := same
  induction n generalizing e e' n' ts ts' with
  | zero => exact absurd h.pos (by omega)
  | succ n ih =>
    obtain ⟨m, rfl⟩ : ∃ m, n' = m + 1 := ⟨n' - 1, by have := h.pos; omega⟩
    refine eat h (other_mark closes (by decide)) (fun us us' _ more length => ?_) ?_
    · refine peek more (fun t finish _ => ?_) fun t vs vs' _ _ more' length' => ?_
      · rw [finish]
        exact refuseFront
      · have kind : (t.moved d).kind = t.kind := rfl
        rw [kind]
        split
        · next w _ =>
          have member : (Expr.member e' w).forget = (Expr.member e w).forget := by
            rw [Expr.forget, Expr.forget, expr]
          exact weaken (next more' (ih more' member (by omega) (by omega) member)) (Nat.zero_le 1)
        · exact refuseFront
    refine eat h (other_mark closes (by decide)) (fun us us' _ more length => ?_) ?_
    · refine callFrom closes hA more fun args args' vs vs' list more' length' => ?_
      have call : (Expr.call e' args').forget = (Expr.call e args).forget := by
        rw [Expr.forget, Expr.forget, expr, list]
      exact ih more' call (by omega) (by omega) call
    refine eat h (other_mark closes (by decide)) (fun us us' bracket => ?_) (value h same)
    exact absurd (by decide) bracket

theorem accessOver : Moves d (close :: rest) (accessOver A S) (accessOver A' S') := fun ts ts' h =>
  (primaryOver closes hA ts ts' h).bind fun _ _ _ _ same more _ =>
    remaining (accessFrom closes hA more same (Nat.le_refl _) more.length_le)

theorem afterOver : Moves d (close :: rest) (afterOver A S) (afterOver A' S') := by
  intro ts ts' h
  refine (accessOver closes hA ts ts' h).bind fun e e' us us' same more _ => ?_
  refine peek more (fun t finish _ => ?_) fun t vs vs' goes plain more' _ => ?_
  · have none : t.mark? = none := by rw [Token.mark?, finish]
    rw [none, no_operator closes rfl]
    exact value (.stop finish) same
  · have moved : (t.moved d).mark? = t.mark? := rfl
    rw [moved]
    cases t.mark?.bind updateOp? with
    | none => exact value (.go goes plain more') same
    | some op =>
      have breaks : (t.moved d).afterBreak = t.afterBreak := rfl
      dsimp only
      rw [breaks]
      split
      · exact value (.go goes plain more') same
      · cases found : e.target? with
        | none => exact failAt _ t
        | some target =>
          obtain ⟨target', found', forget⟩ := same.target found
          rw [found']
          refine weaken (next more' (value more' ?_)) (Nat.zero_le 1)
          rw [Same, Expr.forget, Expr.forget, forget]

theorem unaryFrom {n n' : Nat} (h : Carried d (close :: rest) ts ts') (le : ts.length ≤ n)
    (le' : ts.length ≤ n') :
    Carries d (close :: rest) 1 ts ts' (unaryFrom A S n) (unaryFrom A' S' n') Same := by
  induction n generalizing n' ts ts' with
  | zero => exact absurd h.pos (by omega)
  | succ n ih =>
    obtain ⟨m, rfl⟩ : ∃ m, n' = m + 1 := ⟨n' - 1, by have := h.pos; omega⟩
    refine peek h (fun t finish single => ?_) fun t us us' goes plain more length => ?_
    · have none : t.mark? = none := by rw [Token.mark?, finish]
      have unary : unaryOp? t = Option.none := by rw [unaryOp?, finish]
      have unary' : unaryOp? close = Option.none := by rw [unaryOp?, closes]
      rw [none, unary, unary', no_operator closes rfl]
      exact afterOver closes hA _ _ (.stop finish)
    · have unary : unaryOp? (t.moved d) = unaryOp? t := rfl
      have moved : (t.moved d).mark? = t.mark? := rfl
      rw [unary, moved]
      split
      · refine next more (weaken ((ih more (by omega) (by omega)).bind
          fun e e' vs vs' same more' _ => value more' ?_) (Nat.zero_le 1))
        have expr : e'.forget = e.forget := same
        rw [Same, Expr.forget, Expr.forget, expr]
      · refine next more (weaken ((ih more (by omega) (by omega)).bind
          fun e e' vs vs' same more' _ => ?_) (Nat.zero_le 1))
        cases found : e.target? with
        | none => exact failAt _ t
        | some target =>
          obtain ⟨target', found', forget⟩ := same.target found
          rw [found']
          refine value more' ?_
          rw [Same, Expr.forget, Expr.forget, forget]
      · exact afterOver closes hA _ _ (.go goes plain more)

theorem operatorsOver : Moves d (close :: rest) (operatorsOver A S) (operatorsOver A' S') := by
  rw [operatorsOver_eq, operatorsOver_eq]
  have none : ∀ op? ∈ levels, op? .rightParen = none := none_of_all rfl
  refine chains (fun op? level => no_operator closes (none op? level)) levels_same fun ts ts' h => ?_
  exact remaining (unaryFrom closes hA h (Nat.le_refl _) h.length_le)

theorem conditionalOver : Moves d (close :: rest) (conditionalOver A S) (conditionalOver A' S') := by
  intro ts ts' h
  refine (operatorsOver closes hA ts ts' h).bind fun test test' us us' same more _ => ?_
  refine eat more (other_mark closes (by decide)) (fun vs vs' _ more' _ => ?_) (value more same)
  refine weaken ((hA vs vs' more').bind fun yes yes' ws ws' sameYes more'' _ => ?_) (Nat.zero_le 1)
  refine weaken ((expect more'').bind fun _ _ xs xs' _ more₃ _ => ?_) (Nat.zero_le 1)
  refine weaken ((hA xs xs' more₃).bind fun no no' ys ys' sameNo more₄ _ => value more₄ ?_)
    (Nat.zero_le 1)
  have forgets : test'.forget = test.forget ∧ yes'.forget = yes.forget ∧ no'.forget = no.forget :=
    ⟨same, sameYes, sameNo⟩
  rw [Same, Expr.forget, Expr.forget, forgets.1, forgets.2.1, forgets.2.2]

theorem assignmentOver (arrows : NoArrow (close :: rest)) :
    Moves d (close :: rest) (assignmentOver A S) (assignmentOver A' S') := by
  intro ts ts' h b us read
  have look (vs : List Token) : (get : Parser (List Token)) vs = .ok (vs, vs) := rfl
  rw [Script.assignmentOver, bind_read (look ts), arrowAhead_false h.noArrow] at read
  rw [Script.assignmentOver, bind_read (look ts'), arrowAhead_false (h.noArrow' arrows)]
  refine (conditionalOver closes hA ts ts' h).bind (fun left left' us us' same more _ => ?_) b us read
  refine peek more (fun t finish _ => ?_) fun t vs vs' goes plain more' _ => ?_
  · have none : t.mark? = none := by rw [Token.mark?, finish]
    rw [none, no_operator closes rfl]
    exact value (.stop finish) same
  · have moved : (t.moved d).mark? = t.mark? := rfl
    rw [moved]
    cases t.mark?.bind assignOp? with
    | none => exact value (.go goes plain more') same
    | some op =>
      refine weaken (next more' ?_) (Nat.zero_le 1)
      cases found : left.target? with
      | none => exact failAt _ t
      | some target =>
        obtain ⟨target', found', forget⟩ := same.target found
        rw [found']
        refine weaken ((hA vs vs' more').bind fun e e' ws ws' sameValue more'' _ =>
          value more'' ?_) (Nat.zero_le 1)
        have expr : e'.forget = e.forget := sameValue
        rw [Same, Expr.forget, Expr.forget, forget, expr]

end Grammar

theorem assignment (closes : close.kind = .mark .rightParen) (arrows : NoArrow (close :: rest))
    {n n' : Nat} (le : n ≤ n') : Moves d (close :: rest) (assignment n) (assignment n') := by
  induction n generalizing n' with
  | zero =>
    intro ts ts' h
    rw [Script.assignment]
    exact refuseFront
  | succ n ih =>
    obtain ⟨m, rfl⟩ : ∃ m, n' = m + 1 := ⟨n' - 1, by omega⟩
    rw [Script.assignment, Script.assignment]
    exact assignmentOver closes (ih (Nat.le_of_succ_le_succ le)) arrows

end Carries

end EmitterLogic.Predicate
