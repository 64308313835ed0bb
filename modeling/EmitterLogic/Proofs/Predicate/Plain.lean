import EmitterLogic.Proofs.Predicate.Gate
import EmitterLogic.Proofs.Script.CodeReading
import EmitterLogic.Proofs.Script.Passing

namespace EmitterLogic.Predicate

open Script Script.Parser

mutual

/-- Trees without texts, lists, objects, functions, elements and sequences, in which each call has at
most one argument and no blocked word names anything. -/
def PlainExpr : Expr → Prop
  | .number _ => True
  | .literal _ => True
  | .name id _ => id ∉ blockedWords
  | .member holder property => PlainExpr holder ∧ property ∉ blockedWords
  | .call callee args => PlainExpr callee ∧ args.length ≤ 1 ∧ PlainArgs args
  | .unary _ arg => PlainExpr arg
  | .update _ _ target => PlainTarget target
  | .binary op left right => op ≠ .sequence ∧ PlainExpr left ∧ PlainExpr right
  | .logical _ left right => PlainExpr left ∧ PlainExpr right
  | .conditional test yes no => PlainExpr test ∧ PlainExpr yes ∧ PlainExpr no
  | .assign _ target value => PlainTarget target ∧ PlainExpr value
  | .text _ => False
  | .index _ _ => False
  | .list _ => False
  | .object _ => False
  | .func _ => False

def PlainTarget : Target → Prop
  | .name id _ => id ∉ blockedWords
  | .member holder property => PlainExpr holder ∧ property ∉ blockedWords
  | .index _ _ => False

def PlainArgs : List Expr → Prop
  | [] => True
  | e :: rest => PlainExpr e ∧ PlainArgs rest

end

theorem plain_target {e : Expr} {target : Target} (h : PlainExpr e)
    (found : e.target? = some target) : PlainTarget target := by
  cases e
  case name => cases found; exact h
  case member => cases found; exact h
  case index => cases h
  all_goals cases found

def PlainTokens (ts : List Token) : Prop := ∀ t ∈ ts, IsPlain t.kind

section Tokens

variable {ts : List Token} {t : Token} {m : Mark}

theorem PlainTokens.front (h : PlainTokens ts) : IsPlain (front ts).kind := by
  cases ts with
  | nil => trivial
  | cons t rest => exact h t List.mem_cons_self

theorem PlainTokens.behind (h : PlainTokens ts) : PlainTokens (behind ts) :=
  fun t ht => h t (behind_subset ts ht)

theorem plain_mark (h : IsPlain t.kind) (mark : t.mark? = some m) : IsPlain (.mark m) := by
  obtain ⟨kind, place, broken⟩ := t
  cases kind <;> cases mark
  exact h

theorem PlainTokens.noArrow (h : PlainTokens ts) : NoArrow ts := by
  intro t ht
  refine Bool.eq_false_iff.mpr fun arrow => ?_
  exact plain_mark (h t ht) (isMark_iff.mp arrow) (by decide)

end Tokens

def Gives {α : Type} (p : Parser α) (Q : α → Prop) : Prop :=
  ∀ ts a us, PlainTokens ts → p ts = .ok (a, us) → Q a ∧ PlainTokens us

namespace Gives

section Combinators

variable {α β : Type} {p : Parser α} {f : α → Parser β} {Q : α → Prop} {R : β → Prop}

theorem value {a : α} (h : Q a) : Gives (pure a) Q := by
  intro ts b us plain read
  cases read
  exact ⟨h, plain⟩

theorem bind (h : Gives p Q) (next : ∀ a, Q a → Gives (f a) R) : Gives (p >>= f) R := by
  intro ts b us plain
  refine Script.of_bind fun a vs first second => ?_
  obtain ⟨ha, plain⟩ := h ts a vs plain first
  exact next a ha vs b us plain second

theorem failAt (cause : SyntaxCause) (t : Token) : Gives (failAt cause t) Q := by
  intro ts a us _ read
  cases read

theorem refuse (t : Token) : Gives (refuse t) Q := by
  unfold Parser.refuse
  split
  · exact failAt _ t
  · exact failAt _ t

theorem choose {c : Prop} [Decidable c] {q : Parser α} (h : Gives p Q) (h' : Gives q Q) :
    Gives (if c then p else q) Q := by
  split
  · exact h
  · exact h'

theorem get : Gives get PlainTokens := by
  intro ts a us plain read
  cases read
  exact ⟨plain, plain⟩

theorem peek : Gives peek fun t => IsPlain t.kind := by
  intro ts a us plain read
  cases read
  exact ⟨plain.front, plain⟩

theorem next : Gives next fun _ => True := by
  intro ts a us plain read
  cases read
  exact ⟨trivial, plain.behind⟩

theorem remaining : Gives remaining fun _ => True := by
  intro ts a us plain read
  cases read
  exact ⟨trivial, plain⟩

theorem refuseFront : Gives refuseFront Q := peek.bind fun t _ => refuse t

theorem refused : Gives (Parser.refuseFront >>= f) R :=
  (refuseFront (Q := fun _ => False)).bind fun _ none => none.elim

theorem eat (m : Mark) : Gives (eat m) fun b => b = true → IsPlain (.mark m) := by
  have here : Gives (atMark m) fun b => b = true → IsPlain (.mark m) :=
    peek.bind fun t plain => value fun mark => plain_mark plain (isMark_iff.mp mark)
  refine here.bind fun b plain => ?_
  cases b with
  | true => exact next.bind fun _ _ => value plain
  | false => exact value plain

theorem expect (m : Mark) : Gives (expect m) fun _ => True := by
  refine (eat m).bind fun b _ => ?_
  cases b with
  | true => exact value trivial
  | false => exact refuseFront

theorem commaList (h : Gives p Q) (n : Nat) : Gives (commaList p n) fun as => ∃ a, Q a ∧ as = [a] := by
  cases n with
  | zero => exact refuseFront
  | succ n =>
    refine h.bind fun a ha => (eat .comma).bind fun b comma => ?_
    cases b with
    | true => exact absurd (by decide) (comma rfl)
    | false => exact value ⟨a, ha, rfl⟩

end Combinators

section Grammar

variable {A : Parser Expr} {S : Parser Stmt} (hA : Gives A PlainExpr)

def Makes (op? : Mark → Option (Expr → Expr → Expr)) : Prop :=
  ∀ m make, IsPlain (.mark m) → op? m = some make →
    ∀ a b, PlainExpr a → PlainExpr b → PlainExpr (make a b)

theorem chainFrom {op? : Mark → Option (Expr → Expr → Expr)} {operand : Parser Expr} {left : Expr}
    (makes : Makes op?) (h : Gives operand PlainExpr) (hleft : PlainExpr left) (n : Nat) :
    Gives (chainFrom op? operand left n) PlainExpr := by
  induction n generalizing left with
  | zero => exact value hleft
  | succ n ih =>
    refine peek.bind fun t plain => ?_
    cases found : t.mark?.bind op? with
    | none => exact value hleft
    | some make =>
      obtain ⟨m, mark, here⟩ := Option.bind_eq_some_iff.mp found
      have made := makes m make (plain_mark plain mark) here
      exact next.bind fun _ _ => h.bind fun right hright => ih (made left right hleft hright)

theorem chain {op? : Mark → Option (Expr → Expr → Expr)} {operand : Parser Expr}
    (makes : Makes op?) (h : Gives operand PlainExpr) : Gives (chain op? operand) PlainExpr :=
  h.bind fun _ hleft => remaining.bind fun n _ => chainFrom makes h hleft n

theorem chains {ls : List (Mark → Option (Expr → Expr → Expr))} {operand : Parser Expr}
    (makes : ∀ op? ∈ ls, Makes op?) (h : Gives operand PlainExpr) :
    Gives (chains ls operand) PlainExpr := by
  induction ls generalizing operand with
  | nil => exact h
  | cons op? ls ih =>
    rw [List.forall_mem_cons] at makes
    exact ih makes.2 (chain makes.1 h)

theorem levels_make : ∀ op? ∈ levels, Makes op? := by
  intro op? level m make _ found a b ha hb
  simp only [levels, List.mem_cons, List.not_mem_nil, or_false] at level
  rcases level with rfl | rfl | rfl | rfl | rfl | rfl
  all_goals cases m
  all_goals cases found
  case inr.inr.inr.inr.inl.and => exact ⟨ha, hb⟩
  case inr.inr.inr.inr.inr.or => exact ⟨ha, hb⟩
  all_goals exact ⟨by decide, ha, hb⟩

include hA

theorem expressionOver : Gives (expressionOver A) PlainExpr := by
  refine chain (fun m make plain found => ?_) hA
  split at found
  · next comma =>
    rw [beq_iff_eq.mp comma] at plain
    exact absurd (by decide) plain
  · cases found

omit hA in
theorem wordOver {w : String} (t : Token) (h : w ∉ blockedWords) :
    Gives (wordOver A S w t) PlainExpr := by
  unfold Script.wordOver
  split
  · exact next.bind fun _ _ => value trivial
  · split
    · next function =>
      rw [beq_iff_eq.mp function] at h
      exact absurd (by decide) h
    · split
      · exact failAt _ t
      · exact next.bind fun _ _ => value h

theorem primaryOver : Gives (primaryOver A S) PlainExpr := by
  refine peek.bind fun t plain => ?_
  split
  · exact next.bind fun _ _ => value trivial
  · next kind =>
    rw [kind] at plain
    cases plain
  · next kind =>
    rw [kind] at plain
    exact wordOver t plain
  · exact next.bind fun _ _ => (expressionOver hA).bind fun e he =>
      (expect _).bind fun _ _ => value he
  · next kind =>
    rw [kind] at plain
    exact absurd (by decide) plain
  · next kind =>
    rw [kind] at plain
    exact absurd (by decide) plain
  · exact refuse t

theorem accessFrom {e : Expr} (he : PlainExpr e) (n : Nat) :
    Gives (accessFrom A e n) PlainExpr := by
  induction n generalizing e with
  | zero => exact value he
  | succ n ih =>
    refine (eat .dot).bind fun dot _ => ?_
    cases dot with
    | true =>
      refine peek.bind fun t plain => ?_
      split
      · next w kind =>
        rw [kind] at plain
        exact next.bind fun _ _ => ih ⟨he, plain⟩
      · exact refuseFront
    | false =>
      refine (eat .leftParen).bind fun opening _ => ?_
      cases opening with
      | true =>
        refine (eat .rightParen).bind fun closing _ => ?_
        cases closing with
        | true => exact ih ⟨he, Nat.zero_le 1, trivial⟩
        | false =>
          refine (remaining.bind fun k _ => commaList hA k).bind fun args single => ?_
          obtain ⟨a, ha, rfl⟩ := single
          exact (expect _).bind fun _ _ => ih ⟨he, Nat.le_refl 1, ha, trivial⟩
      | false =>
        refine (eat .leftBracket).bind fun bracket plain => ?_
        cases bracket with
        | true => exact absurd (by decide) (plain rfl)
        | false => exact value he

theorem accessOver : Gives (accessOver A S) PlainExpr :=
  (primaryOver hA).bind fun _ he => remaining.bind fun n _ => accessFrom hA he n

theorem afterOver : Gives (afterOver A S) PlainExpr := by
  refine (accessOver hA).bind fun e he => peek.bind fun t _ => ?_
  cases t.mark?.bind updateOp? with
  | none => exact value he
  | some op =>
    refine choose (value he) ?_
    cases found : e.target? with
    | none => exact failAt _ t
    | some target => exact next.bind fun _ _ => value (plain_target he found)

theorem unaryFrom (n : Nat) : Gives (unaryFrom A S n) PlainExpr := by
  induction n with
  | zero => exact afterOver hA
  | succ n ih =>
    refine peek.bind fun t _ => ?_
    split
    · exact next.bind fun _ _ => ih.bind fun e he => value he
    · refine next.bind fun _ _ => ih.bind fun e he => ?_
      cases found : e.target? with
      | none => exact failAt _ t
      | some target => exact value (plain_target he found)
    · exact afterOver hA

theorem operatorsOver : Gives (operatorsOver A S) PlainExpr := by
  rw [operatorsOver_eq]
  exact chains levels_make (remaining.bind fun n _ => unaryFrom hA n)

theorem conditionalOver : Gives (conditionalOver A S) PlainExpr := by
  refine (operatorsOver hA).bind fun test htest => (eat .question).bind fun b _ => ?_
  cases b with
  | true =>
    exact hA.bind fun yes hyes => (expect _).bind fun _ _ => hA.bind fun no hno =>
      value ⟨htest, hyes, hno⟩
  | false => exact value htest

theorem assignmentOver : Gives (assignmentOver A S) PlainExpr := by
  refine get.bind fun ts plain => ?_
  rw [arrowAhead_false plain.noArrow]
  refine (conditionalOver hA).bind fun left hleft => peek.bind fun t _ => ?_
  cases t.mark?.bind assignOp? with
  | none => exact value hleft
  | some op =>
    refine next.bind fun _ _ => ?_
    cases found : left.target? with
    | none => exact failAt _ t
    | some target => exact hA.bind fun e he => value ⟨plain_target hleft found, he⟩

end Grammar

theorem assignment (n : Nat) : Gives (assignment n) PlainExpr := by
  induction n with
  | zero =>
    rw [Script.assignment]
    exact refuseFront
  | succ n ih =>
    rw [Script.assignment]
    exact assignmentOver ih

theorem wholeExpression : Gives wholeExpression PlainExpr := by
  have expression : Gives expression PlainExpr :=
    remaining.bind fun n _ => expressionOver (assignment (n + 1))
  refine peek.bind fun _ _ => choose refused ?_
  exact expression.bind fun e he => peek.bind fun _ _ => choose refused (value he)

end Gives

theorem parseExpression_plain {text : String} {e : Expr} (h : isAllowed text = true)
    (read : parseExpression text = .ok e) : PlainExpr e := by
  obtain ⟨ts, us, lexed, parsed⟩ := parseExpression_ok read
  exact (Gives.wholeExpression ts e us (tokens_plain h lexed) parsed).1

theorem compile_reads {text : String} {p : Predicate} (h : compile text = .ok p) :
    isAllowed text = true ∧ parseExpression text = .ok p.expr := by
  rw [compile] at h
  split at h
  · cases h
  split at h
  · cases h
  next allowed =>
  split at h
  · next e read =>
    cases h
    exact ⟨by simpa using allowed, read⟩
  · cases h

theorem compile_plain {source : String} {p : Predicate} (h : compile source = .ok p) :
    PlainExpr p.expr :=
  parseExpression_plain (compile_reads h).1 (compile_reads h).2

end EmitterLogic.Predicate
