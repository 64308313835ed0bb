import Mathlib.Data.List.Chain
import EmitterLogic.Proofs.Predicate.Plain

namespace EmitterLogic

namespace Script

def TokenKind.endsEqual : TokenKind → Bool
  | .mark m => m.text.toList.getLast? == some '='
  | _ => false

def TokenKind.beginsEqual : TokenKind → Bool
  | .mark m => m.text.toList.head? == some '='
  | _ => false

def TokenKind.Apart (k k' : TokenKind) : Prop := k.endsEqual = true → k'.beginsEqual = false

end Script

namespace Predicate

open Script Script.Parser

variable {ts us vs mid rest : List Token} {t u : Token} {m : Mark}

structure Balanced (ts : List Token) : Prop where
  some : ts ≠ []
  apart : ts.IsChain fun t u => t.kind.Apart u.kind
  first : ∀ t ∈ ts.head?, t.kind.beginsEqual = false
  last : ∀ t ∈ ts.getLast?, t.kind.endsEqual = false

namespace Balanced

theorem one (begins : t.kind.beginsEqual = false) (ends : t.kind.endsEqual = false) :
    Balanced [t] where
  some := List.cons_ne_nil t []
  apart := .singleton t
  first := by
    rintro _ ⟨⟩
    exact begins
  last := by
    rintro _ ⟨⟩
    exact ends

theorem joined (h : Balanced ts) (t : Token) (h' : Balanced us) : Balanced (ts ++ t :: us) := by
  obtain ⟨u, vs, rfl⟩ := List.exists_cons_of_ne_nil h'.some
  refine ⟨List.append_ne_nil_of_left_ne_nil h.some _, ?_, ?_, ?_⟩
  · rw [List.isChain_append]
    refine ⟨h.apart, .cons_cons (fun _ => h'.first u rfl) h'.apart, fun x last y head => ?_⟩
    exact fun ends => absurd ((h.last x last).symm.trans ends) Bool.false_ne_true
  · intro x head
    rw [List.head?_append_of_ne_nil _ h.some] at head
    exact h.first x head
  · intro x last
    rw [List.getLast?_append, List.getLast?_cons_cons, List.getLast?_eq_some_getLast h'.some] at last
    exact h'.last x (by rwa [List.getLast?_eq_some_getLast h'.some])

theorem cons (begins : t.kind.beginsEqual = false) (h : Balanced ts) : Balanced (t :: ts) := by
  obtain ⟨u, vs, rfl⟩ := List.exists_cons_of_ne_nil h.some
  refine ⟨List.cons_ne_nil _ _, .cons_cons (fun _ => h.first u rfl) h.apart, ?_, ?_⟩
  · rintro _ ⟨⟩
    exact begins
  · intro x last
    rw [List.getLast?_cons_cons] at last
    exact h.last x last

theorem concat (h : Balanced ts) (ends : t.kind.endsEqual = false) : Balanced (ts ++ [t]) := by
  refine ⟨List.append_ne_nil_of_left_ne_nil h.some _, ?_, ?_, ?_⟩
  · rw [List.isChain_append]
    refine ⟨h.apart, .singleton t, fun x last y head ends => ?_⟩
    rw [h.last x last] at ends
    cases ends
  · intro x head
    rw [List.head?_append_of_ne_nil _ h.some] at head
    exact h.first x head
  · intro x last
    rw [List.getLast?_concat] at last
    cases last
    exact ends

end Balanced

def Leaves (ts us : List Token) : Prop := ∃ cs, ts = cs ++ us ∧ Balanced cs ∧ Ended us

def Extends (ts us : List Token) : Prop :=
  ∃ cs, ts = cs ++ us ∧ Ended us ∧ ∀ bs, Balanced bs → Balanced (bs ++ cs)

theorem Leaves.ended (h : Leaves ts us) : Ended us := h.choose_spec.2.2

theorem Leaves.plain (h : Leaves ts us) (plain : PlainTokens ts) : PlainTokens us := by
  obtain ⟨cs, rfl, _⟩ := h
  exact fun t member => plain t (List.mem_append_right cs member)

theorem Extends.here (ended : Ended ts) (same : us = ts) : Extends ts us :=
  ⟨[], same.symm, same ▸ ended, fun bs h => by rwa [List.append_nil]⟩

theorem Extends.trans (h : Extends ts us) (h' : Extends us vs) : Extends ts vs := by
  obtain ⟨cs, rfl, _, goes⟩ := h
  obtain ⟨ds, rfl, ended, goes'⟩ := h'
  refine ⟨cs ++ ds, by rw [List.append_assoc], ended, fun bs balanced => ?_⟩
  rw [← List.append_assoc]
  exact goes' _ (goes bs balanced)

theorem Leaves.trans (h : Leaves ts us) (h' : Extends us vs) : Leaves ts vs := by
  obtain ⟨cs, rfl, balanced, _⟩ := h
  obtain ⟨ds, rfl, ended, goes⟩ := h'
  exact ⟨cs ++ ds, by rw [List.append_assoc], goes cs balanced, ended⟩

theorem Leaves.operation (h : Leaves ts us) (t : Token) : Extends (t :: ts) us := by
  obtain ⟨cs, rfl, balanced, ended⟩ := h
  exact ⟨t :: cs, rfl, ended, fun bs h => h.joined t balanced⟩

theorem Leaves.cons (h : Leaves ts us) (begins : t.kind.beginsEqual = false) : Leaves (t :: ts) us := by
  obtain ⟨cs, rfl, balanced, ended⟩ := h
  exact ⟨t :: cs, rfl, balanced.cons begins, ended⟩

theorem Leaves.one (begins : t.kind.beginsEqual = false) (ends : t.kind.endsEqual = false)
    (ended : Ended ts) : Leaves (t :: ts) ts := ⟨[t], rfl, .one begins ends, ended⟩

theorem Extends.mark (ends : t.kind.endsEqual = false) (ended : Ended ts) : Extends (t :: ts) ts :=
  ⟨[t], rfl, ended, fun _ h => h.concat ends⟩

def Reaches (p : Parser Expr) : Prop :=
  ∀ ts e us, Ended ts → PlainTokens ts → p ts = .ok (e, us) → Leaves ts us

section Grammar

variable {A : Parser Expr} {S : Parser Stmt} {operand : Parser Expr} {e : Expr}
  {op? : Mark → Option (Expr → Expr → Expr)}

theorem chainFrom_extends (h : Reaches operand) {left : Expr} {n : Nat} (ended : Ended ts)
    (plain : PlainTokens ts) : Parser.chainFrom op? operand left n ts = .ok (e, us) → Extends ts us := by
  induction n generalizing left ts with
  | zero => exact of_pure fun _ same => .here ended same
  | succ n ih =>
    refine of_peek ?_
    cases found : (front ts).mark?.bind op? with
    | none => exact of_pure fun _ same => .here ended same
    | some make =>
      have goes : (front ts).kind ≠ .finish := by
        intro finish
        rw [Token.mark?, finish] at found
        cases found
      refine of_next ended goes fun t mid given ended' => of_bind fun right mid' read => ?_
      subst given
      have plain' : PlainTokens mid := fun t member => plain t (List.mem_cons_of_mem _ member)
      have right := h mid right mid' ended' plain' read
      exact fun run => (right.operation t).trans (ih right.ended (right.plain plain') run)

theorem Reaches.chain (h : Reaches operand) : Reaches (Parser.chain op? operand) := by
  intro ts e us ended plain
  refine of_bind fun left mid read => ?_
  have first := h ts left mid ended plain read
  exact fun run => first.trans (chainFrom_extends h first.ended (first.plain plain) run)

theorem Reaches.chains (h : Reaches operand) (ls : List (Mark → Option (Expr → Expr → Expr))) :
    Reaches (chains ls operand) := by
  induction ls generalizing operand with
  | nil => exact h
  | cons op? ls ih => exact ih h.chain

theorem wordOver_leaves {w : String} (kind : t.kind = .word w) (plain : w ∉ blockedWords)
    (ended : Ended (t :: ts)) : wordOver A S w t (t :: ts) = .ok (e, us) → Leaves (t :: ts) us := by
  have goes : (front (t :: ts)).kind ≠ .finish := by
    have same : (front (t :: ts)).kind = t.kind := rfl
    rw [same, kind]
    exact nofun
  have word {e' : Expr} : (do let _ ← next; return e' : Parser Expr) (t :: ts) = .ok (e, us) →
      Leaves (t :: ts) us := by
    refine of_next ended goes fun u more given later => of_pure fun _ same => ?_
    cases given
    subst same
    exact .one (by rw [kind]; rfl) (by rw [kind]; rfl) later
  unfold wordOver
  cases literalOf? w with
  | some l => exact word
  | none =>
    dsimp only
    split
    · next function =>
      rw [beq_iff_eq.mp function] at plain
      exact absurd (by decide) plain
    · split
      · exact of_failAt
      · exact word

theorem updateOp_ends {op : UpdateOp} (h : t.mark?.bind updateOp? = some op) :
    t.kind ≠ .finish ∧ t.kind.beginsEqual = false ∧ t.kind.endsEqual = false := by
  obtain ⟨m, mark, found⟩ := mark_of_bind h
  rw [kind_of_isMark mark]
  cases m <;> first | cases found; done | exact ⟨nofun, rfl, rfl⟩

theorem unaryOp_begins {op : UnaryOp} (h : unaryOp? t = some op) :
    t.kind ≠ .finish ∧ t.kind.beginsEqual = false := by
  rw [unaryOp?] at h
  split at h
  all_goals first | cases h; done | skip
  all_goals
    next kind =>
      rw [kind]
      exact ⟨nofun, rfl⟩

variable (hA : Reaches A)

include hA

theorem Reaches.primaryOver : Reaches (primaryOver A S) := by
  intro ts e us ended plain
  refine of_peek ?_
  obtain ⟨t, mid, rfl⟩ := ended.exists_cons
  rw [PlainTokens, List.forall_mem_cons] at plain
  cases kind : (front (t :: mid)).kind with
  | number x =>
    refine of_next ended (by rw [kind]; exact nofun) fun u more given later => of_pure fun _ same => ?_
    cases given
    subst same
    have kind : t.kind = .number x := kind
    exact .one (by rw [kind]; rfl) (by rw [kind]; rfl) later
  | text s =>
    have kind : t.kind = .text s := kind
    rw [kind] at plain
    cases plain.1
  | word w =>
    have kind : t.kind = .word w := kind
    have word : w ∉ blockedWords := by
      rw [kind] at plain
      exact plain.1
    exact wordOver_leaves kind word ended
  | finish => exact of_refuse
  | mark m =>
    have opening : t.kind = .mark m := kind
    rw [opening] at plain
    cases m with
    | leftParen =>
      refine of_next ended (by rw [kind]; exact nofun)
        fun u more given later => of_bind fun e' mid' inner => ?_
      cases given
      obtain ⟨cs, rfl, balanced, ended'⟩ := hA.chain _ _ _ later plain.2 inner
      refine of_expect ended' fun c more given closing later' => of_pure fun _ same => ?_
      subst given same
      refine ⟨t :: (cs ++ [c]), by simp, ?_, later'⟩
      exact (balanced.concat (by rw [kind_of_isMark closing]; rfl)).cons (by rw [opening]; rfl)
    | leftBracket => exact absurd (by decide) plain.1
    | leftBrace => exact absurd (by decide) plain.1
    | _ => exact of_refuse

theorem commaSeparated_leaves {es : List Expr} (ended : Ended ts) (plain : PlainTokens ts) :
    commaSeparated A ts = .ok (es, us) → Leaves ts us := by
  refine of_bind fun n mid count => ?_
  cases count
  generalize ts.length = n
  cases n with
  | zero => exact of_refuseFront
  | succ n =>
    refine of_bind fun a mid read => ?_
    have first := hA ts a mid ended plain read
    refine of_eat first.ended (fun t mid' given comma => ?_) fun _ => of_pure fun _ same => same ▸ first
    subst given
    exact absurd (by decide)
      (plain_mark (first.plain plain t List.mem_cons_self) (isMark_iff.mp comma))

theorem accessFrom_extends {e' : Expr} {n : Nat} (ended : Ended ts) (plain : PlainTokens ts) :
    accessFrom A e' n ts = .ok (e, us) → Extends ts us := by
  -- On the fuel; each round extends what the round before has read.
  induction n generalizing e' ts with
  | zero => exact of_pure fun _ same => .here ended same
  | succ n ih =>
    refine of_eat ended (fun t mid given dot later => of_peek ?_) fun _ => ?_
    · subst given
      rw [PlainTokens, List.forall_mem_cons] at plain
      cases kind : (front mid).kind with
      | word w =>
        refine of_next later (by rw [kind]; exact nofun) fun u more given later' run => ?_
        subst given
        have kind : u.kind = .word w := kind
        have rest := ih later' (List.forall_mem_cons.mp plain.2).2 run
        refine (Extends.mark ?_ later).trans ((Extends.mark ?_ later').trans rest)
        · rw [kind_of_isMark dot]
          rfl
        · rw [kind]
          rfl
      | _ => exact of_refuseFront
    · refine of_eat ended (fun t mid given opening later => ?_) fun _ => ?_
      · subst given
        rw [PlainTokens, List.forall_mem_cons] at plain
        have opens : Extends (t :: mid) mid := .mark (by rw [kind_of_isMark opening]; rfl) later
        refine of_eat later (fun c more given closing later' run => ?_) fun _ => ?_
        · subst given
          have rest := ih later' (List.forall_mem_cons.mp plain.2).2 run
          exact opens.trans ((Extends.mark (by rw [kind_of_isMark closing]; rfl) later').trans rest)
        · refine of_bind fun es mid' args => ?_
          have inside := commaSeparated_leaves hA later plain.2 args
          refine of_expect inside.ended fun c more given closing later' run => ?_
          subst given
          have plain' := inside.plain plain.2
          rw [PlainTokens, List.forall_mem_cons] at plain'
          have rest := ih later' plain'.2 run
          exact (inside.operation t).trans
            ((Extends.mark (by rw [kind_of_isMark closing]; rfl) later').trans rest)
      · refine of_eat ended (fun t mid given bracket => ?_) fun _ => of_pure fun _ same => .here ended same
        subst given
        exact absurd (by decide) (plain_mark (plain t List.mem_cons_self) (isMark_iff.mp bracket))

theorem Reaches.accessOver : Reaches (accessOver A S) := by
  intro ts e us ended plain
  refine of_bind fun e' mid first => of_bind fun n mid' count => ?_
  cases count
  have primary := hA.primaryOver ts e' mid ended plain first
  exact fun run => primary.trans (accessFrom_extends hA primary.ended (primary.plain plain) run)

theorem Reaches.afterOver : Reaches (afterOver A S) := by
  intro ts e us ended plain
  refine of_bind fun e' mid first => of_peek ?_
  have operand := hA.accessOver ts e' mid ended plain first
  have done : (pure e' : Parser Expr) mid = .ok (e, us) → Leaves ts us :=
    of_pure fun _ same => same ▸ operand
  cases update : (front mid).mark?.bind updateOp? with
  | none => exact done
  | some op =>
    dsimp only
    split
    · exact done
    · cases e'.target? with
      | none => exact of_failAt
      | some target =>
        obtain ⟨goes, _, ends⟩ := updateOp_ends update
        refine of_next operand.ended goes fun t more given later => of_pure fun _ same => ?_
        subst given same
        exact operand.trans (.mark ends later)

theorem Reaches.unaryFrom (n : Nat) : Reaches (unaryFrom A S n) := by
  induction n with
  | zero => exact hA.afterOver
  | succ n ih =>
    intro ts e us ended plain
    refine of_peek ?_
    cases unary : unaryOp? (front ts) with
    | some op =>
      obtain ⟨goes, begins⟩ := unaryOp_begins unary
      refine of_next ended goes fun t mid given later => of_bind fun e' mid' run =>
        of_pure fun _ same => ?_
      subst given same
      exact (ih mid e' _ later (List.forall_mem_cons.mp plain).2 run).cons begins
    | none =>
      cases update : (front ts).mark?.bind updateOp? with
      | none => exact hA.afterOver ts e us ended plain
      | some op =>
        obtain ⟨goes, begins, _⟩ := updateOp_ends update
        refine of_next ended goes fun t mid given later => of_bind fun e' mid' run => ?_
        subst given
        have operand := ih mid e' mid' later (List.forall_mem_cons.mp plain).2 run
        cases e'.target? with
        | none => exact of_failAt
        | some target => exact of_pure fun _ same => same ▸ operand.cons begins

theorem Reaches.operatorsOver : Reaches (operatorsOver A S) := by
  rw [operatorsOver_eq]
  refine Reaches.chains ?_ levels
  intro ts e us ended plain
  refine of_bind fun n mid count => ?_
  cases count
  exact hA.unaryFrom _ ts e us ended plain

theorem Reaches.conditionalOver : Reaches (conditionalOver A S) := by
  intro ts e us ended plain
  refine of_bind fun test mid first => ?_
  have operand := hA.operatorsOver ts test mid ended plain first
  have plain' := operand.plain plain
  refine of_eat operand.ended (fun t more given question later => ?_) fun _ =>
    of_pure fun _ same => same ▸ operand
  subst given
  have plain' := (List.forall_mem_cons.mp plain').2
  refine of_bind fun yes mid second => ?_
  have yes' := hA more yes mid later plain' second
  refine of_expect yes'.ended fun c more' given colon later' => of_bind fun no mid' third =>
    of_pure fun _ same => ?_
  subst given same
  have no' := hA more' no _ later' (List.forall_mem_cons.mp (yes'.plain plain')).2 third
  exact operand.trans ((yes'.operation t).trans (no'.operation c))

theorem Reaches.assignmentOver : Reaches (assignmentOver A S) := by
  intro ts e us ended plain
  refine of_bind fun all mid look => ?_
  cases look
  rw [arrowAhead_false plain.noArrow]
  refine of_bind fun left mid first => of_peek ?_
  have operand := hA.conditionalOver _ left mid ended plain first
  cases assign : (front mid).mark?.bind assignOp? with
  | none => exact of_pure fun _ same => same ▸ operand
  | some op =>
    have goes : (front mid).kind ≠ .finish := by
      obtain ⟨m, mark, _⟩ := mark_of_bind assign
      rw [kind_of_isMark mark]
      exact nofun
    refine of_next operand.ended goes fun t more given later => ?_
    subst given
    cases left.target? with
    | none => exact of_failAt
    | some target =>
      refine of_bind fun value mid' second => of_pure fun _ same => ?_
      subst same
      have value' := hA more value _ later
        (List.forall_mem_cons.mp (operand.plain plain)).2 second
      exact operand.trans (value'.operation t)

end Grammar

theorem Reaches.assignment (n : Nat) : Reaches (assignment n) := by
  induction n with
  | zero =>
    intro ts e us _ _
    rw [Script.assignment]
    exact of_refuseFront
  | succ n ih =>
    rw [Script.assignment]
    exact ih.assignmentOver

theorem compile_balanced {text : String} {p : Predicate} (h : compile text = .ok p) {ts : List Token}
    (lexed : tokens text = .ok ts) (ended : Ended ts) :
    ∃ cs us, ts = cs ++ us ∧ Balanced cs ∧ (front us).isFinish = true := by
  obtain ⟨allowed, parsed⟩ := compile_reads h
  obtain ⟨ts', us, lexed', whole⟩ := parseExpression_ok parsed
  cases lexed.symm.trans lexed'
  obtain ⟨read, finish⟩ := wholeExpression_ok whole
  revert read
  refine of_bind fun n mid count run => ?_
  cases count
  obtain ⟨cs, split, balanced, _⟩ :=
    (Reaches.assignment _).chain ts p.expr us ended (tokens_plain allowed lexed) run
  exact ⟨cs, us, split, balanced, finish⟩

end Predicate

end EmitterLogic
