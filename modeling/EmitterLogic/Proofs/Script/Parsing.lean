import EmitterLogic.Script.Parser

namespace EmitterLogic.Script

open Script.Parser

namespace Parser

variable {α β : Type} {ts us : List Token}

theorem bind_read {p : Parser α} {a : α} (h : p ts = .ok (a, us)) (f : α → Parser β) :
    (p >>= f) ts = f a us := by
  have unfolded : (p >>= f) ts = (p ts >>= fun r => f r.1 r.2) := rfl
  rw [unfolded, h]
  rfl

theorem bind_failed {p : Parser α} {e : Failure} (h : p ts = .error e) (f : α → Parser β) :
    (p >>= f) ts = .error e := by
  have unfolded : (p >>= f) ts = (p ts >>= fun r => f r.1 r.2) := rfl
  rw [unfolded, h]
  rfl

variable {t : Token} {rest : List Token}

theorem behind_cons (h : rest ≠ []) : behind (t :: rest) = rest := by
  cases rest with
  | nil => exact absurd rfl h
  | cons u rest => rfl

theorem next_cons (h : rest ≠ []) : next (t :: rest) = .ok (t, rest) := by
  have unfolded : next (t :: rest) = .ok (t, behind (t :: rest)) := rfl
  rw [unfolded, behind_cons h]

theorem eat_cons {m : Mark} (mark : t.isMark m = true) (h : rest ≠ []) :
    eat m (t :: rest) = .ok (true, rest) := by
  have unfolded : eat m (t :: rest) =
      (if t.isMark m = true then (do let _ ← next; return true) else return false : Parser Bool)
        (t :: rest) := rfl
  rw [unfolded, if_pos mark]
  exact bind_read (next_cons h) _

theorem eat_other {m : Mark} (mark : t.isMark m = false) :
    eat m (t :: rest) = .ok (false, t :: rest) := by
  have unfolded : eat m (t :: rest) =
      (if t.isMark m = true then (do let _ ← next; return true) else return false : Parser Bool)
        (t :: rest) := rfl
  rw [unfolded, mark]
  rfl

theorem expect_cons {m : Mark} (mark : t.isMark m = true) (h : rest ≠ []) :
    expect m (t :: rest) = .ok ((), rest) := by
  refine (bind_read (eat_cons mark h) _).trans ?_
  rfl

variable {op? : Mark → Option (Expr → Expr → Expr)} {operand : Parser Expr} {left right : Expr}

theorem chainFrom_stop (none : t.mark?.bind op? = none) (n : Nat) :
    chainFrom op? operand left n (t :: rest) = .ok (left, t :: rest) := by
  cases n with
  | zero => rfl
  | succ n =>
    refine (bind_read (a := t) rfl _).trans ?_
    rw [none]
    rfl

theorem chainFrom_go {u : Token} {make : Expr → Expr → Expr} {n : Nat}
    (found : u.mark?.bind op? = some make) (more : ts ≠ [])
    (h : operand ts = .ok (right, us)) :
    chainFrom op? operand left (n + 1) (u :: ts) = chainFrom op? operand (make left right) n us := by
  refine (bind_read (a := u) rfl _).trans ?_
  rw [found]
  exact (bind_read (next_cons more) _).trans (bind_read h _)

theorem chain_stop (h : operand ts = .ok (left, t :: rest)) (none : t.mark?.bind op? = none) :
    chain op? operand ts = .ok (left, t :: rest) :=
  ((bind_read h _).trans (bind_read rfl _)).trans (chainFrom_stop none _)

theorem chain_once {u : Token} {make : Expr → Expr → Expr}
    (first : operand ts = .ok (left, u :: us)) (found : u.mark?.bind op? = some make)
    (second : operand us = .ok (right, t :: rest)) (none : t.mark?.bind op? = none)
    (more : us ≠ []) : chain op? operand ts = .ok (make left right, t :: rest) := by
  refine ((bind_read first _).trans (bind_read rfl _)).trans ?_
  rw [List.length_cons]
  exact (chainFrom_go found more second).trans (chainFrom_stop none _)

end Parser

section Marks

variable {t u : Token} {m m' : Mark}

theorem isMark_iff {m : Mark} : t.isMark m = true ↔ t.mark? = some m := by
  obtain ⟨kind, place, broken⟩ := t
  cases kind <;> simp [Token.isMark, Token.mark?]

theorem not_isMark {u : Token} {m m' : Mark} (h : u.mark? = some m) (other : m ≠ m') :
    u.isMark m' = false := by
  rw [Bool.eq_false_iff]
  intro mark
  rw [isMark_iff, h] at mark
  exact other (Option.some.inj mark)

end Marks

section Arrows

def NoArrow (ts : List Token) : Prop := ∀ t ∈ ts, t.isMark .arrow = false

theorem NoArrow.append {ts us : List Token} (h : NoArrow ts) (h' : NoArrow us) :
    NoArrow (ts ++ us) := List.forall_mem_append.mpr ⟨h, h'⟩

theorem NoArrow.cons {t : Token} {ts : List Token} (h : t.isMark .arrow = false)
    (h' : NoArrow ts) : NoArrow (t :: ts) := List.forall_mem_cons.mpr ⟨h, h'⟩

theorem NoArrow.of_subset {ts us : List Token} (h : NoArrow us) (sub : ts ⊆ us) : NoArrow ts :=
  fun t ht => h t (sub ht)

theorem behind_subset (ts : List Token) : behind ts ⊆ ts := by
  match ts with
  | [] => exact fun _ h => h
  | [_] => exact fun _ h => h
  | _ :: _ :: _ => exact fun _ h => List.mem_cons_of_mem _ h

theorem fromClosing_subset (depth : Int) (ts : List Token) : fromClosing depth ts ⊆ ts := by
  induction ts generalizing depth with
  | nil => exact fun _ h => h
  | cons t ts ih =>
    rw [fromClosing]
    split
    · exact fun _ h => h
    · exact fun u h => List.mem_cons_of_mem _ (ih _ h)

theorem arrowNext_false {ts : List Token} (h : NoArrow ts) : arrowNext ts = false := by
  cases ts with
  | nil => rfl
  | cons t ts =>
    have front : t.isMark .arrow = false := h t List.mem_cons_self
    have unfolded : arrowNext (t :: ts) = (t.isMark .arrow && !t.afterBreak) := rfl
    rw [unfolded, front]
    rfl

theorem arrowAhead_false {ts : List Token} (h : NoArrow ts) : arrowAhead ts = false := by
  have after : arrowNext (behind ts) = false := arrowNext_false (h.of_subset (behind_subset ts))
  have closed : NoArrow (fromClosing 0 ts) := h.of_subset (fromClosing_subset 0 ts)
  rw [arrowAhead]
  split
  · exact after
  · split
    · split
      · rfl
      · next close _ => exact arrowNext_false (closed.of_subset (behind_subset _))
    · rfl

end Arrows

section Grammar

variable {A : Parser Expr} {S : Parser Stmt} {t : Token} {more : List Token}

theorem primaryOver_number {u : Token} {x : Float} (kind : u.kind = .number x) :
    primaryOver A S (u :: t :: more) = .ok (.number x, t :: more) := by
  refine (bind_read (a := u) rfl _).trans ?_
  rw [kind]
  exact bind_read (next_cons (List.cons_ne_nil _ _)) _

theorem primaryOver_text {u : Token} {s : String} (kind : u.kind = .text s) :
    primaryOver A S (u :: t :: more) = .ok (.text s, t :: more) := by
  refine (bind_read (a := u) rfl _).trans ?_
  rw [kind]
  exact bind_read (next_cons (List.cons_ne_nil _ _)) _

theorem primaryOver_literal {u : Token} {w : String} {l : Literal} (kind : u.kind = .word w)
    (literal : literalOf? w = some l) :
    primaryOver A S (u :: t :: more) = .ok (.literal l, t :: more) := by
  refine (bind_read (a := u) rfl _).trans ?_
  rw [kind]
  have unfolded : wordOver A S w u (u :: t :: more) = .ok (.literal l, t :: more) := by
    rw [wordOver, literal]
    exact bind_read (next_cons (List.cons_ne_nil _ _)) _
  exact unfolded

theorem primaryOver_word {u : Token} {w : String} (kind : u.kind = .word w)
    (free : isReserved w = false) :
    primaryOver A S (u :: t :: more) = .ok (.name w u.position, t :: more) := by
  have other {v : String} (h : isReserved v = true) : (w == v) = false := by
    rw [beq_eq_false_iff_ne]
    rintro rfl
    rw [free] at h
    cases h
  have literal : literalOf? w = none := by
    simp only [literalOf?, other (v := "true") (by decide), other (v := "false") (by decide),
      other (v := "null") (by decide), other (v := "undefined") (by decide), Bool.false_eq_true,
      if_false]
  refine (bind_read (a := u) rfl _).trans ?_
  rw [kind]
  have unfolded : wordOver A S w u (u :: t :: more) = .ok (.name w u.position, t :: more) := by
    simp only [wordOver, literal, other (v := "function") (by decide), free, Bool.false_eq_true,
      if_false]
    exact bind_read (next_cons (List.cons_ne_nil _ _)) _
  exact unfolded

theorem primaryOver_parens {u w : Token} {ts : List Token} {e : Expr}
    (opening : u.kind = .mark .leftParen) (some : ts ≠ [])
    (h : expressionOver A ts = .ok (e, w :: t :: more))
    (closing : w.mark? = Option.some .rightParen) :
    primaryOver A S (u :: ts) = .ok (e, t :: more) := by
  refine (bind_read (a := u) rfl _).trans ?_
  rw [opening]
  refine (bind_read (next_cons some) _).trans ((bind_read h _).trans ?_)
  exact bind_read (expect_cons (isMark_iff.mpr closing) (List.cons_ne_nil _ _)) _

theorem accessFrom_ends (e : Expr) (dot : t.isMark .dot = false)
    (paren : t.isMark .leftParen = false) (bracket : t.isMark .leftBracket = false) (n : Nat) :
    accessFrom A e n (t :: more) = .ok (e, t :: more) := by
  cases n with
  | zero => rfl
  | succ n =>
    refine (bind_read (eat_other dot) _).trans ?_
    refine (bind_read (eat_other paren) _).trans ?_
    exact bind_read (eat_other bracket) _

theorem accessFrom_member {u w : Token} {word : String} (e : Expr) (n : Nat)
    (dot : u.isMark .dot = true) (kind : w.kind = .word word) :
    accessFrom A e (n + 1) (u :: w :: t :: more) = accessFrom A (.member e word) n (t :: more) := by
  refine (bind_read (eat_cons dot (List.cons_ne_nil _ _)) _).trans ?_
  refine (bind_read (a := w) rfl _).trans ?_
  rw [kind]
  exact bind_read (next_cons (List.cons_ne_nil _ _)) _

theorem accessFrom_call {u w : Token} (e : Expr) (n : Nat) (opening : u.isMark .leftParen = true)
    (closing : w.isMark .rightParen = true) :
    accessFrom A e (n + 1) (u :: w :: t :: more) = accessFrom A (.call e []) n (t :: more) := by
  refine (bind_read (eat_other (not_isMark (isMark_iff.mp opening) (by decide))) _).trans ?_
  refine (bind_read (eat_cons opening (List.cons_ne_nil _ _)) _).trans ?_
  exact bind_read (eat_cons closing (List.cons_ne_nil _ _)) _

theorem accessFrom_args {u w : Token} {ts : List Token} {args : List Expr} (e : Expr) (n : Nat)
    (opening : u.mark? = some .leftParen) (nonempty : ts ≠ [])
    (given : eat .rightParen ts = .ok (false, ts))
    (h : commaSeparated A ts = .ok (args, w :: t :: more)) (closing : w.mark? = some .rightParen) :
    accessFrom A e (n + 1) (u :: ts) = accessFrom A (.call e args) n (t :: more) := by
  refine (bind_read (eat_other (not_isMark opening (by decide))) _).trans ?_
  refine (bind_read (eat_cons (isMark_iff.mpr opening) nonempty) _).trans ?_
  refine (bind_read given _).trans ((bind_read h _).trans ?_)
  exact bind_read (expect_cons (isMark_iff.mpr closing) (List.cons_ne_nil _ _)) _

theorem accessFrom_index {u w : Token} {ts : List Token} {p : Expr} (e : Expr) (n : Nat)
    (opening : u.mark? = some .leftBracket) (nonempty : ts ≠ [])
    (h : expressionOver A ts = .ok (p, w :: t :: more)) (closing : w.mark? = some .rightBracket) :
    accessFrom A e (n + 1) (u :: ts) = accessFrom A (.index e p) n (t :: more) := by
  refine (bind_read (eat_other (not_isMark opening (by decide))) _).trans ?_
  refine (bind_read (eat_other (not_isMark opening (by decide))) _).trans ?_
  refine (bind_read (eat_cons (isMark_iff.mpr opening) nonempty) _).trans ?_
  refine (bind_read h _).trans ?_
  exact bind_read (expect_cons (isMark_iff.mpr closing) (List.cons_ne_nil _ _)) _

theorem afterOver_ok {ts : List Token} {e : Expr} (h : accessOver A S ts = .ok (e, t :: more))
    (update : t.mark?.bind updateOp? = none) : afterOver A S ts = .ok (e, t :: more) := by
  refine (bind_read h _).trans ((bind_read (a := t) rfl _).trans ?_)
  rw [update]
  rfl

theorem afterOver_update {u : Token} {ts : List Token} {e : Expr} {target : Target} (op : UpdateOp)
    (h : accessOver A S ts = .ok (e, u :: more)) (update : u.mark?.bind updateOp? = some op)
    (unbroken : u.afterBreak = false) (found : e.target? = some target) (nonempty : more ≠ []) :
    afterOver A S ts = .ok (.update op false target, more) := by
  refine (bind_read h _).trans ((bind_read (a := u) rfl _).trans ?_)
  simp only [update, unbroken, found, Bool.false_eq_true, if_false]
  exact bind_read (next_cons nonempty) _

theorem unaryFrom_operand {u : Token} {ts : List Token} {e : Expr}
    (unary : unaryOp? u = none) (update : u.mark?.bind updateOp? = none)
    (h : afterOver A S (u :: ts) = .ok (e, more)) (n : Nat) :
    unaryFrom A S n (u :: ts) = .ok (e, more) := by
  cases n with
  | zero => exact h
  | succ n =>
    refine (bind_read (a := u) rfl _).trans ?_
    rw [unary, update]
    exact h

theorem unaryFrom_op {u : Token} {ts : List Token} {e : Expr} {op : UnaryOp}
    (unary : unaryOp? u = Option.some op) (some : ts ≠ []) {n : Nat}
    (h : unaryFrom A S n ts = .ok (e, more)) :
    unaryFrom A S (n + 1) (u :: ts) = .ok (.unary op e, more) := by
  refine (bind_read (a := u) rfl _).trans ?_
  rw [unary]
  exact (bind_read (next_cons some) _).trans (bind_read h _)

theorem unaryFrom_update {u : Token} {ts : List Token} {e : Expr} {target : Target} (op : UpdateOp)
    (unary : unaryOp? u = none) (update : u.mark?.bind updateOp? = some op) (nonempty : ts ≠ [])
    {n : Nat} (h : unaryFrom A S n ts = .ok (e, more)) (found : e.target? = some target) :
    unaryFrom A S (n + 1) (u :: ts) = .ok (.update op true target, more) := by
  refine (bind_read (a := u) rfl _).trans ?_
  rw [unary, update]
  refine (bind_read (next_cons nonempty) _).trans ((bind_read h _).trans ?_)
  rw [found]
  rfl

theorem conditionalOver_ok {ts : List Token} {e : Expr}
    (h : operatorsOver A S ts = .ok (e, t :: more)) (question : t.isMark .question = false) :
    conditionalOver A S ts = .ok (e, t :: more) :=
  (bind_read h _).trans (bind_read (eat_other question) _)

theorem conditionalOver_choice {u w : Token} {ts us vs : List Token} {test yes no : Expr}
    (h : operatorsOver A S ts = .ok (test, u :: us)) (question : u.isMark .question = true)
    (some : us ≠ []) (first : A us = .ok (yes, w :: vs)) (colon : w.isMark .colon = true)
    (some' : vs ≠ []) (second : A vs = .ok (no, more)) :
    conditionalOver A S ts = .ok (.conditional test yes no, more) := by
  refine (bind_read h _).trans ((bind_read (eat_cons question some) _).trans ?_)
  refine (bind_read first _).trans ((bind_read (expect_cons colon some') _).trans ?_)
  exact bind_read second _

theorem assignmentOver_ok {ts : List Token} {e : Expr} (arrows : NoArrow ts)
    (h : conditionalOver A S ts = .ok (e, t :: more)) (assign : t.mark?.bind assignOp? = none) :
    assignmentOver A S ts = .ok (e, t :: more) := by
  have look : (get : Parser (List Token)) ts = .ok (ts, ts) := rfl
  refine (bind_read look _).trans ?_
  rw [arrowAhead_false arrows]
  refine (bind_read h _).trans ((bind_read (a := t) rfl _).trans ?_)
  rw [assign]
  rfl

theorem assignmentOver_set {u : Token} {ts us : List Token} {e value : Expr} {op : AssignOp}
    {target : Target} (arrows : NoArrow ts) (h : conditionalOver A S ts = .ok (e, u :: us))
    (assign : u.mark?.bind assignOp? = some op) (nonempty : us ≠ []) (found : e.target? = some target)
    (right : A us = .ok (value, more)) :
    assignmentOver A S ts = .ok (.assign op target value, more) := by
  have look : (get : Parser (List Token)) ts = .ok (ts, ts) := rfl
  refine (bind_read look _).trans ?_
  rw [arrowAhead_false arrows]
  refine (bind_read h _).trans ((bind_read (a := u) rfl _).trans ?_)
  rw [assign]
  refine (bind_read (next_cons nonempty) _).trans ?_
  rw [found]
  exact bind_read right _

end Grammar

end EmitterLogic.Script
