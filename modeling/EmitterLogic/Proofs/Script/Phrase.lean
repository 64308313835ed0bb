import EmitterLogic.Proofs.Script.CodeReading
import EmitterLogic.Proofs.Script.Printing

namespace EmitterLogic.Script

open Script.Parser

section Levels

def operators : Nat → Mark → Option (Expr → Expr → Expr)
  | 4 => productOp?
  | 5 => sumOp?
  | 6 => relationOp?
  | 7 => equalityOp?
  | 8 => conjunctionOp?
  | 9 => disjunctionOp?
  | 11 => fun m => if m == .comma then some (.binary .sequence) else none
  | _ => fun _ => none

def reading (n : Nat) : Nat → Parser Expr
  | 0 => primaryOver (assignment n) (statement n)
  | 1 => accessOver (assignment n) (statement n)
  | 2 => afterOver (assignment n) (statement n)
  | 3 => unaryOver (assignment n) (statement n)
  | 10 => assignment (n + 1)
  | l + 1 => chain (operators (l + 1)) (reading n l)

inductive Chained : Nat → Prop where
  | product : Chained 4
  | sum : Chained 5
  | relation : Chained 6
  | equality : Chained 7
  | conjunction : Chained 8
  | disjunction : Chained 9
  | sequence : Chained 11

theorem reading_chained {l : Nat} (h : Chained l) (n : Nat) :
    reading n l = chain (operators l) (reading n (l - 1)) := by
  cases h <;> rfl

def Mark.looseness : Mark → Nat
  | dot | leftParen | leftBracket => 1
  | increment | decrement => 2
  | star | slash | percent => 4
  | plus | minus => 5
  | lt | gt | le | ge => 6
  | looseEq | looseNe | strictEq | strictNe => 7
  | and => 8
  | or => 9
  | question | assign | addAssign | subAssign | mulAssign | divAssign | remAssign => 10
  | comma => 11
  | _ => 12

theorem operators_looseness {l : Nat} {m : Mark} {make : Expr → Expr → Expr}
    (h : operators l m = some make) : m.looseness = l := by
  unfold operators at h
  split at h
  all_goals first | cases h | (cases m <;> first | rfl | cases h)

theorem updateOp?_looseness {m : Mark} {op : UpdateOp} (h : updateOp? m = some op) :
    m.looseness = 2 := by
  cases m <;> first | rfl | cases h

theorem assignOp?_looseness {m : Mark} {op : AssignOp} (h : assignOp? m = some op) :
    m.looseness = 10 := by
  cases m <;> first | rfl | cases h

end Levels

section Follow

def Stops (l : Nat) (t : Token) : Prop := ∀ m, t.mark? = some m → l < m.looseness

structure MayFollow (l : Nat) (rest : List Token) : Prop where
  arrows : NoArrow rest
  stops : ∃ t more, rest = t :: more ∧ Stops l t

variable {l : Nat} {t : Token} {rest : List Token}

theorem Stops.tighter {l' : Nat} (h : Stops l t) (le : l' ≤ l) : Stops l' t :=
  fun m mark => Nat.lt_of_le_of_lt le (h m mark)

theorem Stops.not_isMark (h : Stops l t) {m : Mark} (le : m.looseness ≤ l) : t.isMark m = false :=
  Bool.eq_false_iff.mpr fun mark => Nat.not_lt.mpr le (h m (isMark_iff.mp mark))

theorem Stops.none_of {β : Type} (h : Stops l t) {f : Mark → Option β}
    (level : ∀ m b, f m = some b → m.looseness ≤ l) : t.mark?.bind f = none := by
  rw [Option.bind_eq_none_iff]
  intro m mark
  rw [Option.eq_none_iff_forall_ne_some]
  exact fun b found => Nat.not_lt.mpr (level m b found) (h m mark)

theorem MayFollow.tighter {l' : Nat} (h : MayFollow l rest) (le : l' ≤ l) :
    MayFollow l' rest := by
  obtain ⟨t, more, e, stops⟩ := h.stops
  exact ⟨h.arrows, t, more, e, stops.tighter le⟩

theorem noArrow_mark {m : Mark} (arrow : m ≠ .arrow) (place : Nat) (h : NoArrow rest) :
    NoArrow (⟨.mark m, place, false⟩ :: rest) := .cons (beq_eq_false_iff_ne.mpr arrow) h

theorem follows_mark {m : Mark} (level : l < m.looseness) (arrow : m ≠ .arrow) (place : Nat)
    (h : NoArrow rest) : MayFollow l (⟨.mark m, place, false⟩ :: rest) := by
  refine ⟨noArrow_mark arrow place h, _, _, rfl, ?_⟩
  rintro m' ⟨⟩
  exact level

theorem MayFollow.ne_nil (h : MayFollow l rest) : rest ≠ [] := by
  obtain ⟨t, more, rfl, _⟩ := h.stops
  exact List.cons_ne_nil _ _

end Follow

section Spells

structure Spells (ts : List Token) (ks : List TokenKind) : Prop where
  kinds : ts.map Token.kind = ks
  unbroken : ∀ t ∈ ts, t.afterBreak = false

variable {ts : List Token} {k : TokenKind} {ks ls : List TokenKind}

theorem Spells.length (h : Spells ts ks) : ts.length = ks.length := by
  rw [← h.kinds, List.length_map]

theorem Spells.append (h : Spells ts (ks ++ ls)) :
    ∃ us vs, ts = us ++ vs ∧ Spells us ks ∧ Spells vs ls := by
  obtain ⟨us, vs, rfl, first, second⟩ := List.map_eq_append_iff.mp h.kinds
  obtain ⟨left, right⟩ := List.forall_mem_append.mp h.unbroken
  exact ⟨us, vs, rfl, ⟨first, left⟩, ⟨second, right⟩⟩

theorem Spells.cons (h : Spells ts (k :: ks)) :
    ∃ place us, ts = ⟨k, place, false⟩ :: us ∧ Spells us ks := by
  obtain ⟨⟨kind, place, broken⟩, us, rfl, rfl, others⟩ := List.map_eq_cons_iff.mp h.kinds
  obtain ⟨first, unbroken⟩ := List.forall_mem_cons.mp h.unbroken
  obtain rfl : broken = false := first
  exact ⟨place, us, rfl, others, unbroken⟩

theorem Spells.nil (h : Spells ts []) : ts = [] := List.map_eq_nil_iff.mp h.kinds

theorem Spells.single (h : Spells ts [k]) : ∃ place, ts = [⟨k, place, false⟩] := by
  obtain ⟨place, us, rfl, others⟩ := h.cons
  exact ⟨place, by rw [others.nil]⟩

theorem Spells.noArrow (h : Spells ts ks) (all : ∀ k ∈ ks, k ≠ .mark .arrow) : NoArrow ts := by
  intro t member
  rw [Bool.eq_false_iff, ne_eq, isMark_iff]
  intro mark
  have kind : t.kind ∈ ks := by
    rw [← h.kinds]
    exact List.mem_map_of_mem member
  refine all _ kind ?_
  obtain ⟨found, place, broken⟩ := t
  cases found <;> first | rfl | cases mark
  rfl

end Spells

section Phrases

def Opens (l : Nat) : TokenKind → Prop
  | .number _ | .text _ => True
  | .word w => l ≤ 2 → w ≠ "typeof"
  | .mark m => m = .leftParen ∨ m = .leftBracket ∨
      (2 < l ∧ m ∈ [.not, .minus, .plus, .increment, .decrement])
  | .finish => False

def Opening (l : Nat) (ks : List TokenKind) : Prop := ∃ k more, ks = k :: more ∧ Opens l k

def Read (p : Parser Expr) (ts rest : List Token) (e : Expr) : Prop :=
  ∃ e', e'.forget = e.forget ∧ p (ts ++ rest) = .ok (e', rest)

def Reads (l : Nat) (ks : List TokenKind) (e : Expr) : Prop :=
  ∀ n ts rest, ks.length ≤ n → Spells ts ks → MayFollow l rest → Read (reading n l) ts rest e

def ReadsSigned (ks : List TokenKind) (e : Expr) : Prop :=
  ∀ n m ts rest, ks.length ≤ n → ks.length ≤ m → Spells ts ks → MayFollow 3 rest →
    Read (unaryFrom (assignment n) (statement n) m) ts rest e

def goOn (n : Nat) : Nat → Expr → Nat → Parser Expr
  | 1 => accessFrom (assignment n)
  | l => chainFrom (operators l) (reading n (l - 1))

def Enters (l : Nat) (ks : List TokenKind) (e : Expr) : Prop :=
  ∀ n ts rest, ks.length ≤ n → Spells ts ks → MayFollow (l - 1) rest →
    ∃ e' k, e'.forget = e.forget ∧ rest.length ≤ k ∧
      reading n l (ts ++ rest) = goOn n l e' k rest

def Leads : Nat → List TokenKind → Expr → Prop
  | 0 => Reads 0
  | 2 => Reads 2
  | 3 => ReadsSigned
  | 10 => Reads 10
  | l => Enters l

def Shown (ks : List TokenKind) : Prop := ∀ k ∈ ks, k.IsSpelled ∧ k ≠ .mark .arrow

structure Phrase (ks : List TokenKind) (l : Nat) (e : Expr) : Prop where
  opens : Opening l ks
  shown : Shown ks
  leads : Leads l ks e

variable {l : Nat} {ks ls : List TokenKind} {e : Expr}

theorem leads_chained (h : Chained l) : Leads l ks e = Enters l ks e := by cases h <;> rfl

theorem goOn_chained (h : Chained l) (n : Nat) :
    goOn n l = chainFrom (operators l) (reading n (l - 1)) := by cases h <;> rfl

theorem Opens.looser {k : TokenKind} {l' : Nat} (h : Opens l k) (le : l ≤ l') : Opens l' k := by
  cases k with
  | number x => trivial
  | text s => trivial
  | word w => exact fun tight => h (Nat.le_trans le tight)
  | mark m => exact h.imp id (Or.imp id fun sign => ⟨Nat.lt_of_lt_of_le sign.1 le, sign.2⟩)
  | finish => exact h

theorem Opens.mem_of_mark {m : Mark} (h : Opens l (.mark m)) :
    m ∈ [.leftParen, .leftBracket, .not, .minus, .plus, .increment, .decrement] := by
  rcases h with rfl | rfl | ⟨_, sign⟩
  · decide
  · decide
  · exact List.mem_cons_of_mem _ (List.mem_cons_of_mem _ sign)

namespace Opening

theorem looser {l' : Nat} (h : Opening l ks) (le : l ≤ l') : Opening l' ks := by
  obtain ⟨k, more, rfl, opens⟩ := h
  exact ⟨k, more, rfl, opens.looser le⟩

theorem append (h : Opening l ks) (ls : List TokenKind) : Opening l (ks ++ ls) := by
  obtain ⟨k, more, rfl, opens⟩ := h
  exact ⟨k, _, rfl, opens⟩

variable {ts : List Token}

theorem ne_nil (h : Opening l ks) (spells : Spells ts ks) (rest : List Token) : ts ++ rest ≠ [] := by
  obtain ⟨k, more, rfl, _⟩ := h
  obtain ⟨place, us, rfl, _⟩ := spells.cons
  exact List.cons_ne_nil _ _

theorem not_eat (h : Opening l ks) {m : Mark}
    (other : m ∉ [.leftParen, .leftBracket, .not, .minus, .plus, .increment, .decrement])
    (spells : Spells ts ks) (rest : List Token) : eat m (ts ++ rest) = .ok (false, ts ++ rest) := by
  obtain ⟨k, more, rfl, opens⟩ := h
  obtain ⟨place, us, rfl, _⟩ := spells.cons
  refine eat_other ?_
  rw [Bool.eq_false_iff, ne_eq, isMark_iff]
  intro mark
  cases k <;> cases mark
  exact other opens.mem_of_mark

end Opening

section Shown

theorem shown_nil : Shown [] := nofun

theorem Shown.cons {k : TokenKind} (spelled : k.IsSpelled) (arrow : k ≠ .mark .arrow)
    (others : Shown ks) : Shown (k :: ks) := List.forall_mem_cons.mpr ⟨⟨spelled, arrow⟩, others⟩

theorem Shown.mark {m : Mark} (others : Shown ks) (arrow : m ≠ .arrow) : Shown (.mark m :: ks) :=
  others.cons trivial fun e => arrow (TokenKind.mark.inj e)

theorem Shown.word {w : String} (others : Shown ks) (word : isWord w = true) :
    Shown (.word w :: ks) := others.cons word nofun

theorem Shown.append (h : Shown ks) (h' : Shown ls) : Shown (ks ++ ls) :=
  List.forall_mem_append.mpr ⟨h, h'⟩

theorem Shown.noArrow (h : Shown ks) {ts : List Token} (spells : Spells ts ks) : NoArrow ts :=
  spells.noArrow fun k member => (h k member).2

end Shown

section Raising

theorem Enters.reads (h : Enters l ks e)
    (stop : ∀ n e' k rest, MayFollow l rest → goOn n l e' k rest = .ok (e', rest)) :
    Reads l ks e := by
  intro n ts rest deep spells follow
  obtain ⟨e', k, same, _, read⟩ := h n ts rest deep spells (follow.tighter (Nat.sub_le l 1))
  exact ⟨e', same, read.trans (stop n e' k rest follow)⟩

theorem goOn_access (n : Nat) (e : Expr) (k : Nat) {rest : List Token} (follow : MayFollow 1 rest) :
    goOn n 1 e k rest = .ok (e, rest) := by
  obtain ⟨t, more, rfl, stops⟩ := follow.stops
  exact accessFrom_ends e (stops.not_isMark (by decide)) (stops.not_isMark (by decide))
    (stops.not_isMark (by decide)) k

theorem goOn_stop (h : Chained l) (n : Nat) (e : Expr) (k : Nat) {rest : List Token}
    (follow : MayFollow l rest) : goOn n l e k rest = .ok (e, rest) := by
  obtain ⟨t, more, rfl, stops⟩ := follow.stops
  rw [goOn_chained h]
  exact chainFrom_stop (stops.none_of fun m make found => (operators_looseness found).le) k

theorem ReadsSigned.reads (h : ReadsSigned ks e) : Reads 3 ks e := by
  intro n ts rest deep spells follow
  have bound : ks.length ≤ (ts ++ rest).length := by
    rw [← spells.length, List.length_append]
    exact Nat.le_add_right _ _
  obtain ⟨e', same, read⟩ := h n _ ts rest deep bound spells follow
  exact ⟨e', same, (bind_read rfl _).trans read⟩

theorem Leads.reads (le : l ≤ 11) (h : Leads l ks e) : Reads l ks e := by
  have chained (c : Chained l) : Reads l ks e :=
    Enters.reads (leads_chained c ▸ h) fun n e' k rest follow => goOn_stop c n e' k follow
  match l, le with
  | 0, _ | 2, _ | 10, _ => exact h
  | 1, _ => exact Enters.reads h fun n e' k rest follow => goOn_access n e' k follow
  | 3, _ => exact ReadsSigned.reads h
  | 4, _ => exact chained .product
  | 5, _ => exact chained .sum
  | 6, _ => exact chained .relation
  | 7, _ => exact chained .equality
  | 8, _ => exact chained .conjunction
  | 9, _ => exact chained .disjunction
  | 11, _ => exact chained .sequence

theorem enters_access (h : Reads 0 ks e) : Enters 1 ks e := by
  intro n ts rest deep spells follow
  obtain ⟨e', same, read⟩ := h n ts rest deep spells follow
  exact ⟨e', rest.length, same, Nat.le_refl _, (bind_read read _).trans (bind_read rfl _)⟩

theorem reads_after (h : Reads 1 ks e) : Reads 2 ks e := by
  intro n ts rest deep spells follow
  obtain ⟨e', same, read⟩ := h n ts rest deep spells (follow.tighter (by decide))
  obtain ⟨t, more, rfl, stops⟩ := follow.stops
  exact ⟨e', same, afterOver_ok read
    (stops.none_of fun m op found => (updateOp?_looseness found).le)⟩

theorem readsSigned_of_after (opens : Opening 2 ks) (h : Reads 2 ks e) :
    ReadsSigned ks e := by
  intro n m ts rest deep _ spells follow
  obtain ⟨e', same, read⟩ := h n ts rest deep spells (follow.tighter (by decide))
  obtain ⟨k, more, rfl, opens⟩ := opens
  obtain ⟨place, us, rfl, _⟩ := spells.cons
  obtain ⟨t, more, rfl, _⟩ := follow.stops
  have begins : unaryOp? ⟨k, place, false⟩ = none ∧
      (Token.mark? ⟨k, place, false⟩).bind updateOp? = none := by
    cases k with
    | number x => exact ⟨rfl, rfl⟩
    | text s => exact ⟨rfl, rfl⟩
    | word w =>
      refine ⟨?_, rfl⟩
      unfold unaryOp?
      split
      · next kind => cases kind
      · next kind => cases kind
      · next kind => cases kind
      · next kind => exact absurd (TokenKind.word.inj kind) (opens (Nat.le_refl 2))
      · rfl
    | mark m =>
      rcases opens with rfl | rfl | ⟨loose, _⟩
      · exact ⟨rfl, rfl⟩
      · exact ⟨rfl, rfl⟩
      · exact absurd loose (by decide)
    | finish => exact opens.elim
  exact ⟨e', same, unaryFrom_operand begins.1 begins.2 read m⟩

theorem enters_chained (c : Chained l) (h : Reads (l - 1) ks e) : Enters l ks e := by
  intro n ts rest deep spells follow
  obtain ⟨e', same, read⟩ := h n ts rest deep spells follow
  refine ⟨e', rest.length, same, Nat.le_refl _, ?_⟩
  rw [reading_chained c, goOn_chained c]
  exact (bind_read read _).trans (bind_read rfl _)

theorem reads_assignment (shown : Shown ks) (h : Reads 9 ks e) : Reads 10 ks e := by
  intro n ts rest deep spells follow
  obtain ⟨e', same, read⟩ := h n ts rest deep spells (follow.tighter (by decide))
  have arrows := (shown.noArrow spells).append follow.arrows
  obtain ⟨t, more, rfl, stops⟩ := follow.stops
  have conditional := conditionalOver_ok read (stops.not_isMark (by decide))
  exact ⟨e', same, assignmentOver_ok arrows conditional
    (stops.none_of fun m op found => (assignOp?_looseness found).le)⟩

theorem Phrase.looser {l' : Nat} (h : Phrase ks l e) (le : l ≤ l') (top : l' ≤ 11) :
    Phrase ks l' e := by
  induction l', le using Nat.le_induction with
  | base => exact h
  | succ l' le ih =>
    obtain ⟨opens, shown, leads⟩ := ih (Nat.le_of_succ_le top)
    have reads := leads.reads (Nat.le_of_succ_le top)
    refine ⟨opens.looser (Nat.le_succ l'), shown, ?_⟩
    match l', top with
    | 0, _ => exact enters_access reads
    | 1, _ => exact reads_after reads
    | 2, _ => exact readsSigned_of_after opens reads
    | 3, _ => exact enters_chained .product reads
    | 4, _ => exact enters_chained .sum reads
    | 5, _ => exact enters_chained .relation reads
    | 6, _ => exact enters_chained .equality reads
    | 7, _ => exact enters_chained .conjunction reads
    | 8, _ => exact enters_chained .disjunction reads
    | 9, _ => exact reads_assignment shown reads
    | 10, _ => exact enters_chained .sequence reads

theorem Phrase.reads {l' : Nat} (h : Phrase ks l e) (le : l ≤ l') (top : l' ≤ 11) :
    Reads l' ks e := (h.looser le top).leads.reads top

end Raising

end Phrases

end EmitterLogic.Script
