import EmitterLogic.Proofs.Script.Passing
import EmitterLogic.Proofs.Script.Stretches

namespace EmitterLogic.Script

open Script.Parser

variable {α β : Type} {takes : Bool} {k : Nat} {ts mid rest : List Token}

/-- What is left of some tokens: the end of them, and not all of them if a token was taken. -/
structure Left (takes : Bool) (ts rest : List Token) : Prop where
  ended : Ended rest
  suffix : rest <:+ ts
  fewer : takes = true → rest.length < ts.length

namespace Left

theorem refl (ended : Ended ts) : Left false ts ts := ⟨ended, List.suffix_rfl, nofun⟩

theorem weaken (h : Left true ts rest) : Left takes ts rest := ⟨h.ended, h.suffix, fun _ => h.fewer rfl⟩

theorem after (h : Left true ts mid) (h' : Left false mid rest) : Left true ts rest :=
  ⟨h'.ended, h'.suffix.trans h.suffix, fun _ => Nat.lt_of_le_of_lt h'.suffix.length_le (h.fewer rfl)⟩

theorem trans (h : Left false ts mid) (h' : Left takes mid rest) : Left takes ts rest :=
  ⟨h'.ended, h'.suffix.trans h.suffix,
    fun taken => Nat.lt_of_lt_of_le (h'.fewer taken) h.suffix.length_le⟩

theorem tail {t : Token} (later : Ended rest) : Left true (t :: rest) rest :=
  ⟨later, List.suffix_cons t rest, fun _ => Nat.lt_succ_self _⟩

end Left

/-- Two parsers have one result for some tokens, and leave the end of them where they return. -/
def Concur (takes : Bool) (ts : List Token) (p q : Parser α) : Prop :=
  p ts = q ts ∧ ∀ a rest, p ts = .ok (a, rest) → Left takes ts rest

/-- Two parsers concur on at most `k` tokens. -/
def InStep (takes : Bool) (k : Nat) (p q : Parser α) : Prop :=
  ∀ ts, Ended ts → ts.length ≤ k → Concur takes ts p q

namespace Concur

variable {p p' : Parser α} {f f' : α → Parser β}

theorem weaken (h : Concur true ts p p') : Concur takes ts p p' :=
  ⟨h.1, fun a rest read => (h.2 a rest read).weaken⟩

theorem of_error {e : Failure} (h : p ts = .error e) (h' : p' ts = .error e) :
    Concur takes ts p p' := by
  refine ⟨h.trans h'.symm, fun a rest read => ?_⟩
  rw [h] at read
  cases read

theorem of_bind (h : p ts = p' ts)
    (after : ∀ a mid, p ts = .ok (a, mid) → f a mid = f' a mid ∧
      ∀ b rest, f a mid = .ok (b, rest) → Left takes ts rest) :
    Concur takes ts (p >>= f) (p' >>= f') := by
  cases first : p ts with
  | error e => exact of_error (bind_failed first _) (bind_failed (h.symm.trans first) _)
  | ok r =>
    obtain ⟨same, left⟩ := after r.1 r.2 first
    rw [Concur, bind_read first, bind_read (h.symm.trans first)]
    exact ⟨same, left⟩

theorem bind (h : Concur false ts p p')
    (after : ∀ a mid, Left false ts mid → Concur takes mid (f a) (f' a)) :
    Concur takes ts (p >>= f) (p' >>= f') :=
  of_bind h.1 fun a mid first =>
    ⟨(after a mid (h.2 a mid first)).1, fun b rest second =>
      (h.2 a mid first).trans ((after a mid (h.2 a mid first)).2 b rest second)⟩

theorem taking (h : Concur true ts p p')
    (after : ∀ a mid, Left true ts mid → Concur false mid (f a) (f' a)) :
    Concur takes ts (p >>= f) (p' >>= f') :=
  of_bind h.1 fun a mid first =>
    ⟨(after a mid (h.2 a mid first)).1, fun b rest second =>
      Left.weaken <| (h.2 a mid first).after ((after a mid (h.2 a mid first)).2 b rest second)⟩

end Concur

namespace InStep

section Combinators

variable {p p' q q' : Parser α} {f f' : α → Parser β} {m : Mark} {w : String}

theorem value (a : α) : InStep false k (pure a) (pure a) :=
  fun _ ended _ => ⟨rfl, fun _ _ => of_pure fun _ same => same.symm ▸ .refl ended⟩

theorem weaken (h : InStep true k p p') : InStep takes k p p' :=
  fun ts ended short => (h ts ended short).weaken

theorem mono {j : Nat} (h : InStep takes k p p') (le : j ≤ k) : InStep takes j p p' :=
  fun ts ended short => h ts ended (Nat.le_trans short le)

theorem earlier (h : InStep takes k p p') : InStep takes (k - 1) p p' := h.mono (Nat.sub_le k 1)

theorem bind (h : InStep false k p p') (after : ∀ a, InStep takes k (f a) (f' a)) :
    InStep takes k (p >>= f) (p' >>= f') :=
  fun ts ended short => (h ts ended short).bind fun a mid left =>
    after a mid left.ended (Nat.le_trans left.suffix.length_le short)

theorem taking (h : InStep true k p p') (after : ∀ a, InStep false (k - 1) (f a) (f' a)) :
    InStep takes k (p >>= f) (p' >>= f') :=
  fun ts ended short => (h ts ended short).taking fun a mid left => by
    have fewer := left.fewer rfl
    exact after a mid left.ended (by omega)

theorem choose {c : Prop} [Decidable c] (h : InStep takes k p p') (h' : InStep takes k q q') :
    InStep takes k (if c then p else q) (if c then p' else q') := by
  split
  · exact h
  · exact h'

theorem map {g : α → β} (h : InStep takes k p p') : InStep takes k (g <$> p) (g <$> p') := by
  have unfolded (p : Parser α) : g <$> p = p >>= fun a => pure (g a) := (bind_pure_comp g p).symm
  rw [unfolded, unfolded]
  cases takes with
  | false => exact h.bind fun a => value (g a)
  | true => exact h.taking fun a => value (g a)

theorem refuse (t : Token) : InStep takes k (Parser.refuse t : Parser α) (Parser.refuse t) :=
  fun _ _ _ => ⟨rfl, fun _ _ => of_refuse⟩

theorem refuseFront : InStep takes k (Parser.refuseFront : Parser α) Parser.refuseFront :=
  fun _ _ _ => ⟨rfl, fun _ _ => of_refuseFront⟩

theorem failAt (cause : SyntaxCause) (t : Token) :
    InStep takes k (Parser.failAt cause t : Parser α) (Parser.failAt cause t) :=
  fun _ _ _ => ⟨rfl, fun _ _ => of_failAt⟩

theorem look {f f' : List Token → Parser β} (h : ∀ us, InStep takes k (f us) (f' us)) :
    InStep takes k (get >>= f) (get >>= f') :=
  fun ts ended short => h ts ts ended short

theorem remaining {f f' : Nat → Parser β} (h : ∀ n, InStep takes k (f n) (f' n)) :
    InStep takes k (Parser.remaining >>= f) (Parser.remaining >>= f') :=
  fun ts ended short => h ts.length ts ended short

theorem peek {f f' : Token → Parser β} (h : ∀ t, InStep takes k (f t) (f' t)) :
    InStep takes k (Parser.peek >>= f) (Parser.peek >>= f') :=
  fun ts ended short => h (front ts) ts ended short

theorem facing {f f' : Token → Parser β} (h : ∀ ts, Ended ts → ts.length ≤ k →
    Concur takes ts (f (front ts)) (f' (front ts))) :
    InStep takes k (Parser.peek >>= f) (Parser.peek >>= f') := h

theorem advance {f f' : Token → Parser β} (ended : Ended ts) (short : ts.length ≤ k)
    (goes : (front ts).kind ≠ .finish) (h : ∀ t, InStep false (k - 1) (f t) (f' t)) :
    Concur takes ts (Parser.next >>= f) (Parser.next >>= f') := by
  obtain ⟨t, mid, rfl⟩ := ended.exists_cons
  have later : Ended mid := ended.tail (not_finish_of_kind goes)
  have passed := next_cons (t := t) later.ne_nil
  refine Concur.taking ⟨rfl, fun a rest read => ?_⟩ fun a mid' left => ?_
  · rw [passed] at read
    cases read
    exact .tail later
  · have fewer := left.fewer rfl
    exact h a mid' left.ended (by omega)

theorem atMark (h : InStep takes k p p') (h' : InStep takes k q q') :
    InStep takes k (Parser.atMark m >>= fun b => if b = true then p else q)
      (Parser.atMark m >>= fun b => if b = true then p' else q') :=
  fun ts ended short => choose (c := (front ts).isMark m = true) h h' ts ended short

def Optional (test : Parser Bool) : Prop :=
  ∀ ts, Ended ts → test ts = .ok (false, ts) ∨
    ∃ t mid, ts = t :: mid ∧ Ended mid ∧ test ts = .ok (true, mid)

theorem eat_optional (m : Mark) : Optional (Parser.eat m) := by
  intro ts ended
  obtain ⟨t, mid, rfl⟩ := ended.exists_cons
  cases mark : t.isMark m with
  | false => exact .inl (eat_other mark)
  | true =>
    have later := ended.tail (not_finish_of_kind (by rw [kind_of_isMark mark]; exact nofun))
    exact .inr ⟨t, mid, rfl, later, eat_cons mark later.ne_nil⟩

theorem eatWord_optional (w : String) : Optional (Parser.eatWord w) := by
  intro ts ended
  obtain ⟨t, mid, rfl⟩ := ended.exists_cons
  have unfolded : Parser.eatWord w (t :: mid) =
      (if t.isWord w = true then (do let _ ← Parser.next; return true) else return false : Parser Bool)
        (t :: mid) := rfl
  cases word : t.isWord w with
  | false =>
    rw [word] at unfolded
    exact .inl unfolded
  | true =>
    have later := ended.tail (not_finish_of_kind (by rw [kind_of_isWord word]; exact nofun))
    rw [word, if_pos rfl] at unfolded
    exact .inr ⟨t, mid, rfl, later, unfolded.trans (bind_read (next_cons later.ne_nil) _)⟩

theorem branch {test : Parser Bool} (optional : Optional test) (yes : InStep false (k - 1) p p')
    (no : InStep takes k q q') :
    InStep takes k (test >>= fun b => if b = true then p else q)
      (test >>= fun b => if b = true then p' else q') := by
  intro ts ended short
  rcases optional ts ended with absent | ⟨t, mid, rfl, later, found⟩
  · have goes (p q : Parser α) : (test >>= fun b => if b = true then p else q) ts = q ts :=
      bind_read absent _
    rw [Concur, goes, goes]
    exact no ts ended short
  · have goes (p q : Parser α) : (test >>= fun b => if b = true then p else q) (t :: mid) = p mid :=
      bind_read found _
    rw [List.length_cons] at short
    obtain ⟨same, left⟩ := yes mid later (by omega)
    rw [Concur, goes, goes]
    exact ⟨same, fun a rest read => (Left.after (.tail later) (left a rest read)).weaken⟩

theorem demand {test : Parser Bool} (optional : Optional test) :
    InStep true k (do if !(← test) then Parser.refuseFront)
      (do if !(← test) then Parser.refuseFront) := by
  intro ts ended short
  refine ⟨rfl, fun a rest read => ?_⟩
  rcases optional ts ended with absent | ⟨t, mid, rfl, later, found⟩
  · rw [bind_read absent] at read
    exact of_refuseFront read
  · rw [bind_read found] at read
    refine of_pure (fun _ same => ?_) read
    rw [same]
    exact .tail later

theorem eat (yes : InStep false (k - 1) p p') (no : InStep takes k q q') :
    InStep takes k (Parser.eat m >>= fun b => if b = true then p else q)
      (Parser.eat m >>= fun b => if b = true then p' else q') := branch (eat_optional m) yes no

theorem eatWord (yes : InStep false (k - 1) p p') (no : InStep takes k q q') :
    InStep takes k (Parser.eatWord w >>= fun b => if b = true then p else q)
      (Parser.eatWord w >>= fun b => if b = true then p' else q') :=
  branch (eatWord_optional w) yes no

theorem expect (m : Mark) : InStep true k (Parser.expect m) (Parser.expect m) :=
  demand (eat_optional m)

theorem expectWord (w : String) : InStep true k (Parser.expectWord w) (Parser.expectWord w) :=
  demand (eatWord_optional w)

theorem goes_of_operator {op? : Mark → Option β} {t : Token} {b : β}
    (found : t.mark?.bind op? = some b) : t.kind ≠ .finish := by
  obtain ⟨m, mark, _⟩ := mark_of_bind found
  rw [kind_of_isMark mark]
  exact nofun

theorem goes_of_freeWord {t : Token} (word : t.freeWord? = some w) : t.kind ≠ .finish := by
  rw [(kind_of_freeWord word).1]
  exact nofun

theorem freeWord : InStep true k Parser.freeWord Parser.freeWord := by
  refine facing fun ts ended short => ?_
  cases word : (front ts).freeWord? with
  | none => exact refuseFront ts ended short
  | some w => exact advance ended short (goes_of_freeWord word) fun _ => value w

theorem mayEat (m : Mark) : InStep false k (Parser.eat m) (Parser.eat m) := by
  intro ts ended short
  refine ⟨rfl, fun a rest read => ?_⟩
  rcases eat_optional m ts ended with absent | ⟨t, mid, rfl, later, found⟩
  · rw [absent] at read
    cases read
    exact .refl ended
  · rw [found] at read
    cases read
    exact (Left.tail later).weaken

theorem endOfStatement : InStep false k Parser.endOfStatement Parser.endOfStatement :=
  (mayEat .semicolon).bind fun _ => choose (peek fun t => choose (refuse t) (value ())) (value ())

end Combinators

end InStep

namespace Parser

def commaRound (item : Parser α) (again : Parser (List α)) : Parser (List α) := do
  let a ← item
  if ← eat .comma then return a :: (← again) else return [a]

def closedRound (item : Parser α) (close : Mark) (again : Parser (List α)) : Parser (List α) := do
  if ← eat close then return []
  let a ← item
  if ← eat .comma then return a :: (← again)
  expect close
  return [a]

def chainRound (op? : Mark → Option (Expr → Expr → Expr)) (operand : Parser Expr)
    (again : Expr → Parser Expr) (left : Expr) : Parser Expr := do
  match (← peek).mark?.bind op? with
  | none => return left
  | some make =>
    let _ ← next
    let right ← operand
    again (make left right)

def blockRound (statement : Parser Stmt) (again : Parser (List Stmt)) : Parser (List Stmt) := do
  if ← eat .rightBrace then return []
  if (← peek).isFinish then refuseFront
  let s ← statement
  return s :: (← again)

def accessRound (assignment : Parser Expr) (again : Expr → Parser Expr) (e : Expr) : Parser Expr := do
  if ← eat .dot then
    match (← peek).kind with
    | .word w => let _ ← next; again (.member e w)
    | _ => refuseFront
  else if ← eat .leftParen then
    if ← eat .rightParen then again (.call e [])
    else
      let args ← commaSeparated assignment
      expect .rightParen
      again (.call e args)
  else if ← eat .leftBracket then
    let property ← expressionOver assignment
    expect .rightBracket
    again (.index e property)
  else return e

def unaryRound (operand : Parser Expr) (again : Parser Expr) : Parser Expr := do
  let t ← peek
  match unaryOp? t, t.mark?.bind updateOp? with
  | some op, _ =>
    let _ ← next
    return .unary op (← again)
  | none, some op =>
    let _ ← next
    match (← again).target? with
    | some target => return .update op true target
    | none => failAt .invalidBefore t
  | none, none => operand

def programRound (statement : Parser Stmt) (again : Parser (List Stmt)) : Parser (List Stmt) := do
  if (← peek).isFinish then return []
  let s ← statement
  return s :: (← again)

end Parser

namespace InStep

section Loops

variable {item item' : Parser α} {more more' : Parser (List α)} {op? : Mark → Option (Expr → Expr → Expr)}
  {operand operand' : Parser Expr} {S S' : Parser Stmt}

theorem commaRound (one : InStep true k item item') (again : InStep false (k - 1) more more') :
    InStep true k (commaRound item more) (commaRound item' more') := by
  refine one.taking fun a => eat ?_ (value [a])
  exact again.earlier.bind fun _ => value _

theorem commaList (one : InStep true k item item') (n : Nat) :
    InStep true k (Parser.commaList item n) (Parser.commaList item' n) := by
  induction n with
  | zero => exact refuseFront
  | succ n ih => exact commaRound one ih.earlier.weaken

theorem commaSeparated (one : InStep true k item item') :
    InStep true k (Parser.commaSeparated item) (Parser.commaSeparated item') :=
  remaining fun n => commaList one n

theorem closedRound {close : Mark} (one : InStep true k item item')
    (again : InStep false (k - 1) more more') :
    InStep true k (closedRound item close more) (closedRound item' close more') := by
  refine eat (value []) (one.taking fun a => ?_)
  refine eat (again.earlier.bind fun _ => value _) ?_
  exact (expect close).taking fun _ => value [a]

theorem closedList (one : InStep true k item item') (close : Mark) (n : Nat) :
    InStep true k (Parser.closedList item close n) (Parser.closedList item' close n) := by
  induction n with
  | zero => exact refuseFront
  | succ n ih => exact closedRound one ih.earlier.weaken

theorem chainRound {more more' : Expr → Parser Expr} (one : InStep true (k - 1) operand operand')
    (again : ∀ e, InStep false (k - 1) (more e) (more' e)) (left : Expr) :
    InStep false k (chainRound op? operand more left) (chainRound op? operand' more' left) := by
  refine facing fun ts ended short => ?_
  cases found : (front ts).mark?.bind op? with
  | none => exact value left ts ended short
  | some make =>
    exact advance ended short (goes_of_operator found) fun _ =>
      one.taking fun right => (again (make left right)).earlier

theorem chainFrom (one : InStep true (k - 1) operand operand') (left : Expr) (n : Nat) :
    InStep false k (Parser.chainFrom op? operand left n) (Parser.chainFrom op? operand' left n) := by
  induction n generalizing left with
  | zero => exact value left
  | succ n ih => exact chainRound one (fun e => (ih e).earlier) left

theorem chain (one : InStep true k operand operand') :
    InStep true k (Parser.chain op? operand) (Parser.chain op? operand') :=
  one.taking fun left => remaining fun n => chainFrom one.earlier.earlier left n

theorem unaryRound {more more' : Parser Expr} (one : InStep true k operand operand')
    (again : InStep false (k - 1) more more') :
    InStep true k (unaryRound operand more) (unaryRound operand' more') := by
  refine facing fun ts ended short => ?_
  cases unary : unaryOp? (front ts) with
  | some op =>
    have goes : (front ts).kind ≠ .finish := by
      intro kind
      rw [unaryOp?, kind] at unary
      cases unary
    exact advance ended short goes fun _ => again.bind fun _ => value _
  | none =>
    cases update : (front ts).mark?.bind updateOp? with
    | none => exact one ts ended short
    | some op =>
      refine advance ended short (goes_of_operator update) fun _ => again.bind fun e => ?_
      cases e.target? with
      | none => exact failAt _ _
      | some target => exact value _

theorem blockRound {more more' : Parser (List Stmt)} (one : InStep true k S S')
    (again : InStep false (k - 1) more more') :
    InStep true k (blockRound S more) (blockRound S' more') := by
  have items : InStep true k (do return (← S) :: (← more)) (do return (← S') :: (← more')) :=
    one.taking fun _ => again.bind fun _ => value _
  refine eat (value []) (peek fun _ => choose ?_ items)
  exact refuseFront.bind fun _ => items

theorem blockItems (one : InStep true k S S') (n : Nat) :
    InStep true k (blockItems S n) (blockItems S' n) := by
  induction n with
  | zero => exact refuseFront
  | succ n ih => exact blockRound one ih.earlier.weaken

theorem programRound {more more' : Parser (List Stmt)} (one : InStep true k S S')
    (again : InStep false (k - 1) more more') :
    InStep false k (programRound S more) (programRound S' more') :=
  peek fun _ => choose (value []) (one.taking fun _ => again.bind fun _ => value _)

end Loops

end InStep

end EmitterLogic.Script
