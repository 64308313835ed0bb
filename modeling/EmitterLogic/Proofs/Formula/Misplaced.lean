import EmitterLogic.Proofs.Formula.Lockstep

/-!
Formulas that are no sentences. A value too many stands directly after another one, and a value too few
is missing where an operator, a closing parenthesis or the end comes before it. A program says nothing of
where its operands stood, so that the two kinds of faults can make up for each other; where their numbers
differ, the formula is worth nothing.
-/

namespace EmitterLogic.Formula

section Faults

/-- How many values stand directly after a value. -/
def extraValues : Bool → List Token → Nat
  | _, [] => 0
  | afterValue, .number _ :: rest => afterValue.toNat + extraValues true rest
  | afterValue, .name _ :: rest => afterValue.toNat + extraValues true rest
  | afterValue, .opening :: rest => afterValue.toNat + extraValues false rest
  | _, .closing :: rest => extraValues true rest
  | _, .op _ :: rest => extraValues false rest

/-- How many values are missing before an operator, a closing parenthesis or the end. A minus without a
value before it is a negation. -/
def missingValues : Bool → List Token → Nat
  | afterValue, [] => (!afterValue).toNat
  | _, .number _ :: rest => missingValues true rest
  | _, .name _ :: rest => missingValues true rest
  | _, .opening :: rest => missingValues false rest
  | afterValue, .closing :: rest => (!afterValue).toNat + missingValues true rest
  | afterValue, .op o :: rest => (!afterValue && o != .sub).toNat + missingValues false rest

def Neat (ts : List Token) : Prop := ∀ rest,
  extraValues false (ts ++ rest) = extraValues true rest ∧
    missingValues false (ts ++ rest) = missingValues true rest

theorem Neat.more {ts us : List Token} (left : Neat ts) (o : ArithOp) (right : Neat us) :
    Neat (ts ++ .op o :: us) := by
  intro rest
  obtain ⟨extra, missing⟩ := left (.op o :: us ++ rest)
  obtain ⟨extra', missing'⟩ := right rest
  rw [List.append_assoc, extra, missing, List.cons_append, extraValues, missingValues, extra',
    missing']
  exact ⟨rfl, Nat.zero_add _⟩

mutual

theorem Sum.neat (e : Sum) : Neat e.tokens := by
  match e with
  | .one p => exact p.neat
  | .more left sign right => exact left.neat.more sign.op right.neat

theorem Product.neat (p : Product) : Neat p.tokens := by
  match p with
  | .one f => exact f.neat
  | .more left sign right => exact left.neat.more sign.op right.neat

theorem Factor.neat (f : Factor) : Neat f.tokens := by
  intro rest
  match f with
  | .number x => exact ⟨Nat.zero_add _, rfl⟩
  | .name s => exact ⟨Nat.zero_add _, rfl⟩
  | .negated f =>
    obtain ⟨extra, missing⟩ := f.neat rest
    rw [Factor.tokens, List.cons_append, extraValues, missingValues, extra, missing]
    exact ⟨rfl, Nat.zero_add _⟩
  | .group e =>
    obtain ⟨extra, missing⟩ := e.neat (.closing :: rest)
    have inside : (Factor.group e).tokens ++ rest = .opening :: (e.tokens ++ .closing :: rest) := by
      simp [Factor.tokens]
    rw [inside, extraValues, missingValues, extra, missing, extraValues, missingValues]
    exact ⟨Nat.zero_add _, Nat.zero_add _⟩

end

end Faults

section Sentences

def chainTokens (chain : List (ArithOp × Factor)) : List Token :=
  chain.flatMap fun link => .op link.1 :: link.2.tokens

def closingTokens (chains : List (List (ArithOp × Factor))) : List Token :=
  chains.flatMap fun chain => .closing :: chainTokens chain

def Continues (depth : Nat) (ts : List Token) : Prop :=
  ∃ chain chains, chains.length = depth ∧ ts = chainTokens chain ++ closingTokens chains

def Begins (depth : Nat) (ts : List Token) : Prop :=
  ∃ (f : Factor) (rest : List Token), Continues depth rest ∧ ts = f.tokens ++ rest

def GoesOn (depth : Nat) : Bool → List Token → Prop
  | true => Continues depth
  | false => Begins depth

def Sum.scaled : Sum → ProductSign → Factor → Sum
  | .one p, sign, f => .one (.more p sign f)
  | .more left first p, sign, f => .more left first (.more p sign f)

def Sum.joined (e : Sum) (f : Factor) : ArithOp → Sum
  | .add => .more e .plus (.one f)
  | .sub => .more e .minus (.one f)
  | .mul => e.scaled .times f
  | .div => e.scaled .divide f
  | .rem => e.scaled .modulo f

theorem Sum.scaled_tokens (e : Sum) (sign : ProductSign) (f : Factor) :
    (e.scaled sign f).tokens = e.tokens ++ .op sign.op :: f.tokens := by
  cases e with
  | one p => rfl
  | more left first p => simp [Sum.scaled, Sum.tokens, Product.tokens]

theorem Sum.joined_tokens (e : Sum) (f : Factor) (o : ArithOp) :
    (e.joined f o).tokens = e.tokens ++ .op o :: f.tokens := by
  cases o with
  | add => rfl
  | sub => rfl
  | mul => exact e.scaled_tokens .times f
  | div => exact e.scaled_tokens .divide f
  | rem => exact e.scaled_tokens .modulo f

theorem exists_sum (e : Sum) (chain : List (ArithOp × Factor)) :
    ∃ whole : Sum, whole.tokens = e.tokens ++ chainTokens chain := by
  induction chain generalizing e with
  | nil => exact ⟨e, (List.append_nil _).symm⟩
  | cons link chain ih =>
    obtain ⟨whole, same⟩ := ih (e.joined link.2 link.1)
    refine ⟨whole, ?_⟩
    rw [same, Sum.joined_tokens, List.append_assoc]
    rfl

variable {depth : Nat} {rest : List Token}

theorem Continues.value (f : Factor) (h : Continues depth rest) : Begins depth (f.tokens ++ rest) :=
  ⟨f, rest, h, rfl⟩

theorem Begins.operation (o : ArithOp) (h : Begins depth rest) : Continues depth (.op o :: rest) := by
  obtain ⟨f, more, ⟨chain, chains, closed, rfl⟩, rfl⟩ := h
  exact ⟨(o, f) :: chain, chains, closed, by simp [chainTokens]⟩

theorem Begins.negated (h : Begins depth rest) : Begins depth (.op .sub :: rest) := by
  obtain ⟨f, more, continues, rfl⟩ := h
  exact ⟨.negated f, more, continues, rfl⟩

theorem Continues.closed (h : Continues depth rest) : Continues (depth + 1) (.closing :: rest) := by
  obtain ⟨chain, chains, closed, rfl⟩ := h
  exact ⟨[], chain :: chains, congrArg (· + 1) closed, rfl⟩

theorem Begins.group (h : Begins (depth + 1) rest) : Begins depth (.opening :: rest) := by
  obtain ⟨f, more, ⟨chain, chains, closed, rfl⟩, rfl⟩ := h
  match chains, closed with
  | after :: chains, closed =>
    obtain ⟨e, inside⟩ := exists_sum (.one (.one f)) chain
    have tokens : (Sum.one (.one f)).tokens = f.tokens := rfl
    rw [tokens] at inside
    refine ⟨.group e, _, ⟨after, chains, Nat.succ.inj closed, rfl⟩, ?_⟩
    simp [Factor.tokens, inside, closingTokens]

theorem count_opening (ops : List Operator) : (ops.map Pending.op).count .opening = 0 := by
  simp [List.count_eq_zero]

theorem goesOn_of_read {pending : List Pending} {afterValue : Bool} {ts : List Token}
    {program : List Instr} (read : programFrom pending afterValue ts = .ok program)
    (extra : extraValues afterValue ts = 0) (missing : missingValues afterValue ts = 0) :
    GoesOn (pending.count .opening) afterValue ts := by
  -- Along the tokens; the groups that are open are the parentheses among the pending operators.
  induction ts generalizing pending afterValue program with
  | nil =>
    cases afterValue with
    | false => cases missing
    | true =>
      rw [programFrom] at read
      split at read
      · next out released =>
        obtain ⟨ops, _, rfl⟩ := releaseAll_front released
        exact ⟨[], [], (count_opening ops).symm, rfl⟩
      · cases read
  | cons t rest ih =>
    cases t with
    | number x =>
      obtain ⟨more, later, _⟩ := map_ok read
      obtain ⟨after, none⟩ := Nat.add_eq_zero_iff.mp extra
      cases afterValue with
      | true => cases after
      | false => exact Continues.value (.number x) (ih later none missing)
    | name w =>
      obtain ⟨more, later, _⟩ := map_ok read
      obtain ⟨after, none⟩ := Nat.add_eq_zero_iff.mp extra
      cases afterValue with
      | true => cases after
      | false => exact Continues.value (.name w) (ih later none missing)
    | opening =>
      obtain ⟨after, none⟩ := Nat.add_eq_zero_iff.mp extra
      cases afterValue with
      | true => cases after
      | false =>
        have inside := ih read none missing
        rw [List.count_cons_self] at inside
        exact Begins.group inside
    | closing =>
      rw [programFrom] at read
      obtain ⟨after, none⟩ := Nat.add_eq_zero_iff.mp missing
      cases afterValue with
      | false => cases after
      | true =>
        split at read
        · next out left released =>
          obtain ⟨ops, _, rfl⟩ := releaseGroup_front released
          obtain ⟨more, later, _⟩ := map_ok read
          rw [List.count_append, count_opening, Nat.zero_add, List.count_cons_self]
          exact Continues.closed (ih later extra none)
        · cases read
    | op o =>
      rw [programFrom] at read
      obtain ⟨after, none⟩ := Nat.add_eq_zero_iff.mp missing
      rcases released : releaseFor (operatorOf afterValue o) pending with ⟨out, left⟩
      rw [released] at read
      obtain ⟨ops, _, rfl⟩ := releaseFor_front _ released
      obtain ⟨more, later, _⟩ := map_ok read
      have begins := ih later extra none
      rw [List.count_cons_of_ne (by simp)] at begins
      rw [List.count_append, count_opening, Nat.zero_add]
      cases afterValue with
      | true => exact Begins.operation o begins
      | false =>
        cases o with
        | sub => exact Begins.negated begins
        | _ => cases after

theorem sentence_iff {ts : List Token} {program : List Instr} (read : programOf ts = .ok program) :
    (∃ e : Sum, e.tokens = ts) ↔ extraValues false ts = 0 ∧ missingValues false ts = 0 := by
  constructor
  · rintro ⟨e, rfl⟩
    have neat := e.neat []
    rw [List.append_nil] at neat
    exact neat
  · rintro ⟨extra, missing⟩
    obtain ⟨f, rest, ⟨chain, chains, closed, rfl⟩, rfl⟩ := goesOn_of_read read extra missing
    obtain rfl : chains = [] := List.length_eq_zero_iff.mp closed
    obtain ⟨e, same⟩ := exists_sum (.one (.one f)) chain
    refine ⟨e, same.trans ?_⟩
    rw [closingTokens, List.flatMap_nil, List.append_nil]
    rfl

end Sentences

section Heights

def Pending.isBinary : Pending → Bool
  | .op (.binary _) => true
  | _ => false

theorem heightFrom_ops {ops : List Operator} {rest : List Instr} {height left : Nat}
    (ran : heightFrom (ops.map .op ++ rest) height = some left) :
    ∃ lower, heightFrom rest lower = some left ∧
      height = lower + (ops.map Pending.op).countP Pending.isBinary := by
  induction ops generalizing height with
  | nil => exact ⟨height, ran, rfl⟩
  | cons o ops ih =>
    obtain ⟨next, after, ran⟩ := Option.bind_eq_some_iff.mp ran
    obtain ⟨lower, later, same⟩ := ih ran
    refine ⟨lower, later, ?_⟩
    match o, height, after with
    | .negation, height + 1, after =>
      cases after
      rw [List.map_cons, List.countP_cons_of_neg (by simp [Pending.isBinary]), same]
    | .binary o, height + 2, after =>
      cases after
      rw [List.map_cons, List.countP_cons_of_pos rfl, ← Nat.add_assoc, ← same]

theorem isBinary_operatorOf (afterValue : Bool) (o : ArithOp) :
    (if (Pending.op (operatorOf afterValue o)).isBinary = true then 1 else 0) =
      afterValue.toNat + (!afterValue && o != .sub).toNat := by
  cases afterValue <;> cases o <;> rfl

theorem heightFrom_read {pending : List Pending} {afterValue : Bool} {ts : List Token}
    {program : List Instr} {height left : Nat}
    (read : programFrom pending afterValue ts = .ok program)
    (ran : heightFrom program height = some left) :
    left + pending.countP Pending.isBinary + missingValues afterValue ts =
      height + extraValues afterValue ts + (!afterValue).toNat := by
  induction ts generalizing pending afterValue program height with
  | nil =>
    rw [programFrom] at read
    split at read
    · next out released =>
      obtain ⟨ops, rfl, rfl⟩ := releaseAll_front released
      cases read
      rw [← List.append_nil (ops.map Instr.op)] at ran
      obtain ⟨lower, rest, rfl⟩ := heightFrom_ops ran
      cases rest
      rfl
    · cases read
  | cons t rest ih =>
    -- One value more or less before the rest, whether it is at fault or not.
    have either : afterValue.toNat + (!afterValue).toNat = 1 := by cases afterValue <;> rfl
    cases t with
    | number x =>
      obtain ⟨more, read', rfl⟩ := map_ok read
      have later := ih read' ran
      rw [extraValues, missingValues]
      simp only [Bool.not_true, Bool.toNat_false] at later
      omega
    | name w =>
      obtain ⟨more, read', rfl⟩ := map_ok read
      have later := ih read' ran
      rw [extraValues, missingValues]
      simp only [Bool.not_true, Bool.toNat_false] at later
      omega
    | opening =>
      have later := ih read ran
      rw [List.countP_cons_of_neg (by simp [Pending.isBinary])] at later
      rw [extraValues, missingValues]
      simp only [Bool.not_false, Bool.toNat_true] at later
      omega
    | closing =>
      rw [programFrom] at read
      split at read
      · next out left' released =>
        obtain ⟨ops, rfl, rfl⟩ := releaseGroup_front released
        obtain ⟨more, read', rfl⟩ := map_ok read
        obtain ⟨lower, ran', rfl⟩ := heightFrom_ops ran
        have later := ih read' ran'
        rw [List.countP_append, List.countP_cons_of_neg (by simp [Pending.isBinary]), extraValues,
          missingValues]
        simp only [Bool.not_true, Bool.toNat_false] at later
        omega
      · cases read
    | op o =>
      rw [programFrom] at read
      rcases released : releaseFor (operatorOf afterValue o) pending with ⟨out, left'⟩
      rw [released] at read
      obtain ⟨ops, rfl, rfl⟩ := releaseFor_front _ released
      obtain ⟨more, read', rfl⟩ := map_ok read
      obtain ⟨lower, ran', rfl⟩ := heightFrom_ops ran
      have later := ih read' ran'
      rw [List.countP_cons, isBinary_operatorOf] at later
      rw [List.countP_append, extraValues, missingValues]
      simp only [Bool.not_false, Bool.toNat_true] at later
      omega

end Heights

section Results

open Session (Answers evalFormula formulaToKotlin)

variable {text : String} {f : Formula} {ts : List Token}

/-- A formula without a tree is worth nothing: its value is zero, unless a number that it names is
beyond the range of the format, and so is its code. -/
structure Worthless (text : String) (f : Formula) : Prop where
  value : ∀ s fallback, Answers (evalFormula s text fallback)
    ((runFrom s f.program []).map fun _ => .float 0.0)
  returns : ∀ (s : Sight) (fallback : Number), s.InRange →
    Answers (evalFormula s text fallback) (.ok (.float 0.0))
  code : ∀ map style, Writable style f.program →
    Answers (formulaToKotlin map style text) (style.write (.int 0))

theorem worthless (nonempty : (trimmed text).isEmpty = false)
    (compiled : compile (trimmed text) = .ok f) (none : treeOf? f.program = none) :
    Worthless text f where
  value s fallback := by
    have answers := Session.evalFormula_answers s fallback nonempty compiled
    have zero : (f.eval s).map Number.float = (runFrom s f.program []).map fun _ => .float 0.0 := by
      rw [eval_treeless s none]
      cases runFrom s f.program [] <;> rfl
    rwa [zero] at answers
  returns s fallback inRange := by
    have answers := Session.evalFormula_answers s fallback nonempty compiled
    rwa [(treeless nonempty compiled none).returns s inRange] at answers
  code := (treeless nonempty compiled none).code

theorem program_of_compile (read : tokens (trimmed text) = .ok ts)
    (compiled : compile (trimmed text) = .ok f) : programOf ts = .ok f.program := by
  obtain ⟨us, read', programmed⟩ := bind_ok compiled
  cases read.symm.trans read'
  obtain ⟨program, made, same⟩ := bind_ok programmed
  cases same
  exact made

/-- The tokens of a formula are a sentence if no value is too many and none too few. Where the numbers of
these faults differ, or an operator comes before its operands, the formula is worth nothing; in all other
cases it is worth what a tree is worth. -/
theorem misplaced_worthless (nonempty : (trimmed text).isEmpty = false)
    (read : tokens (trimmed text) = .ok ts) (compiled : compile (trimmed text) = .ok f) :
    ((∃ e : Sum, e.tokens = ts) ↔ extraValues false ts = 0 ∧ missingValues false ts = 0) ∧
      (extraValues false ts ≠ missingValues false ts ∨ heightFrom f.program 0 = none →
        Worthless text f) ∧
      (¬(extraValues false ts ≠ missingValues false ts ∨ heightFrom f.program 0 = none) →
        ∃ t, Treelike text f t) := by
  have program := program_of_compile read compiled
  have height (left : Nat) (ran : heightFrom f.program 0 = some left) :
      left + missingValues false ts = extraValues false ts + 1 := by
    have counted := heightFrom_read program ran
    simpa using counted
  have tree := treeOf_isSome f.program
  refine ⟨sentence_iff program, fun faulty => worthless nonempty compiled ?_, fun sound => ?_⟩
  · rw [← Option.not_isSome_iff_eq_none, tree]
    intro one
    rcases faulty with unequal | starved
    · have counted := height 1 one
      omega
    · rw [starved] at one
      cases one
  · rw [not_or, not_not] at sound
    obtain ⟨equal, fed⟩ := sound
    obtain ⟨left, ran⟩ := Option.ne_none_iff_exists'.mp fed
    have counted := height left ran
    obtain rfl : left = 1 := by omega
    obtain ⟨t, found⟩ := Option.isSome_iff_exists.mp (tree.mpr ran)
    exact ⟨t, treelike nonempty compiled found⟩

theorem misplaced_worthless_groups :
    ∃ f ts, tokens (trimmed "2 * (a 4) ()") = .ok ts ∧ compile (trimmed "2 * (a 4) ()") = .ok f ∧
      (¬∃ e : Sum, e.tokens = ts) ∧ Worthless "2 * (a 4) ()" f := by
  have compiles : (compile (trimmed "2 * (a 4) ()")).isOk = true := by decide +kernel
  have faults : (tokens (trimmed "2 * (a 4) ()")).toOption.map (fun ts =>
      (extraValues false ts, missingValues false ts)) = some (2, 1) := by decide +kernel
  obtain ⟨f, compiled⟩ := ok_of_isOk compiles
  obtain ⟨ts, found, counts⟩ := Option.map_eq_some_iff.mp faults
  obtain ⟨extra, missing⟩ := Prod.mk.inj counts
  have read := ok_of_toOption found
  obtain ⟨sentence, unequal, _⟩ := misplaced_worthless (by decide) read compiled
  refine ⟨f, ts, read, compiled, fun e => ?_, unequal (.inl ?_)⟩
  · rw [extra] at sentence
    cases (sentence.mp e).1
  · rw [extra, missing]
    decide

/-- An operator after both of its operands is carried out, though the tokens are no sentence. -/
theorem misplaced_operator_adds :
    let ts : List Token := [.number 1.0, .number 2.0, .op .add]
    tokens "1 2 +" = .ok ts ∧ (compile "1 2 +").isOk = true ∧ (¬∃ e : Sum, e.tokens = ts) ∧
      (evalFormula {} "1 2 +" (.float 0.0) {}).1 = .ok (.float 3.0) := by
  intro ts
  have accepted : (compile "1 2 +").isOk = true := by decide +kernel
  have read : tokens "1 2 +" = .ok ts := by with_unfolding_all rfl
  have three : (evalFormula {} "1 2 +" (.float 0.0) {}).1 = .ok (.float 3.0) := by
    with_unfolding_all rfl
  have program : programOf ts = .ok [.number 1.0, .number 2.0, .op (.binary .add)] := rfl
  refine ⟨read, accepted, fun sentence => ?_, three⟩
  cases ((sentence_iff program).mp sentence).1

end Results

end EmitterLogic.Formula
