import EmitterLogic.Proofs.Condition.Denotation

namespace EmitterLogic

open Binary64 Session Script

open Formula (Tree)

/-- What a side of a computed comparison works out: the number of a term, or an operation on two. -/
inductive Outcome where
  | fixed (x : Float)
  | pair (o : ArithOp) (x y : Float)

namespace Outcome

/-- The result in the code, by the arithmetic of the number format. -/
def plain : Outcome → Float
  | fixed x => x
  | pair o x y => arithmetic o x y

/-- The result in the decision, by the arithmetic of formulas. -/
def guarded : Outcome → Float
  | fixed x => x
  | pair o x y => o.apply x y

/-- A quotient or a remainder by almost nothing. -/
def isDegenerate : Outcome → Bool
  | fixed _ => false
  | pair o _ y => (o == .div || o == .rem) && isNearZero y

def operands : Outcome → List Float
  | fixed x => [x]
  | pair _ x y => [x, y]

theorem guarded_eq {p : Outcome} (finite : ∀ x ∈ p.operands, x.isFinite = true) :
    p.guarded = if p.isDegenerate then 0.0 else p.plain := by
  cases p with
  | fixed x => rfl
  | pair o x y =>
    have hx := finite x List.mem_cons_self
    have hy := finite y (List.mem_cons_of_mem _ List.mem_cons_self)
    rw [guarded, ArithOp.apply.eq_def, hx, hy]
    cases o <;> cases near : isNearZero y <;> simp [isDegenerate, plain, arithmetic, near]

end Outcome

namespace Computed

def result (s : Sight) (c : Computed) : Outcome :=
  .pair c.mathOp (c.leftTerm.worth s) (c.rightTerm.worth s)

def expected (s : Sight) (c : Computed) : Outcome :=
  match c.resultMode with
  | .fixed => .fixed (c.fixedTerm.worth s)
  | .pair => .pair c.expectMathOp (c.expectLeftTerm.worth s) (c.expectRightTerm.worth s)

def operands (c : Computed) : List String :=
  c.leftTerm.operands ++ c.rightTerm.operands ++
    match c.resultMode with
    | .fixed => c.fixedTerm.operands
    | .pair => c.expectLeftTerm.operands ++ c.expectRightTerm.operands

/-- The decision that a comparison on terms comes to. -/
def decision (s : Sight) (c : Computed) : Bool :=
  c.resultCmp.onFloats (c.result s).guarded (c.expected s).guarded

/-- The decision that the code of a comparison on terms comes to. -/
def plainDecision (s : Sight) (c : Computed) : Bool :=
  c.resultCmp.holdsNearly (c.result s).plain (c.expected s).plain

end Computed

section Sides

variable {s : Sight} {names more : List String} {x y : Float} {a b : String}

theorem formulaValue_answers {fallback : Float}
    (value : Answers (evalFormula s a (.float fallback)) (.ok (.float x))) :
    Answers (Rule.formulaValue s a fallback) (.ok x) := by
  have number : (Number.float x).toFloat = .ok x := Number.toFloat_float x
  have raised := Answers.raised (Number.float x).toFloat
  rw [number] at raised
  exact value.seq raised

theorem pair_writes (left : Denotes s a names x) (right : Denotes s b more y) (o : ArithOp) :
    Writes s (pairToKotlin [] .full a o b) (names ++ more) (arithmetic o x y) := by
  obtain ⟨c, namedC, writtenC, readC⟩ := left.code
  obtain ⟨d, namedD, writtenD, readD⟩ := right.code
  let both : Code .operand := .group (.single (.plain (.toDouble
    (.joined (.plain (.group (.single (.plain c)))) (.arith o)
      (.plain (.group (.single (.plain d))))))))
  have text : "(((" ++ c.text ++ ") " ++ o.sign ++ " (" ++ d.text ++ ")).toDouble())" =
      both.text := by
    simp only [both, Code.text_group, Code.text_toDouble, Code.text_joined, Code.text_single,
      Code.text_plain, Connective.text_arith, String.append_assoc]
    rfl
  refine ⟨both, fun free => ?_, ?_, fun place => Expr.number?_arith o (readC _) (readD _)⟩
  · exact ⟨namedC fun w hw => free w (List.mem_append_left _ hw),
      namedD fun w hw => free w (List.mem_append_right _ hw)⟩
  · rw [← text]
    exact writtenC.seq (writtenD.seq .value)

def resultCode (c : Code .operand) : Code .operand :=
  .group (.single (.plain (.toDouble (.single (.plain c)))))

theorem resultCode_text (c : Code .operand) :
    (resultCode c).text = "((" ++ c.text ++ ").toDouble())" := by
  simp only [resultCode, Code.text_group, Code.text_toDouble, Code.text_single, Code.text_plain,
    String.append_assoc]
  rfl

def toleranceNumeral : Numeral where
  whole := ['1']
  fraction := []
  exponent := some (true, ['6'])
  whole_ne_nil := List.cons_ne_nil _ _
  whole_digits := List.forall_mem_singleton.mpr rfl
  fraction_digits := List.forall_mem_nil _
  exponent_digits := by
    rintro _ _ ⟨⟩
    exact ⟨List.cons_ne_nil _ _, List.forall_mem_singleton.mpr rfl⟩

theorem toleranceNumeral_value : toleranceNumeral.value = tolerance := by decide

def comparisonCode (c : Comparison) (a b : Code .operand) : Code .operand :=
  let left : Code .signed := .plain (.group (.single (.plain a)))
  let right : Code .signed := .plain (.group (.single (.plain b)))
  let nearly (c : Comparison) : Code .operand := .group (.joined
    (.plain (.abs (.joined left (.arith .sub) right))) (.compare c) (.plain (.numeral toleranceNumeral)))
  match c with
  | .eq => nearly .le
  | .ne => nearly .gt
  | c => .group (.joined left (.compare c) right)

theorem comparisonCode_text (c : Comparison) (a b : Code .operand) :
    (comparisonCode c a b).text = c.resultToKotlin a.text b.text := by
  have tolerance : (Code.numeral toleranceNumeral).text = "1e-6" := rfl
  cases c
  all_goals
    simp only [comparisonCode, Comparison.resultToKotlin, Code.text_group, Code.text_abs,
      Code.text_joined, Code.text_single, Code.text_plain, Connective.text_arith,
      Connective.text_compare, tolerance, String.append_assoc]
    rfl

theorem comparisonCode_named (c : Comparison) {a b : Code .operand} (left : a.WellNamed)
    (right : b.WellNamed) : (comparisonCode c a b).WellNamed := by
  cases c
  case eq => exact ⟨⟨left, right⟩, trivial⟩
  case ne => exact ⟨⟨left, right⟩, trivial⟩
  all_goals exact ⟨left, right⟩

theorem comparisonCode_truth (c : Comparison) {a b : Code .operand}
    (left : ∀ place, (a.expr place).number? s = some x)
    (right : ∀ place, (b.expr place).number? s = some y) (place : Nat) :
    ((comparisonCode c a b).expr place).truth? s = some (c.holdsNearly x y) := by
  have bound : (Expr.number toleranceNumeral.value).number? s = some tolerance :=
    congrArg some toleranceNumeral_value
  cases c
  case eq =>
    exact Expr.truth?_compare .le
      (Expr.number?_abs _ (Expr.number?_arith .sub (left _) (right _))) bound
  case ne =>
    exact Expr.truth?_compare .gt
      (Expr.number?_abs _ (Expr.number?_arith .sub (left _) (right _))) bound
  all_goals exact Expr.truth?_compare _ (left _) (right _)

end Sides

section Rules

variable {s : Sight} {r : Rule}

namespace Computed

variable {c : Computed}

theorem Boxed.denotes (boxed : c.Boxed) {t : Term} {text : String} (part : (t, text) ∈ c.parts)
    (numbers : s.Numbers t.operands) : Denotes s text t.operands (t.worth s) := by
  obtain ⟨normal, same⟩ := boxed.parts _ part
  obtain rfl : text = t.toExpr := same
  exact t.denotes normal numbers

structure Denoted (s : Sight) (c : Computed) : Prop where
  left : Denotes s c.leftExpr c.leftTerm.operands (c.leftTerm.worth s)
  right : Denotes s c.rightExpr c.rightTerm.operands (c.rightTerm.worth s)
  fixed : c.resultMode = .fixed →
    Denotes s c.expectExpr c.fixedTerm.operands (c.fixedTerm.worth s)
  expectLeft : c.resultMode = .pair →
    Denotes s c.expectLeftExpr c.expectLeftTerm.operands (c.expectLeftTerm.worth s)
  expectRight : c.resultMode = .pair →
    Denotes s c.expectRightExpr c.expectRightTerm.operands (c.expectRightTerm.worth s)

theorem Boxed.denoted (boxed : c.Boxed) (numbers : s.Numbers c.operands) : c.Denoted s := by
  simp only [Sight.Numbers, operands, List.forall_mem_append] at numbers
  obtain ⟨⟨left, right⟩, expected⟩ := numbers
  constructor
  case left => exact boxed.denotes (by simp [Computed.parts]) left
  case right => exact boxed.denotes (by simp [Computed.parts]) right
  all_goals
    intro mode
    rw [mode] at expected
  case fixed => exact boxed.denotes (by simp [Computed.parts]) expected
  case expectLeft =>
    exact boxed.denotes (by simp [Computed.parts]) (List.forall_mem_append.mp expected).1
  case expectRight =>
    exact boxed.denotes (by simp [Computed.parts]) (List.forall_mem_append.mp expected).2

theorem Denoted.finite (denoted : c.Denoted s) :
    (∀ x ∈ (c.result s).operands, x.isFinite = true) ∧
      ∀ x ∈ (c.expected s).operands, x.isFinite = true := by
  refine ⟨?_, ?_⟩
  · simp only [result, Outcome.operands, List.forall_mem_cons]
    exact ⟨denoted.left.finite, denoted.right.finite, List.forall_mem_nil _⟩
  · rw [expected]
    cases mode : c.resultMode with
    | fixed => exact List.forall_mem_singleton.mpr (denoted.fixed mode).finite
    | pair =>
      simp only [Outcome.operands, List.forall_mem_cons]
      exact ⟨(denoted.expectLeft mode).finite, (denoted.expectRight mode).finite,
        List.forall_mem_nil _⟩

end Computed

namespace Rule

theorem holdsComputed_answers (boxed : r.computed.Boxed)
    (readable : s.Readable r.computed.operands) (left right : Float) :
    Answers (r.holdsComputed s left right) (.ok (r.computed.decision s)) := by
  have each {t : Term} {text : String} (part : (t, text) ∈ r.computed.parts)
      (readable : s.Readable t.operands) (fallback : Float) :
      Answers (formulaValue s text fallback) (.ok (t.worth s)) := by
    obtain ⟨normal, same⟩ := boxed.parts _ part
    obtain rfl : text = t.toExpr := same
    exact formulaValue_answers (Term.evalFormula_toExpr normal readable _)
  obtain ⟨m₁, m₂, m₃, m₄, m₅⟩ := r.computed.mem_parts
  simp only [Sight.Readable, Computed.operands, List.forall_mem_append] at readable
  obtain ⟨⟨first, second⟩, expected⟩ := readable
  simp only [holdsComputed, boxed.mode, Computed.decision, Computed.expected]
  refine (each m₁ first left).seq ?_
  refine (each m₂ second right).seq ?_
  cases mode : r.computed.resultMode with
  | fixed =>
    rw [mode] at expected
    exact (each m₃ expected 0.0).seq .value
  | pair =>
    rw [mode] at expected
    obtain ⟨third, fourth⟩ := List.forall_mem_append.mp expected
    refine (each m₄ third right).seq ?_
    exact (each m₅ fourth 0.0).seq .value

theorem computedToKotlin_answers (box : r.computed.valueMode = .box)
    (denoted : r.computed.Denoted s) :
    ∃ a b : Code .operand,
      ((∀ w ∈ r.computed.operands, isReserved w = false) → a.WellNamed ∧ b.WellNamed) ∧
      Answers (r.computedToKotlin [] .full)
        (.ok (r.computed.resultCmp.resultToKotlin a.text b.text)) ∧
      (∀ place, (a.expr place).number? s = some (r.computed.result s).plain) ∧
      ∀ place, (b.expr place).number? s = some (r.computed.expected s).plain := by
  obtain ⟨a, namedA, writtenA, readA⟩ :=
    pair_writes denoted.left denoted.right r.computed.mathOp
  simp only [computedToKotlin, box, Computed.expected, Computed.operands]
  cases mode : r.computed.resultMode with
  | fixed =>
    obtain ⟨b, namedB, writtenB, readB⟩ := (denoted.fixed mode).code
    refine ⟨a, resultCode b, fun free => ?_, ?_, readA, fun place => readB _⟩
    · exact ⟨namedA fun w hw => free w (List.mem_append_left _ hw),
        namedB fun w hw => free w (List.mem_append_right _ hw)⟩
    · rw [resultCode_text]
      exact writtenA.seq (writtenB.seq (Answers.value.seq .value))
  | pair =>
    obtain ⟨b, namedB, writtenB, readB⟩ := pair_writes (denoted.expectLeft mode)
      (denoted.expectRight mode) r.computed.expectMathOp
    refine ⟨a, b, fun free => ?_, writtenA.seq (writtenB.seq .value), readA, readB⟩
    exact ⟨namedA fun w hw => free w (List.mem_append_left _ hw),
      namedB fun w hw => free w (List.mem_append_right _ hw)⟩

theorem decides_computed (boxed : r.computed.Boxed) (numbers : s.Numbers r.computed.operands) :
    ∃ c : Code .operand,
      ((∀ w ∈ r.computed.operands, isReserved w = false) → c.WellNamed) ∧
      Answers (r.computedToKotlin [] .full) (.ok c.text) ∧
      (∀ place, (c.expr place).truth? s = some (r.computed.plainDecision s)) ∧
      ∀ left right, Answers (r.holdsComputed s left right) (.ok (r.computed.decision s)) := by
  have denoted := boxed.denoted numbers
  obtain ⟨a, b, named, written, readA, readB⟩ := computedToKotlin_answers boxed.mode denoted
  refine ⟨comparisonCode r.computed.resultCmp a b, fun free => ?_, ?_, fun place => ?_, ?_⟩
  · exact comparisonCode_named _ (named free).1 (named free).2
  · rw [comparisonCode_text]
    exact written
  · exact comparisonCode_truth _ readA readB place
  · exact holdsComputed_answers boxed numbers.readable

end Rule

namespace Computed

variable {c : Computed}

/-- Neither side divides by almost nothing. -/
def Regular (s : Sight) (c : Computed) : Prop :=
  (c.result s).isDegenerate = false ∧ (c.expected s).isDegenerate = false

theorem decision_regular (denoted : c.Denoted s) (regular : c.Regular s) : c.decision s =
    ((c.result s).plain.isFinite && (c.expected s).plain.isFinite && c.plainDecision s) := by
  have left := Outcome.guarded_eq denoted.finite.1
  have right := Outcome.guarded_eq denoted.finite.2
  rw [regular.1, if_neg Bool.false_ne_true] at left
  rw [regular.2, if_neg Bool.false_ne_true] at right
  rw [decision, plainDecision, left, right]
  rfl

theorem decision_eq_iff (denoted : c.Denoted s) (regular : c.Regular s) :
    c.decision s = c.plainDecision s ↔
      (c.result s).plain.isFinite = true ∧ (c.expected s).plain.isFinite = true ∨
        c.plainDecision s = false := by
  rw [decision_regular denoted regular]
  cases (c.result s).plain.isFinite <;> cases (c.expected s).plain.isFinite <;>
    cases c.plainDecision s <;> simp

theorem not_nearly_infinite {x y : Float} (infinite : (x.isFinite && y.isFinite) = false) :
    Comparison.eq.holdsNearly x y = false := by
  have bound : tolerance.isFinite = true := by decide
  exact decide_eq_false (not_abs_le (isFinite_sub infinite) bound)

theorem equality_regular (denoted : c.Denoted s) (regular : c.Regular s)
    (equality : c.resultCmp = .eq) : c.decision s = c.plainDecision s := by
  rw [decision_eq_iff denoted regular, ← Bool.and_eq_true, or_iff_not_imp_left, Bool.not_eq_true,
    plainDecision, equality]
  exact not_nearly_infinite

end Computed

/-- The decision of a computed comparison on terms beside what its code comes to: they are the same
comparison of two results. In the code these are the plain ones, in the decision a quotient or
remainder by almost nothing counts as zero, and what is not finite compares with nothing. -/
theorem Rule.computed_code_decides (normalized : r.Normalized)
    (box : r.computed.valueMode = .box) (numbers : s.Numbers r.computed.operands) :
    ∃ c : Code .operand, Answers (r.computedToKotlin [] .full) (.ok c.text) ∧
      ((∀ w ∈ r.computed.operands, isReserved w = false) →
        parseExpression c.text = .ok (c.expr 0)) ∧
      (c.expr 0).truth? s = some (r.computed.plainDecision s) ∧
      (∀ left right, Answers (r.holdsComputed s left right) (.ok (r.computed.decision s))) ∧
      (r.computed.Regular s → (r.computed.decision s = r.computed.plainDecision s ↔
        (r.computed.result s).plain.isFinite = true ∧
          (r.computed.expected s).plain.isFinite = true ∨
        r.computed.plainDecision s = false)) ∧
      (r.computed.Regular s → r.computed.resultCmp = .eq →
        r.computed.decision s = r.computed.plainDecision s) := by
  have boxed := normalized.boxed box
  have denoted := boxed.denoted numbers
  obtain ⟨c, named, written, truth, decision⟩ := decides_computed boxed numbers
  exact ⟨c, written, fun free => Code.parse_text (.single (.plain c)) (named free), truth 0,
    decision, Computed.decision_eq_iff denoted, Computed.equality_regular denoted⟩

theorem Rule.computed_code_decides_remainder :
    let s : Sight := ⟨[("hp", .float (-7.5))], [("life", .int 3)]⟩
    let raw : Datum := .object [("op", .text "calc_eq"), ("calcMathOp", .text "%"),
      ("calcLeftExpr", .text "hp"), ("calcRightExpr", .text "maxAge"),
      ("calcResultMode", .text "calc"), ("calcResultCmp", .text ">="),
      ("calcExpectLeftExpr", .text "-1.5"), ("calcExpectMathOp", .text "*"),
      ("calcExpectRightExpr", .text "maxAge")]
    ∃ (r : Rule) (c : Code .operand), Rule.ofDatum raw = .ok r ∧
      Answers (r.computedToKotlin [] .full) (.ok c.text) ∧
      parseExpression c.text = .ok (c.expr 0) ∧ (c.expr 0).truth? s = some true ∧
      ∀ left right, Answers (r.holdsComputed s left right) (.ok true) := by
  intro s raw
  have shape : (Rule.ofDatum raw).toOption.map (fun r => r.computed.valueMode == .box &&
      r.computed.operands == ["hp", "maxAge", "maxAge"] && r.computed.decision s &&
      r.computed.plainDecision s) = some true := by decide +kernel
  obtain ⟨r, found, shape⟩ := Option.map_eq_some_iff.mp shape
  simp only [Bool.and_eq_true, beq_iff_eq] at shape
  obtain ⟨⟨⟨box, operands⟩, decided⟩, plain⟩ := shape
  have numbers : s.Numbers ["hp", "maxAge", "maxAge"] := by
    simp only [Sight.Numbers, List.forall_mem_cons]
    exact ⟨⟨-7.5, rfl⟩, ⟨3.0, rfl⟩, ⟨3.0, rfl⟩, List.forall_mem_nil _⟩
  have unreserved : ∀ w ∈ ["hp", "maxAge", "maxAge"], isReserved w = false := by decide
  rw [← operands] at numbers unreserved
  have given := ok_of_toOption found
  obtain ⟨c, written, reads, truth, decision, _⟩ :=
    Rule.computed_code_decides (.alone given) box numbers
  rw [decided] at decision
  rw [plain] at truth
  exact ⟨r, c, given, written, reads unreserved, truth, decision⟩

/-- `5 / 0` is zero in the decision, and not finite in the code. -/
theorem Rule.computed_code_quotient :
    let s : Sight := ⟨[("age", .int 5)], []⟩
    let raw : Datum := .object [("op", .text "calc_eq"), ("calcMathOp", .text "/")]
    ∃ (r : Rule) (c : Code .operand), Rule.ofDatum raw = .ok r ∧ r.usesComputed = true ∧
      r.computed.valueMode = .box ∧ s.Numbers r.computed.operands ∧
      Answers (r.computedToKotlin [] .full) (.ok c.text) ∧
      parseExpression c.text = .ok (c.expr 0) ∧ (c.expr 0).truth? s = some false ∧
      ∀ left right, Answers (r.holdsComputed s left right) (.ok true) := by
  intro s raw
  have shape : (Rule.ofDatum raw).toOption.map (fun r => r.usesComputed &&
      r.computed.valueMode == .box && r.computed.operands == ["age"] &&
      r.computed.decision s && !r.computed.plainDecision s) = some true := by decide +kernel
  obtain ⟨r, found, shape⟩ := Option.map_eq_some_iff.mp shape
  simp only [Bool.and_eq_true, Bool.not_eq_true', beq_iff_eq] at shape
  obtain ⟨⟨⟨⟨computed, box⟩, operands⟩, decided⟩, plain⟩ := shape
  have numbers : s.Numbers ["age"] := List.forall_mem_singleton.mpr ⟨5.0, rfl⟩
  have unreserved : ∀ w ∈ ["age"], isReserved w = false := by decide
  rw [← operands] at numbers unreserved
  have given := ok_of_toOption found
  obtain ⟨c, named, written, truth, decision⟩ :=
    decides_computed (ofDatum_boxed given box) numbers
  have truth := truth 0
  rw [decided] at decision
  rw [plain] at truth
  exact ⟨r, c, given, computed, box, numbers, written,
    Code.parse_text (.single (.plain c)) (named unreserved), truth, decision⟩

end Rules

end EmitterLogic
