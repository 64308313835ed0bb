import EmitterLogic.Proofs.Condition.ComputedCode
import EmitterLogic.Proofs.Condition.Reread
import EmitterLogic.Proofs.Number.Plain

/-!
Plain equality. A rule that asks for equality and says nothing of a computed comparison makes one of its
two sides: their difference is compared with zero. The terms and texts that stand between the sides and
this comparison are worth what the sides are.
-/

namespace EmitterLogic

open Binary64 Session

section Names

theorem isNumeral_ident {w : String} (word : Text.isIdentChars w.toList = true) :
    isNumeral w = false := by
  rw [isNumeral, trim_ident word]
  cases chars : w.toList with
  | nil => rfl
  | cons c rest =>
    rw [chars, Text.isIdentChars, Bool.and_eq_true] at word
    have starts : (Text.identStarts.all fun c => c != '-' && c != '+' && c != '.' &&
      !Text.isDecimal c) = true := by decide +kernel
    have first := Text.of_isIdentStart starts word.1
    simp only [Bool.and_eq_true, bne_iff_ne, ne_eq, Bool.not_eq_true'] at first
    obtain ⟨⟨⟨minus, plus⟩, point⟩, digit⟩ := first
    have sign : Reading.signOf (c :: rest) = (false, c :: rest) := by
      unfold Reading.signOf
      split
      · next h => exact absurd (List.cons.inj h).1 minus
      · next h => exact absurd (List.cons.inj h).1 plus
      · rfl
    have starts : Text.startsWithDecimal (c :: rest) = false := digit
    simp only [Text.isNumeralChars, sign, starts, Bool.false_eq_true, if_false]
    split
    · next h => exact absurd (List.cons.inj h).1 point
    · rfl

theorem Sight.worth_canonicalName (s : Sight) {w : String}
    (word : Text.isIdentChars w.toList = true) : s.worth (canonicalName w) = s.worth w := by
  rw [worth, worth, read?_canonicalName word]

end Names

section Terms

namespace Term

theorem infer_of_some {token : Datum} {t : Term}
    (h : ofToken? (canonicalName token.textOrEmpty) = some t) (fallback : RawTerm) :
    infer token fallback = .ok t := by
  delta infer
  simp only [h]

theorem infer_of_none {token : Datum} (h : ofToken? (canonicalName token.textOrEmpty) = none)
    (fallback : RawTerm) : infer token fallback = normalize fallback.kind fallback.value := by
  delta infer
  simp only [h]

theorem ofToken_numeral {w : String} (numeral : isNumeral w = true) :
    ofToken? w = some (number ((Reading.float? w.toList).getD 0.0)) := if_pos numeral

theorem ofToken_ident {w : String} (word : Text.isIdentChars w.toList = true) :
    ofToken? w = some (((Builtin.ofName? w).map builtin).getD (.named w)) := by
  delta ofToken?
  simp only [isNumeral_ident word, isIdent_of_chars word, Bool.false_eq_true, if_false, if_true]
  cases Builtin.ofName? w with
  | some b => rfl
  | none => rfl

theorem inferText_ident {w : String} (word : Text.isIdentChars w.toList = true) :
    ∃ t, inferText w = .ok t ∧ t.Normal ∧ ∀ s : Sight, t.worth s = s.worth w := by
  have chars := canonicalName_chars word
  have token : ofToken? (canonicalName (Datum.text w).textOrEmpty) =
      some (((Builtin.ofName? (canonicalName w)).map builtin).getD (.named (canonicalName w))) := by
    rw [Datum.textOrEmpty_text, ofToken_ident chars]
  refine ⟨_, infer_of_some token {}, ?_⟩
  cases found : Builtin.ofName? (canonicalName w) with
  | some b =>
    refine ⟨⟨nofun, nofun⟩, fun s => ?_⟩
    have same : (builtin b).worth s = s.worth b.name := rfl
    rw [Option.map_some, Option.getD_some, same, Builtin.name_of_ofName? found,
      s.worth_canonicalName word]
  | none =>
    rw [Option.map_none, Option.getD_none]
    refine ⟨⟨nofun, fun v same => ?_⟩, fun s => ?_⟩
    · rw [← named.inj same]
      exact identOrEmpty_eq_iff.mpr (.inr chars)
    · rw [worth, isEmpty_ident chars, if_neg Bool.false_ne_true,
        s.worth_canonicalName word]

theorem inferText_plainNumeral {x : Float} (finite : x.isFinite = true) :
    inferText (plainNumeral x) = .ok (number (unsignedZero x)) := by
  obtain ⟨numeral, reads⟩ := plainNumeral_reads finite
  have visible := Term.trimmed_toExpr (t := number x) ⟨fun y same => by cases same; exact finite, nofun⟩
  rw [toExpr, if_pos finite] at visible
  have old : (plainNumeral x == "life") = false := by
    rw [beq_eq_false_iff_ne]
    intro same
    rw [same, isNumeral_ident (by decide)] at numeral
    cases numeral
  have token : canonicalName (Datum.text (plainNumeral x)).textOrEmpty = plainNumeral x := by
    rw [Datum.textOrEmpty_text]
    simp only [canonicalName, visible, old, Bool.false_eq_true, if_false]
  refine infer_of_some ?_ {}
  rw [token, ofToken_numeral numeral, reads, Option.getD_some]

theorem inferText_toExpr {t : Term} (normal : t.Normal) :
    ∃ u, inferText t.toExpr = .ok u ∧ u.Normal ∧ ∀ s : Sight, u.worth s = t.worth s := by
  have plain {x : Float} (finite : x.isFinite = true) : ∃ u, inferText (number x).toExpr = .ok u ∧
      u.Normal ∧ ∀ s : Sight, u.worth s = unsignedZero x := by
    rw [toExpr, if_pos finite]
    refine ⟨_, inferText_plainNumeral finite, ⟨fun y same => ?_, (by rintro _ ⟨⟩)⟩, fun s => ?_⟩
    · cases same
      exact isFinite_unsignedZero finite
    · rw [worth, unsignedZero_unsignedZero]
  cases t with
  | number x => exact plain (normal.number x rfl)
  | builtin b => exact inferText_ident b.name_ident
  | named w =>
    rcases identOrEmpty_eq_iff.mp (normal.name w rfl) with rfl | word
    · rw [toExpr_unnamed]
      have zero : unsignedZero 0.0 = 0.0 := by decide
      have found := plain zero_isFinite
      rw [zero] at found
      exact found
    · simp only [toExpr_named word, worth, isEmpty_ident word, Bool.false_eq_true, if_false]
      exact inferText_ident word

theorem infer_null {t : Term} (normal : t.Normal) : infer .null t.toRaw = .ok t := by
  have token : ofToken? (canonicalName Datum.null.textOrEmpty) = none := by decide
  rw [infer_of_none token]
  exact normalize_toDatum normal {}

theorem normalize_null {t : Term} (normal : t.Normal) : normalize .null .null t.toRaw = .ok t := by
  have null : Datum.null.isNull = true := rfl
  delta Term.normalize
  simp only [toRaw, null, Datum.textOrEmpty_text, t.kind.ofText_name, Bool.false_eq_true, if_false,
    if_true]
  cases t with
  | number x =>
    have finite := finiteOrZero_float (normal.number x rfl)
    rw [kind]
    simp only [value, ofNumber, finite, Except.map]
  | named w =>
    rw [kind]
    simp only [value, Datum.textOrEmpty_text, normal.name w rfl]
  | builtin b => rfl

theorem normalize_zero (fallback : RawTerm) :
    Term.normalize (.text "number") (.int 0) fallback = .ok .zero := by
  have given : ("number" != "") = true := by decide
  have kind : TermKind.ofText (Datum.text "number").textOrEmpty = .number := by decide
  have value : (Datum.int 0).isNull = false := rfl
  delta Term.normalize
  simp only [given, kind, value, Bool.false_eq_true, if_false, if_true]
  rfl

end Term

theorem Rule.termOf_null {d : Datum} (key : String) {exprKey : String} {t : Term}
    (normal : t.Normal) (text : d.getD exprKey = .null) (kind : d.getD (key ++ "TermType") = .null)
    (value : d.getD (key ++ "TermValue") = .null) : termOf d key exprKey t = .ok t := by
  rw [termOf, text, kind, value, bind_of_ok (Term.infer_null normal)]
  exact Term.normalize_null normal

end Terms

section Sides

variable {s : Sight}

/-- The term of a side; a reason has none and counts as zero. -/
def RightSide.toTerm : RightSide → Term
  | number x => .number x
  | named w => .named w
  | builtin b => .builtin b
  | reason _ => .zero

theorem RightSide.toExpr_toTerm (side : RightSide) : side.toExpr = side.toTerm.toExpr := by
  cases side with
  | reason r => exact Term.toExpr_unnamed
  | _ => rfl

theorem Term.zero_normal : Term.zero.Normal := by
  refine ⟨fun x same => ?_, nofun⟩
  cases same
  exact zero_isFinite

theorem LeftSide.Normal.toTerm {side : LeftSide} (normal : side.Normal) : side.toTerm.Normal := by
  cases side with
  | builtin b => exact ⟨nofun, nofun⟩
  | named w =>
    refine ⟨nofun, fun v same => ?_⟩
    cases same
    exact normal.name w rfl
  | reason => exact Term.zero_normal

theorem RightSide.Normal.toTerm {side : RightSide} (normal : side.Normal) : side.toTerm.Normal := by
  cases side with
  | number x =>
    refine ⟨fun y same => ?_, nofun⟩
    cases same
    exact normal.number x rfl
  | named w =>
    refine ⟨nofun, fun v same => ?_⟩
    cases same
    exact normal.name w rfl
  | builtin b => exact ⟨nofun, nofun⟩
  | reason r => exact Term.zero_normal

theorem Sight.InRange.readD_eq (inRange : s.InRange) (w : String) :
    s.readD w 0.0 = .ok (s.worth w) := Sight.readD_eq (inRange.read? w)

theorem Term.worth_named (s : Sight) (w : String) : (named w).worth s = s.worth w := by
  rw [worth]
  split
  · next empty =>
    rw [String.isEmpty_iff.mp empty]
    rfl
  · rfl

theorem LeftSide.resolve_eq {side : LeftSide} (inRange : s.InRange) (plain : side ≠ .reason) :
    side.resolve s = .ok (.number (side.toTerm.worth s)) := by
  cases side with
  | reason => exact absurd rfl plain
  | builtin b =>
    rw [resolve, inRange.readD_eq]
    rfl
  | named w =>
    rw [resolve, inRange.readD_eq, toTerm, Term.worth_named]
    rfl

theorem RightSide.resolve_eq {side : RightSide} (normal : side.Normal) (inRange : s.InRange)
    (plain : side.isReason = false) : ∃ y, side.resolve s = .ok (.number y) ∧ y.isFinite = true ∧
      (side.toTerm.worth s = y ∨ side.toTerm.worth s = unsignedZero y) := by
  cases side with
  | reason r => cases plain
  | number x =>
    have finite := normal.number x rfl
    have only : finiteOnly x = some x := if_pos finite
    refine ⟨x, ?_, finite, .inr rfl⟩
    rw [resolve, only]
    rfl
  | builtin b =>
    refine ⟨s.worth b.name, ?_, s.worth_isFinite _, .inl rfl⟩
    rw [resolve, inRange.readD_eq]
    rfl
  | named w =>
    refine ⟨s.worth w, ?_, s.worth_isFinite _, .inl (Term.worth_named s w)⟩
    rw [resolve, inRange.readD_eq]
    rfl

end Sides

section Rules

variable {s : Sight} {d raw : Datum} {allowReason : Bool} {left : LeftSide} {right : RightSide}

/-- The keys at which a document holds a computed comparison. -/
def Computed.keys : List String :=
  ["calcValueMode", "calcMathOp", "calcExpectMathOp", "calcResultMode", "calcResultCmp",
    "calcLeftTermType", "calcLeftTermValue", "calcRightTermType", "calcRightTermValue",
    "calcFixedTermType", "calcFixedTermValue", "calcExpectLeftTermType", "calcExpectLeftTermValue",
    "calcExpectRightTermType", "calcExpectRightTermValue", "calcLeftExpr", "calcRightExpr",
    "calcExpectExpr", "calcExpectLeftExpr", "calcExpectRightExpr", "calcBooleanExpr"]

namespace Rule

structure Subtracts (d : Datum) : Prop where
  valueMode : chosen [.box, .expr] ValueMode.name .box (wordOf (d.getD "calcValueMode")) = .box
  mathOp : mathOpOf (d.getD "calcMathOp") = .sub
  resultMode :
    chosen [.fixed, .pair] ResultMode.name .fixed (wordOf (d.getD "calcResultMode")) = .fixed
  resultCmp : chosen Comparison.all Comparison.sign .eq (wordOf (d.getD "calcResultCmp")) = .eq

theorem computedOf_subtracts {given a b f x y : Term} (subtracts : Subtracts d)
    (inferred : Term.inferText right.toExpr = .ok given)
    (ha : termOf d "calcLeft" "calcLeftExpr" left.toTerm = .ok a)
    (hb : termOf d "calcRight" "calcRightExpr" given = .ok b)
    (hf : termOf d "calcFixed" "calcExpectExpr" .zero = .ok f)
    (hx : termOf d "calcExpectLeft" "calcExpectLeftExpr" given = .ok x)
    (hy : termOf d "calcExpectRight" "calcExpectRightExpr" .zero = .ok y) :
    ∃ c, computedOf d left right = .ok c ∧ c.Boxed ∧ ∀ s, c.decision s =
      Comparison.eq.onFloats (ArithOp.sub.apply (a.worth s) (b.worth s)) (f.worth s) := by
  obtain ⟨c, made, box, decision⟩ : ∃ c, computedOf d left right = .ok c ∧ c.valueMode = .box ∧
      ∀ s, c.decision s =
        Comparison.eq.onFloats (ArithOp.sub.apply (a.worth s) (b.worth s)) (f.worth s) := by
    rw [computedOf, bind_of_ok inferred, bind_of_ok ha, bind_of_ok hb, bind_of_ok hf, bind_of_ok hx,
      bind_of_ok hy, subtracts.valueMode, subtracts.mathOp, subtracts.resultMode,
      subtracts.resultCmp]
    exact ⟨_, rfl, rfl, fun _ => rfl⟩
  exact ⟨c, made, computedOf_boxed made box, decision⟩

theorem computedOf_null (absent : ∀ key ∈ Computed.keys, d.getD key = .null) (hl : left.Normal)
    (hr : right.Normal) : ∃ c, computedOf d left right = .ok c ∧ c.Boxed ∧ ∀ s, c.decision s =
      Comparison.eq.onFloats (ArithOp.sub.apply (left.toTerm.worth s) (right.toTerm.worth s)) 0.0 := by
  simp only [Computed.keys, List.forall_mem_cons] at absent
  obtain ⟨mode, mathOp, _, resultMode, resultCmp, t₁, v₁, t₂, v₂, t₃, v₃, t₄, v₄, t₅, v₅, e₁, e₂, e₃,
    e₄, e₅, _⟩ := absent
  have subtracts : Subtracts d := by
    constructor
    · rw [mode]
      decide
    · rw [mathOp]
      decide
    · rw [resultMode]
      decide
    · rw [resultCmp]
      decide
  obtain ⟨u, inferred, normal, worth⟩ := Term.inferText_toExpr hr.toTerm
  rw [← RightSide.toExpr_toTerm] at inferred
  obtain ⟨c, made, boxed, decision⟩ := computedOf_subtracts subtracts inferred
    (termOf_null "calcLeft" hl.toTerm e₁ t₁ v₁) (termOf_null "calcRight" normal e₂ t₂ v₂)
    (termOf_null "calcFixed" Term.zero_normal e₃ t₃ v₃)
    (termOf_null "calcExpectLeft" normal e₄ t₄ v₄)
    (termOf_null "calcExpectRight" Term.zero_normal e₅ t₅ v₅)
  refine ⟨c, made, boxed, fun s => ?_⟩
  have zero : unsignedZero 0.0 = 0.0 := by decide
  have nought : Term.zero.worth s = 0.0 := zero
  rw [decision, worth, nought]

theorem sub_apply {x y : Float} (hx : x.isFinite = true) (hy : y.isFinite = true) :
    ArithOp.sub.apply x y = x - y := by
  rw [ArithOp.apply, hx, hy]
  rfl

theorem onFloats_eq {y : Float} (x : Float) (hy : y.isFinite = true) :
    Comparison.eq.onFloats x y = (x.isFinite && (x - y).abs ≤ tolerance) := by
  rw [Comparison.onFloats, hy, Bool.and_true]
  rfl

def isSlight (d : Float) : Bool := d.isFinite && (d - 0.0).abs ≤ tolerance

theorem onFloats_difference {x y : Float} (hx : x.isFinite = true) (hy : y.isFinite = true) :
    Comparison.eq.onFloats (ArithOp.sub.apply x y) 0.0 = isSlight (x - y) := by
  rw [sub_apply hx hy, onFloats_eq _ zero_isFinite, isSlight]

theorem isSlight_sub_unsignedZero {x y : Float} (hx : x.isFinite = true) (hy : y.isFinite = true) :
    isSlight (x - unsignedZero y) = isSlight (x - y) :=
  of_sub_unsignedZero (f := isSlight) (by decide) hx hy

theorem operand_finiteOrZero (o : Operand) : ∃ x, o.toDatum.finiteOrZero = .ok x := by
  cases o with
  | number x => exact ⟨_, rfl⟩
  | reason r => exact ⟨_, rfl⟩

theorem holds_computed {r : Rule} (uses : r.usesComputed = true) (boxed : r.computed.Boxed)
    (inRange : s.InRange) {a b : Operand} (left : r.left.resolve s = .ok a)
    (right : r.right.resolve s = .ok b) : Answers (r.holds s) (.ok (r.computed.decision s)) := by
  obtain ⟨x, first⟩ := operand_finiteOrZero a
  obtain ⟨y, second⟩ := operand_finiteOrZero b
  have decided := holdsComputed_answers boxed (inRange.readable _) x y
  rw [holds_resolved left right, uses, if_pos rfl]
  simp only [lift, pure_bind, first, second]
  exact decided

theorem leftOf_plain (plain : allowReason = true → (raw.getD "left").trimmedText ≠ "reason") :
    leftOf raw allowReason ≠ .reason := by
  intro reason
  simp only [leftOf] at reason
  split at reason
  · cases reason
  · split at reason
    · next both =>
      obtain ⟨tagged, allowed⟩ := Bool.and_eq_true_iff.mp both
      exact plain allowed (beq_iff_eq.mp tagged)
    · cases reason

theorem rightOf_plain (plain : allowReason = true → (raw.getD "right").trimmedText ≠ "reason")
    (given : rightOf raw allowReason = .ok right) : right.isReason = false := by
  simp only [rightOf] at given
  split at given
  · cases given
    rfl
  · split at given
    · next both =>
      obtain ⟨tagged, allowed⟩ := Bool.and_eq_true_iff.mp both
      exact absurd (beq_iff_eq.mp tagged) (plain allowed)
    · split at given
      · cases given
        rfl
      · obtain ⟨x, _, rfl⟩ := map_ok given
        rfl

theorem ofDatum_equality (inRange : raw.InRange) (seen : s.InRange)
    (op : comparatorOf (raw.getD "op") = .plain .eq ∨ comparatorOf (raw.getD "op") = .computed)
    (plain : allowReason = true →
      (raw.getD "left").trimmedText ≠ "reason" ∧ (raw.getD "right").trimmedText ≠ "reason")
    (absent : ∀ key ∈ Computed.keys, raw.getD key = .null) :
    ∃ (r : Rule) (x y : Float), ofDatum raw allowReason = .ok r ∧ r.left ≠ .reason ∧
      r.left.resolve s = .ok (.number x) ∧ r.right.resolve s = .ok (.number y) ∧
      Answers (r.holds s) (.ok (isSlight (x - y))) := by
  obtain ⟨r, made⟩ := ofDatum_ok inRange allowReason
  have reads := ofDatum_reads made
  have plainLeft : r.left ≠ .reason := by
    rw [reads.left]
    exact leftOf_plain fun allowed => (plain allowed).1
  have plainRight := rightOf_plain (fun allowed => (plain allowed).2) reads.right
  have normal := ofDatum_normal made
  obtain ⟨c, computed, boxed, decision⟩ := computedOf_null absent normal.left normal.right
  obtain rfl : r.computed = c := Except.ok.inj ((ofDatum_parts made).2.1.symm.trans computed)
  have uses : r.usesComputed = true := by
    have suits : r.op = .computed := by
      rw [reads.op, plainRight, beq_eq_false_iff_ne.mpr plainLeft]
      rcases op with op | op <;> rw [op] <;> rfl
    rw [usesComputed, suits]
    rfl
  have left := LeftSide.resolve_eq seen plainLeft
  obtain ⟨y, resolved, finite, worth⟩ := r.right.resolve_eq normal.right seen plainRight
  have finite' := Term.worth_isFinite (s := s) normal.left.toTerm
  have slight : r.computed.decision s = isSlight (r.left.toTerm.worth s - y) := by
    rw [decision, onFloats_difference finite' (Term.worth_isFinite normal.right.toTerm)]
    rcases worth with same | same
    · rw [same]
    · rw [same, isSlight_sub_unsignedZero finite' finite]
  have decided := holds_computed uses boxed seen left resolved
  rw [slight] at decided
  exact ⟨r, _, y, made, plainLeft, left, resolved, decided⟩

end Rule

namespace Filter

theorem ofDatum_one {entries : Fields Datum} {r : Rule}
    (enabled : ((Datum.object entries).getD "enabled").isTruthy = true)
    (one : (Datum.object entries).getD "rules" = .list [raw])
    (made : Rule.ofDatum raw allowReason = .ok r) (plain : r.left ≠ .reason) :
    ofDatum (.object entries) allowReason = .ok ⟨true, [{ r with link := .and }]⟩ := by
  have given : givenRules (.object entries) allowReason = .ok [r] := by
    rw [givenRules, one]
    simp only [rulesOf, List.mapM_cons, List.mapM_nil, made]
    rfl
  have some : someRules [r] allowReason = .ok [r] := rfl
  have unchanged : withReasonRight allowReason { r with link := .and } = { r with link := .and } := by
    rw [withReasonRight, beq_eq_false_iff_ne.mpr plain, Bool.and_false, if_neg Bool.false_ne_true]
  have object : ofDatum (.object entries) allowReason = ofObject (.object entries) allowReason := rfl
  rw [object, ofObject_eq, bind_of_ok given, bind_of_ok some, enabled, headed, List.map_singleton,
    unchanged]
  rfl

theorem holds_one {r : Rule} {b : Bool} (decided : Answers (r.holds s) (.ok b)) :
    Answers (holds ⟨true, [{ r with link := .and }]⟩ s) (.ok b) := decided.seq .value

/-- A rule that asks for equality, plainly or by its computed comparison, and says nothing of the
latter passes just where the difference of its sides is finite and nearly zero. -/
theorem equality_compares_difference (entries : Fields Datum) (raw : Datum) (allowReason : Bool)
    (s : Sight) (inRange : raw.InRange) (seen : s.InRange)
    (enabled : ((Datum.object entries).getD "enabled").isTruthy = true)
    (one : (Datum.object entries).getD "rules" = .list [raw])
    (op : Rule.comparatorOf (raw.getD "op") = .plain .eq ∨
      Rule.comparatorOf (raw.getD "op") = .computed)
    (plain : allowReason = true →
      (raw.getD "left").trimmedText ≠ "reason" ∧ (raw.getD "right").trimmedText ≠ "reason")
    (absent : ∀ key ∈ Computed.keys, raw.getD key = .null) :
    ∃ (f : Filter) (right : RightSide) (x y : Float), ofDatum (.object entries) allowReason = .ok f ∧
      (Rule.leftOf raw allowReason).resolve s = .ok (.number x) ∧
      Rule.rightOf raw allowReason = .ok right ∧ right.resolve s = .ok (.number y) ∧
      Answers (f.holds s) (.ok ((x - y).isFinite && (x - y - 0.0).abs ≤ tolerance)) := by
  obtain ⟨r, x, y, made, plainLeft, left, right, decided⟩ :=
    Rule.ofDatum_equality inRange seen op plain absent
  have reads := Rule.ofDatum_reads made
  rw [reads.left] at left
  exact ⟨_, r.right, x, y, ofDatum_one enabled one made plainLeft, left, reads.right, right,
    holds_one decided⟩

theorem equality_compares_difference_missing :
    let raw : Datum := .object [("left", .text "var"), ("leftVar", .text " life "),
      ("op", .text "=="), ("right", .text "var"), ("rightValue", .text "gone")]
    let s : Sight := ⟨[("maxAge", .float 5e-7)], [("life", .int 3)]⟩
    raw.InRange ∧ s.InRange ∧ (∀ key ∈ Computed.keys, raw.getD key = .null) ∧
      ∃ f, ofDatum (.object [("enabled", .bool true), ("rules", .list [raw])]) = .ok f ∧
        Answers (f.holds s) (.ok true) := by
  intro raw s
  have inRange : raw.InRange := by
    refine .object ?_
    simp only [List.forall_mem_cons]
    exact ⟨.text _, .text _, .text _, .text _, .text _, List.forall_mem_nil _⟩
  have seen : s.InRange := by
    exact ⟨.of_forall (List.forall_mem_singleton.mpr (.float _)),
      .of_forall (List.forall_mem_singleton.mpr (.number ⟨3.0, rfl⟩))⟩
  have absent : ∀ key ∈ Computed.keys, raw.getD key = .null := by
    simp only [Computed.keys, List.forall_mem_cons]
    exact ⟨rfl, rfl, rfl, rfl, rfl, rfl, rfl, rfl, rfl, rfl, rfl, rfl, rfl, rfl, rfl, rfl, rfl, rfl, rfl,
      rfl, rfl, List.forall_mem_nil _⟩
  obtain ⟨f, right, x, y, made, left, given, resolved, decided⟩ :=
    equality_compares_difference [("enabled", .bool true), ("rules", .list [raw])] raw false s inRange
      seen rfl rfl (.inl (by decide)) (by rintro ⟨⟩) absent
  have old : Rule.leftOf raw false = .named "life" := by decide +kernel
  have reads : (LeftSide.named "life").resolve s = .ok (.number 5e-7) := rfl
  rw [old] at left
  have side : (Rule.rightOf raw false).toOption.any
      (fun r => r.kindName == "var" && r.value.same (.text "gone")) = true := by decide +kernel
  rw [given] at side
  obtain ⟨kind, value⟩ := Bool.and_eq_true _ _ |>.mp side
  have missing : right.resolve s = .ok (.number 0.0) := by
    cases right with
    | named w =>
      obtain rfl : w = "gone" := beq_iff_eq.mp value
      rfl
    | builtin b => cases b <;> cases kind
    | number | reason => cases kind
  obtain rfl : 5e-7 = x := Operand.number.inj (Except.ok.inj (reads.symm.trans left))
  obtain rfl : 0.0 = y := Operand.number.inj (Except.ok.inj (missing.symm.trans resolved))
  have slight : ((5e-7 - 0.0 : Float).isFinite &&
      decide ((5e-7 - 0.0 - 0.0 : Float).abs ≤ tolerance)) = true := by decide +kernel
  rw [slight] at decided
  exact ⟨inRange, seen, absent, f, made, decided⟩

end Filter

end Rules

end EmitterLogic
