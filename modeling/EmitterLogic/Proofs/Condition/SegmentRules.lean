import EmitterLogic.Proofs.Condition.Segments

namespace EmitterLogic

open Session Text

section Sides

variable {s : Sight}

/-- The side that a rule holds for a name. -/
def LeftSide.ofName (w : String) : LeftSide := ((builtin? w).map .builtin).getD (.named w)

theorem builtin_worth {w : String} (word : isIdentChars w.toList = true) {b : Builtin}
    (found : builtin? w = some b) : s.worth b.name = s.worth w := by
  rw [Builtin.name_of_ofName? found, s.worth_canonicalName word]

namespace LeftSide

variable {w : String} (word : isIdentChars w.toList = true)
include word

theorem ofName_normal : (ofName w).Normal := by
  refine ⟨fun v same => ?_⟩
  rw [ofName] at same
  cases found : builtin? w with
  | some b =>
    rw [found] at same
    cases same
  | none =>
    rw [found] at same
    cases same
    exact identOrEmpty_eq_iff.mpr (.inr word)

theorem ofName_worth (s : Sight) : (ofName w).toTerm.worth s = s.worth w := by
  rw [ofName]
  cases found : builtin? w with
  | some b => exact builtin_worth word found
  | none => exact Term.worth_named s w

theorem leftSeed_ofName (free : w ≠ "var") :
    Rule.leftSeed w false = ((ofName w).kindName, (ofName w).variableName) := by
  simp only [Rule.leftSeed, beq_eq_false_iff_ne.mpr free, isIdent_of_chars word, ofName,
    Bool.false_and, Bool.false_eq_true, if_false, if_true]
  cases builtin? w with
  | some b => rfl
  | none => rfl

omit word in
theorem ofName_ne_reason (w : String) : ofName w ≠ .reason := by
  rw [ofName]
  cases builtin? w with
  | some b => exact nofun
  | none => exact nofun

end LeftSide

namespace Comparand

variable (b : Comparand)

theorem side_normal : b.side.Normal := by
  cases b with
  | numeral t x numeral reads finite =>
    refine ⟨fun y same => ?_, fun v same => ?_⟩
    · cases same
      exact finite
    · cases same
  | name w word free =>
    rw [side]
    cases found : builtin? w with
    | some b =>
      refine ⟨fun y same => ?_, fun v same => ?_⟩
      · cases same
      · cases same
    | none =>
      refine ⟨fun y same => ?_, fun v same => ?_⟩
      · cases same
      · cases same
        exact identOrEmpty_eq_iff.mpr (.inr word)

theorem side_plain : b.side.isReason = false := by
  cases b with
  | numeral t x numeral reads finite => rfl
  | name w word free =>
    rw [side]
    cases builtin? w <;> rfl

theorem worth_isFinite : (b.worth s).isFinite = true := by
  cases b with
  | numeral t x numeral reads finite => exact finite
  | name w word free => exact s.worth_isFinite w

theorem side_resolve (inRange : s.InRange) : b.side.resolve s = .ok (.number (b.worth s)) ∧
    (b.side.toTerm.worth s = b.worth s ∨ b.side.toTerm.worth s = unsignedZero (b.worth s)) := by
  cases b with
  | numeral t x numeral reads finite =>
    have only : finiteOnly x = some x := if_pos finite
    refine ⟨?_, .inr rfl⟩
    rw [side, RightSide.resolve, only]
    rfl
  | name w word free =>
    rw [side, worth]
    cases found : builtin? w with
    | some b =>
      have same := builtin_worth (s := s) word found
      refine ⟨?_, .inl same⟩
      rw [Option.map_some, Option.getD_some, RightSide.resolve, inRange.readD_eq, same]
      rfl
    | none =>
      refine ⟨?_, .inl (Term.worth_named s w)⟩
      rw [Option.map_none, Option.getD_none, RightSide.resolve, inRange.readD_eq]
      rfl

theorem rightSeed_text : Rule.rightSeed b.text false = (b.side.kindName, b.side.toTerm.value) := by
  cases b with
  | numeral t x numeral reads finite =>
    have bare : trimmed t = t := by
      rw [trimmed, trim_of_visible fun c hc =>
        (isTokenChar_numeralPart (numeral_parts numeral c hc)).visible, String.ofList_toList]
    have spelled : isNumeral t = true := by
      rw [isNumeral, trim_of_visible fun c hc =>
        (isTokenChar_numeralPart (numeral_parts numeral c hc)).visible, numeral]
    simp only [Rule.rightSeed, text, bare, spelled, if_true, reads, Option.getD_some]
    rfl
  | name w word free =>
    have kinds : (w == "number" || w == "var") = false := by
      rw [beq_eq_false_iff_ne.mpr free.1, beq_eq_false_iff_ne.mpr free.2]
      rfl
    simp only [Rule.rightSeed, text, trimmed_ident word, isNumeral_ident word, kinds,
      isIdent_of_chars word, side, Bool.false_and, Bool.false_eq_true, if_false, if_true]
    cases builtin? w with
    | some b => rfl
    | none => rfl

end Comparand

end Sides

section Rules

namespace Segment

variable (g : Segment) (link : Link)

def left : LeftSide := LeftSide.ofName g.name

def entries : Fields Datum := [
  ("id", .text newId),
  ("link", .text link.name),
  ("left", .text g.left.kindName),
  ("leftVar", .text g.left.variableName),
  ("op", .text g.op.sign),
  ("right", .text g.right.side.kindName),
  ("rightValue", g.right.side.toTerm.value),
  ("calcValueMode", .text "box"),
  ("calcMathOp", .text "-"),
  ("calcExpectMathOp", .text "+"),
  ("calcResultMode", .text "fixed"),
  ("calcResultCmp", .text "=="),
  ("calcExpectExpr", .text "0"),
  ("calcLeftTermType", .text "age"),
  ("calcLeftTermValue", .int 0),
  ("calcRightTermType", .text "number"),
  ("calcRightTermValue", .int 0)]

def equalityEntries : Fields Datum := [
  ("id", .text newId),
  ("link", .text link.name),
  ("left", .text g.left.kindName),
  ("leftVar", .text g.left.variableName),
  ("op", .text g.op.sign),
  ("right", .text g.right.side.kindName),
  ("rightValue", g.right.side.toTerm.value),
  ("calcValueMode", .text "box"),
  ("calcMathOp", .text "-"),
  ("calcExpectMathOp", .text "+"),
  ("calcResultMode", .text "fixed"),
  ("calcResultCmp", .text "=="),
  ("calcExpectExpr", .text "0"),
  ("calcLeftTermType", .text g.left.toTerm.kind.name),
  ("calcLeftTermValue", g.left.toTerm.value),
  ("calcRightTermType", .text "number"),
  ("calcRightTermValue", .int 0),
  ("calcFixedTermType", .text g.right.side.toTerm.kind.name),
  ("calcFixedTermValue", g.right.side.toTerm.value)]

theorem value_isNull (t : Term) : t.value.isNull = false := by cases t <;> rfl

theorem text_isNull (s : String) : (Datum.text s).isNull = false := rfl

theorem int_isNull (n : Int) : (Datum.int n).isNull = false := rfl

theorem equalitySeed_sides : Rule.equalitySeed (g.left.kindName, g.left.variableName)
      (g.right.side.kindName, g.right.side.toTerm.value) =
    .ok [("calcLeftTermType", .text g.left.toTerm.kind.name),
      ("calcLeftTermValue", g.left.toTerm.value), ("calcRightTermType", .text "number"),
      ("calcRightTermValue", .int 0),
      ("calcFixedTermType", .text g.right.side.toTerm.kind.name),
      ("calcFixedTermValue", g.right.side.toTerm.value)] := by
  have normal : g.left.toTerm.Normal := (LeftSide.ofName_normal g.word).toTerm
  have normal' : g.right.side.toTerm.Normal := g.right.side_normal.toTerm
  have kind : g.left.kindName = g.left.toTerm.kind.name ∧ (g.left.kindName == "reason") = false ∧
      (if g.left.kindName == "var" then .text g.left.variableName else .int 0) =
        g.left.toTerm.value := by
    have plain : g.left ≠ .reason := LeftSide.ofName_ne_reason g.name
    cases side : g.left with
    | reason => exact absurd side plain
    | named w => exact ⟨rfl, rfl, rfl⟩
    | builtin b => cases b <;> exact ⟨rfl, rfl, rfl⟩
  have kind' : g.right.side.kindName = g.right.side.toTerm.kind.name ∧
      (g.right.side.kindName == "reason") = false := by
    have plain := g.right.side_plain
    cases side : g.right.side with
    | reason r =>
      rw [side] at plain
      cases plain
    | builtin b => cases b <;> exact ⟨rfl, rfl⟩
    | _ => exact ⟨rfl, rfl⟩
  obtain ⟨same, noReason, value⟩ := kind
  obtain ⟨same', noReason'⟩ := kind'
  simp only [Rule.equalitySeed, noReason, noReason', value, Bool.or_self, Bool.false_eq_true, if_false]
  rw [same, same', bind_of_ok (Term.normalize_toDatum normal _),
    bind_of_ok (Term.normalize_toDatum normal' _)]
  rfl

theorem ofSegment_plain (other : g.op ≠ .eq) : Rule.ofSegment link g.name g.op g.right.text false =
    Rule.ofDatum (.object (g.entries link)) false := by
  have terms : Rule.termsOfSegment g.op (g.left.kindName, g.left.variableName)
      (g.right.side.kindName, g.right.side.toTerm.value) = .ok [] :=
    if_neg (by simpa using other)
  rw [Rule.ofSegment_eq, LeftSide.leftSeed_ofName g.word g.free, g.right.rightSeed_text, ← left,
    bind_of_ok terms, Rule.create]
  simp [Rule.segmentSeed, Rule.template, entries, Fields.merge, Fields.put, text_isNull, value_isNull]

theorem ofSegment_equality (equality : g.op = .eq) :
    Rule.ofSegment link g.name g.op g.right.text false =
      Rule.ofDatum (.object (g.equalityEntries link)) false := by
  have terms : Rule.termsOfSegment g.op (g.left.kindName, g.left.variableName)
      (g.right.side.kindName, g.right.side.toTerm.value) = _ :=
    (if_pos (by simpa using equality)).trans g.equalitySeed_sides
  rw [Rule.ofSegment_eq, LeftSide.leftSeed_ofName g.word g.free, g.right.rightSeed_text, ← left,
    bind_of_ok terms, Rule.create]
  simp [Rule.segmentSeed, Rule.template, equalityEntries, Fields.merge, Fields.put, text_isNull,
    int_isNull, value_isNull]

/-- A rule is that of a segment. -/
structure Gives (g : Segment) (r : Rule) : Prop where
  left : r.left = g.left
  right : r.right = g.right.side
  op : r.op = Rule.suited (.plain g.op) false
  computed : g.op = .eq → r.computed.Boxed ∧ ∀ s, r.computed.decision s = Comparison.eq.onFloats
    (ArithOp.sub.apply (g.left.toTerm.worth s) 0.0) (g.right.side.toTerm.worth s)

variable {g link} {d : Datum} {r : Rule} {s : Sight}

theorem sides_of_stored (g : Segment) (link : Link) (made : Rule.ofDatum d false = .ok r)
    (joined : d.getD "link" = .text link.name) (op : d.getD "op" = .text g.op.sign)
    (left : d.getD "left" = .text g.left.kindName)
    (leftVar : d.getD "leftVar" = .text g.left.variableName)
    (right : d.getD "right" = .text g.right.side.kindName)
    (rightValue : d.getD "rightValue" = g.right.side.toTerm.value) :
    r.link = link ∧ r.left = g.left ∧ r.right = g.right.side ∧
      r.op = Rule.suited (.plain g.op) false := by
  have reads := Rule.ofDatum_reads made
  have plain := g.right.side_plain
  have value : (∀ b, g.right.side ≠ .builtin b) → d.getD "rightValue" = g.right.side.value := by
    intro other
    rw [rightValue]
    cases side : g.right.side with
    | builtin b => exact absurd side (other b)
    | reason r =>
      rw [side] at plain
      cases plain
    | _ => rfl
  have sideLeft : r.left = g.left :=
    reads.left.trans (Rule.leftOf_stored left leftVar (LeftSide.ofName_normal g.word)
      fun reason => absurd reason (LeftSide.ofName_ne_reason g.name))
  have sideRight : r.right = g.right.side :=
    Except.ok.inj (reads.right.symm.trans (Rule.rightOf_stored right value g.right.side_normal
      fun reason => absurd reason (by rw [plain]; decide)))
  have noReason : (g.left == .reason) = false :=
    beq_eq_false_iff_ne.mpr (LeftSide.ofName_ne_reason g.name)
  have comparator : Rule.comparatorOf (.text g.op.sign) = .plain g.op :=
    Rule.comparatorOf_name (.plain g.op)
  refine ⟨?_, sideLeft, sideRight, ?_⟩
  · rw [reads.link, joined, Rule.linkOf_name]
  · rw [reads.op, op, comparator, sideLeft, sideRight, noReason, plain, Bool.or_self]

theorem equalityEntries_null (g : Segment) (link : Link) :
    ∀ key ∈ ["calcRightExpr", "calcExpectLeftExpr", "calcExpectLeftTermType",
        "calcExpectLeftTermValue", "calcExpectRightExpr", "calcExpectRightTermType",
        "calcExpectRightTermValue"],
      (Datum.object (g.equalityEntries link)).getD key = .null := by
  simp only [List.forall_mem_cons]
  exact ⟨rfl, rfl, rfl, rfl, rfl, rfl, rfl, List.forall_mem_nil _⟩

theorem equalityEntries_stored (g : Segment) (link : Link) :
    g.left.toTerm.StoredAt (.object (g.equalityEntries link)) "calcLeft" ∧
      g.right.side.toTerm.StoredAt (.object (g.equalityEntries link)) "calcFixed" := by
  -- The fields are found by their keys alone, whatever the sides are.
  rw [equalityEntries]
  generalize g.left = left
  generalize g.right.side = right
  exact ⟨⟨rfl, rfl⟩, rfl, rfl⟩

theorem computedOf_equality (g : Segment) (link : Link) : ∃ c,
    Rule.computedOf (.object (g.equalityEntries link)) g.left g.right.side = .ok c ∧ c.Boxed ∧
      ∀ s, c.decision s = Comparison.eq.onFloats
        (ArithOp.sub.apply (g.left.toTerm.worth s) 0.0) (g.right.side.toTerm.worth s) := by
  have normal : g.left.toTerm.Normal := (LeftSide.ofName_normal g.word).toTerm
  have normal' : g.right.side.toTerm.Normal := g.right.side_normal.toTerm
  obtain ⟨u, inferred, inferredNormal, _⟩ := Term.inferText_toExpr normal'
  rw [← RightSide.toExpr_toTerm] at inferred
  have subtracts : Rule.Subtracts (.object (g.equalityEntries link)) :=
    ⟨Rule.valueMode_chosen .box, Rule.mathOpOf_sign .sub, Rule.resultMode_chosen .fixed,
      Rule.resultCmp_chosen .eq⟩
  have none := g.equalityEntries_null link
  simp only [List.forall_mem_cons] at none
  obtain ⟨e₂, e₄, t₄, v₄, e₅, t₅, v₅, _⟩ := none
  have zero : Rule.termOf (.object (g.equalityEntries link)) "calcRight" "calcRightExpr" u =
      .ok .zero := by
    rw [Rule.termOf, e₂, bind_of_ok (Term.infer_null inferredNormal)]
    exact Term.normalize_zero u.toRaw
  obtain ⟨c, made, boxed, decision⟩ := Rule.computedOf_subtracts subtracts inferred
    (Rule.termOf_stored normal (g.equalityEntries_stored link).1) zero
    (Rule.termOf_stored normal' (g.equalityEntries_stored link).2)
    (Rule.termOf_null "calcExpectLeft" inferredNormal e₄ t₄ v₄)
    (Rule.termOf_null "calcExpectRight" Term.zero_normal e₅ t₅ v₅)
  refine ⟨c, made, boxed, fun s => ?_⟩
  have unsigned : unsignedZero 0.0 = 0.0 := by decide
  have worthless : Term.zero.worth s = 0.0 := unsigned
  rw [decision, worthless]

theorem ofSegment_gives (g : Segment) (link : Link) : ∃ r,
    Rule.ofSegment link g.name g.op g.right.text false = .ok r ∧ r.link = link ∧ g.Gives r := by
  obtain ⟨r, made⟩ := Rule.ofSegment_ok link g.name g.op g.right.text false
  refine ⟨r, made, ?_⟩
  by_cases equality : g.op = .eq
  · rw [g.ofSegment_equality link equality] at made
    obtain ⟨joined, left, right, op⟩ := sides_of_stored g link made rfl rfl rfl rfl rfl rfl
    obtain ⟨c, computed, boxed, decision⟩ := g.computedOf_equality link
    have same := (Rule.ofDatum_parts made).2.1
    rw [left, right, computed] at same
    obtain rfl := Except.ok.inj same
    exact ⟨joined, left, right, op, fun _ => ⟨boxed, decision⟩⟩
  · rw [g.ofSegment_plain link equality] at made
    obtain ⟨joined, left, right, op⟩ := sides_of_stored g link made rfl rfl rfl rfl rfl rfl
    exact ⟨joined, left, right, op, fun same => absurd same equality⟩

theorem isNear_congr {x y z : Float} (hx : x.isFinite = true) (hy : y.isFinite = true)
    (same : z = y ∨ z = unsignedZero y) : isNear (x - z) = isNear (x - y) := by
  rcases same with rfl | rfl
  · rfl
  · exact of_sub_unsignedZero (f := isNear) (by decide) hx hy

theorem Gives.holds (gives : g.Gives r) (inRange : s.InRange) :
    Answers (r.holds s) (.ok (g.holds s)) := by
  have worth : g.left.toTerm.worth s = s.worth g.name := LeftSide.ofName_worth g.word s
  have left : r.left.resolve s = .ok (.number (s.worth g.name)) := by
    have plain : g.left ≠ .reason := LeftSide.ofName_ne_reason g.name
    rw [gives.left, LeftSide.resolve_eq inRange plain, worth]
  obtain ⟨right, same⟩ := g.right.side_resolve inRange
  rw [← gives.right] at right
  have finite := s.worth_isFinite g.name
  have finite' : (g.right.worth s).isFinite = true := g.right.worth_isFinite
  by_cases equality : g.op = .eq
  · have uses : r.usesComputed = true := by
      rw [Rule.usesComputed, gives.op, equality]
      rfl
    obtain ⟨boxed, decision⟩ := gives.computed equality
    have decided := Rule.holds_computed uses boxed inRange left right
    have fixed : g.right.side.toTerm.Normal := g.right.side_normal.toTerm
    have nearly : Comparison.eq.onFloats (ArithOp.sub.apply (s.worth g.name) 0.0)
        (g.right.side.toTerm.worth s) = g.holds s := by
      simp only [Segment.holds, equality]
      rw [Rule.sub_apply finite zero_isFinite, Rule.onFloats_eq _ (Term.worth_isFinite fixed)]
      cases left : (s.worth g.name - 0.0).isFinite with
      | false => rw [Bool.false_and, Bool.false_and]
      | true =>
        have near := isNear_congr left finite' same
        rw [isNear] at near
        rw [near]
    rw [decision, worth, nearly] at decided
    exact decided
  · have op : r.op = .plain g.op := by
      rw [gives.op]
      cases op : g.op
      case eq => exact absurd op equality
      all_goals rfl
    have uses : r.usesComputed = false := by
      rw [Rule.usesComputed, op]
      cases op : g.op
      case eq => exact absurd op equality
      all_goals rfl
    have holds : g.holds s = g.op.holds (s.worth g.name) (g.right.worth s) := by
      rw [Segment.holds]
      split
      · next eq => exact absurd eq equality
      · rfl
    have compared : Comparison.onValues r.op (Operand.number (s.worth g.name)).toDatum
        (Operand.number (g.right.worth s)).toDatum = .ok (g.holds s) := by
      rw [op, holds]
      exact onValues_float g.op finite finite'
    rw [Rule.holds_resolved left right, uses, if_neg Bool.false_ne_true, compared]
    exact .value

end Segment

theorem Filter.holdsFrom_answers {s : Sight} {rules : List Rule} {parts : List (Joint × Segment)}
    (each : List.Forall₂ (fun p r => r.link = p.1.link ∧ Answers (r.holds s) (.ok (p.2.holds s)))
      parts rules) (decided : Bool) :
    Answers (Filter.holdsFrom s decided rules)
      (.ok (parts.foldl (fun decided p => p.1.link.join decided (p.2.holds s)) decided)) := by
  induction each generalizing decided with
  | nil => exact .value
  | @cons p r parts rules first _ ih =>
    refine first.2.seq ?_
    rw [first.1]
    exact ih _

theorem ofPieces_segments {pieces : List (Link × List Char)} {segments : List (Link × Segment)}
    (cut : List.Forall₂ (fun p q => p.1 = q.1 ∧ trim p.2 = q.2.chars) pieces segments)
    (done : List Rule) (first : done = [] → ∀ q ∈ segments.head?, q.1 = .and) :
    ∃ rules, Rule.ofPieces false done pieces = .ok (done.reverse ++ rules) ∧
      List.Forall₂ (fun q r => r.link = q.1 ∧ q.2.Gives r) segments rules := by
  induction cut generalizing done with
  | nil => exact ⟨[], by rw [Rule.ofPieces, List.append_nil], .nil⟩
  | @cons p q pieces segments here _ ih =>
    obtain ⟨link, piece⟩ := p
    obtain ⟨link', g⟩ := q
    obtain ⟨rfl, core⟩ := here
    obtain ⟨r, made, joined, gives⟩ := Segment.ofSegment_gives g link
    have joint : (if done.isEmpty then Link.and else link) = link := by
      split
      · next none => exact (first (List.isEmpty_iff.mp none) _ rfl).symm
      · rfl
    obtain ⟨rules, others, all⟩ := ih (r :: done) (by rintro ⟨⟩)
    refine ⟨r :: rules, ?_, .cons ⟨joined, gives⟩ all⟩
    rw [Rule.ofPieces, core, g.segment_chars]
    simp only [joint, bind_of_ok made, others, List.reverse_cons, List.append_assoc,
      List.singleton_append]

end Rules

end EmitterLogic
