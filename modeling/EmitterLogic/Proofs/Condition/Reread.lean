import EmitterLogic.Proofs.Condition.Total
import EmitterLogic.Proofs.Number.Written

/-!
Filters read again. A rule that comes from a document is settled: each of its parts is what the part
itself would give once more. So its own document gives the rule, and that of a filter the filter.
-/

namespace EmitterLogic

namespace Shortest

theorem layout_ne_nil (d : Decimal) : layout d ≠ [] := by
  simp only [layout]
  split
  · split
    · exact List.cons_ne_nil _ _
    · exact List.append_ne_nil_of_right_ne_nil _ (List.cons_ne_nil _ _)
  · exact List.append_ne_nil_of_right_ne_nil _ (List.cons_ne_nil _ _)

theorem numeral_ne_nil (x : Float) : numeral x ≠ [] := by
  rw [numeral]
  split
  · split
    · decide
    · split <;> decide
  · next p _ =>
    have body : (if p.mantissa == 0 then ['0', '.', '0'] else layout (Parts.shortest p)) ≠ [] := by
      split
      · decide
      · exact layout_ne_nil _
    cases p.negative with
    | true => exact List.cons_ne_nil _ _
    | false => exact body

end Shortest

section Texts

theorem ne_empty_of_toList {s : String} (h : s.toList ≠ []) : s ≠ "" := by
  rintro rfl
  exact h rfl

theorem toString_int_ne_empty (n : Int) : toString n ≠ "" := by
  have digits (m : Nat) : toString m ≠ "" := by
    refine ne_empty_of_toList ?_
    rw [Nat.toString_eq_ofList_toDigits, String.toList_ofList]
    exact List.ne_nil_of_length_pos Nat.length_toDigits_pos
  cases n with
  | ofNat m => exact digits m
  | negSucc m =>
    have negated : toString (Int.negSucc m) = "-" ++ toString (m + 1) := rfl
    refine ne_empty_of_toList ?_
    rw [negated, String.toList_append]
    exact List.cons_ne_nil _ _

theorem Datum.toText_ne_empty {d : Datum} (h : d.isTruthy = true) : d.toText ≠ "" := by
  cases d with
  | null => cases h
  | undefined => cases h
  | bool b => cases b <;> decide
  | number n =>
    cases n with
    | int n => exact toString_int_ne_empty n
    | float x =>
      refine ne_empty_of_toList ?_
      have text : (Datum.number (.float x)).toText.toList = Shortest.numeral x :=
        String.toList_ofList
      rw [text]
      exact Shortest.numeral_ne_nil x
  | text s => simpa only [Datum.isTruthy, Datum.toText_text, bne_iff_ne] using h
  | list items =>
    refine ne_empty_of_toList ?_
    simp [Datum.toText, Datum.display, String.toList_append]
  | object entries =>
    refine ne_empty_of_toList ?_
    simp [Datum.toText, Datum.display, String.toList_append]

theorem idOf_ne_empty (d : Datum) : idOf d ≠ "" := by
  rw [idOf]
  split
  · next given => exact Datum.toText_ne_empty given
  · decide

def IsTrimmed (s : String) : Prop := trimmed s = s ∧ s ≠ ""

theorem isTrimmed_of_ends {s : String} {first last : Char} (head : s.toList.head? = some first)
    (tail : s.toList.getLast? = some last) (hf : Text.isBlank first = false)
    (hl : Text.isBlank last = false) : IsTrimmed s := by
  refine ⟨?_, ne_empty_of_toList fun none => ?_⟩
  · have ends : Text.trim s.toList = s.toList := by
      refine Text.trim_of_ends (fun c hc => ?_) fun c hc => ?_
      · rw [head] at hc
        cases hc
        exact hf
      · rw [tail] at hc
        cases hc
        exact hl
    rw [trimmed, ends, String.ofList_toList]
  · rw [none] at head
    cases head

theorem Term.toExpr_visible {t : Term} (normal : t.Normal) :
    ∀ c ∈ t.toExpr.toList, Text.isBlank c = false := by
  have zero : ∀ c ∈ "0".toList, Text.isBlank c = false :=
    List.forall_mem_singleton.mpr (by decide)
  cases t with
  | number x =>
    obtain ⟨p, parts⟩ := Binary64.isFinite_iff_parts.mp (normal.number x rfl)
    obtain ⟨n, text, _⟩ := plainNumeral_spelled parts
    rw [toExpr, if_pos (normal.number x rfl), text, String.toList_ofList]
    exact fun c hc => isBlank_of_numeralChar (n.signed_isNumeralChar _ c hc)
  | named w =>
    rw [toExpr]
    split
    · next ident =>
      exact fun c hc => Text.isBlank_of_identPart (Text.identParts (chars_of_isIdent ident) c hc)
    · exact zero
  | builtin b =>
    exact fun c hc => Text.isBlank_of_identPart (Text.identParts b.name_ident c hc)

theorem Term.trimmed_toExpr {t : Term} (normal : t.Normal) : trimmed t.toExpr = t.toExpr := by
  rw [trimmed, Text.trim_of_visible (toExpr_visible normal), String.ofList_toList]

theorem head?_append {s : String} {c : Char} (h : s.toList.head? = some c) (t : String) :
    (s ++ t).toList.head? = some c := by
  rw [String.toList_append, List.head?_append, h, Option.some_or]

theorem Computed.toText_isTrimmed (c : Computed) : IsTrimmed c.toText := by
  have head : c.toText.toList.head? = some '(' := by
    delta toText
    dsimp only
    repeat refine head?_append ?_ _
    rfl
  have tail : c.toText.toList.getLast? = some ')' := by
    delta toText
    dsimp only
    rw [String.toList_append]
    exact List.getLast?_concat
  exact isTrimmed_of_ends head tail (by decide) (by decide)

theorem Rule.exprOf_isTrimmed (d : Datum) {fallback : String} (h : trimmed fallback = fallback) :
    IsTrimmed (exprOf d fallback) := by
  rw [exprOf]
  split
  · split
    · exact ⟨by decide, by decide⟩
    · next some => exact ⟨h, fun none => some (String.isEmpty_iff.mpr none)⟩
  · next some => exact ⟨trimmed_trimmed _, fun none => some (String.isEmpty_iff.mpr none)⟩

theorem Rule.exprOf_text {s : String} (h : IsTrimmed s) (fallback : String) :
    exprOf (.text s) fallback = s := by
  have word : wordOf (.text s) = s := h.1
  have some : ¬s.isEmpty = true := fun none => h.2 (String.isEmpty_iff.mp none)
  simp only [exprOf, word]
  rw [if_neg some]

end Texts

section Rules

open Rule

theorem TermKind.ofText_name (k : TermKind) : ofText k.name = k := by
  cases k with
  | builtin b => cases b <;> decide
  | _ => decide

theorem TermKind.name_ne_empty (k : TermKind) : (k.name != "") = true := by
  cases k with
  | builtin b => cases b <;> decide
  | _ => decide

theorem Term.normalize_toDatum {t : Term} (normal : t.Normal) (fallback : RawTerm) :
    Term.normalize (.text t.kind.name) t.value fallback = .ok t := by
  have value : t.value.isNull = false := by cases t <;> rfl
  delta Term.normalize
  simp only [t.kind.name_ne_empty, if_true, Datum.textOrEmpty_text, t.kind.ofText_name, value,
    Bool.false_eq_true, if_false]
  cases t with
  | number x =>
    have finite := finiteOrZero_float (normal.number x rfl)
    rw [Term.kind]
    simp only [Term.value, ofNumber, finite, Except.map]
  | named w =>
    have text : (named w).value.toText = w := rfl
    rw [Term.kind]
    simp only [text, normal.name w rfl]
  | builtin b => rfl

structure Term.StoredAt (t : Term) (d : Datum) (key : String) : Prop where
  kind : d.getD (key ++ "TermType") = .text t.kind.name
  value : d.getD (key ++ "TermValue") = t.value

theorem Rule.termOf_stored {d : Datum} {key exprKey : String} {fallback t : Term}
    (normal : t.Normal) (stored : t.StoredAt d key) : termOf d key exprKey fallback = .ok t := by
  obtain ⟨u, inferred⟩ := Term.infer_ok (d.getD exprKey) fallback.toRaw fallback.value_finite
  rw [termOf, bind_of_ok inferred, stored.kind, stored.value]
  exact Term.normalize_toDatum normal u.toRaw

/-- A computed comparison as documents give it: the texts of its parts are those of the terms, or
texts of their own. -/
structure Computed.Settled (c : Computed) : Prop where
  normal : ∀ p ∈ c.parts, p.1.Normal
  boxed : c.valueMode = .box → ∀ p ∈ c.parts, p.2 = p.1.toExpr
  free : c.valueMode = .expr → ∀ p ∈ c.parts, IsTrimmed p.2

theorem Rule.computedOf_settled {d : Datum} {left : LeftSide} {right : RightSide} {c : Computed}
    (h : computedOf d left right = .ok c) : c.Settled := by
  have parts := computedOf_parts h
  refine ⟨fun p hp => (parts p hp).1, fun box p hp => ?_, fun free p hp => ?_⟩
  · obtain ⟨_, key, text⟩ := parts p hp
    rwa [box] at text
  · obtain ⟨normal, key, text⟩ := parts p hp
    rw [free] at text
    rw [text]
    exact exprOf_isTrimmed (d.getD key) (Term.trimmed_toExpr normal)

theorem Rule.mathOpOf_sign (op : ArithOp) : mathOpOf (.text op.sign) = op := by
  cases op <;> decide

theorem Rule.valueMode_chosen (m : ValueMode) :
    chosen [.box, .expr] ValueMode.name .box (wordOf (.text m.name)) = m := by
  cases m <;> decide

theorem Rule.resultMode_chosen (m : ResultMode) :
    chosen [.fixed, .pair] ResultMode.name .fixed (wordOf (.text m.name)) = m := by
  cases m <;> decide

theorem Rule.resultCmp_chosen (c : Comparison) :
    chosen Comparison.all Comparison.sign .eq (wordOf (.text c.sign)) = c := by
  cases c <;> decide

structure Computed.StoredIn (c : Computed) (d : Datum) : Prop where
  valueMode : d.getD "calcValueMode" = .text c.valueMode.name
  mathOp : d.getD "calcMathOp" = .text c.mathOp.sign
  expectMathOp : d.getD "calcExpectMathOp" = .text c.expectMathOp.sign
  resultMode : d.getD "calcResultMode" = .text c.resultMode.name
  resultCmp : d.getD "calcResultCmp" = .text c.resultCmp.sign
  left : c.leftTerm.StoredAt d "calcLeft"
  right : c.rightTerm.StoredAt d "calcRight"
  fixed : c.fixedTerm.StoredAt d "calcFixed"
  expectLeft : c.expectLeftTerm.StoredAt d "calcExpectLeft"
  expectRight : c.expectRightTerm.StoredAt d "calcExpectRight"
  leftExpr : d.getD "calcLeftExpr" = .text c.leftExpr
  rightExpr : d.getD "calcRightExpr" = .text c.rightExpr
  expectExpr : d.getD "calcExpectExpr" = .text c.expectExpr
  expectLeftExpr : d.getD "calcExpectLeftExpr" = .text c.expectLeftExpr
  expectRightExpr : d.getD "calcExpectRightExpr" = .text c.expectRightExpr

theorem Rule.computed_stored (r : Rule) : r.computed.StoredIn r.toDatum := by
  constructor
  all_goals first | rfl | exact ⟨rfl, rfl⟩

theorem Rule.computedOf_stored {d : Datum} {c : Computed} (stored : c.StoredIn d)
    (settled : c.Settled) (left : LeftSide) (right : RightSide) :
    computedOf d left right = .ok c := by
  obtain ⟨given, inferred⟩ := Term.infer_ok (.text right.toExpr) {} ⟨some 0.0, Term.zero_finite⟩
  have side : Term.inferText right.toExpr = .ok given := inferred
  obtain ⟨m₁, m₂, m₃, m₄, m₅⟩ := c.mem_parts
  rw [computedOf, bind_of_ok side, bind_of_ok (termOf_stored (settled.normal _ m₁) stored.left),
    bind_of_ok (termOf_stored (settled.normal _ m₂) stored.right),
    bind_of_ok (termOf_stored (settled.normal _ m₃) stored.fixed),
    bind_of_ok (termOf_stored (settled.normal _ m₄) stored.expectLeft),
    bind_of_ok (termOf_stored (settled.normal _ m₅) stored.expectRight)]
  simp only [stored.valueMode, valueMode_chosen, stored.mathOp, stored.expectMathOp, mathOpOf_sign,
    stored.resultMode, resultMode_chosen, stored.resultCmp, resultCmp_chosen, stored.leftExpr,
    stored.rightExpr, stored.expectExpr, stored.expectLeftExpr, stored.expectRightExpr]
  cases mode : c.valueMode with
  | box =>
    have text {t : Term} {s : String} (mem : (t, s) ∈ c.parts) : t.toExpr = s :=
      (settled.boxed mode (t, s) mem).symm
    simp only [text m₁, text m₂, text m₃, text m₄, text m₅]
    rw [← mode]
    rfl
  | expr =>
    have text {t : Term} {s : String} (mem : (t, s) ∈ c.parts) :=
      exprOf_text (settled.free mode (t, s) mem) t.toExpr
    simp only [text m₁, text m₂, text m₃, text m₄, text m₅]
    rw [← mode]
    rfl

structure Rule.Settled (allowReason : Bool) (r : Rule) : Prop where
  id : r.id ≠ ""
  sides : r.Normal
  reason : r.hasReasonSide = true → allowReason = true
  op : suited r.op r.hasReasonSide = r.op
  computed : r.computed.Settled
  text : IsTrimmed r.booleanExpr

namespace Rule

variable {d : Datum} {allowReason : Bool} {r : Rule}

theorem suited_suited (op : Comparator) (hasReason : Bool) :
    suited (suited op hasReason) hasReason = suited op hasReason := by
  cases hasReason <;> rcases op with (_ | _ | _ | _ | _ | _) | _ <;> rfl

theorem allowed_of_leftOf (h : leftOf d allowReason = .reason) : allowReason = true := by
  simp only [leftOf] at h
  split at h
  · cases h
  · split at h
    · next both => exact (Bool.and_eq_true_iff.mp both).2
    · cases h

theorem allowed_of_rightOf {right : RightSide} (h : rightOf d allowReason = .ok right)
    (isReason : right.isReason = true) : allowReason = true := by
  simp only [rightOf] at h
  split at h
  · cases h
    cases isReason
  · split at h
    · next both => exact (Bool.and_eq_true_iff.mp both).2
    · split at h
      · cases h
        cases isReason
      · obtain ⟨x, _, rfl⟩ := map_ok h
        cases isReason

theorem ofDatum_parts (h : ofDatum d allowReason = .ok r) :
    r.id = idOf d ∧ computedOf d r.left r.right = .ok r.computed ∧
      r.booleanExpr = exprOf (d.getD "calcBooleanExpr") r.computed.toText := by
  obtain ⟨right, _, h⟩ := bind_ok h
  obtain ⟨computed, made, h⟩ := bind_ok h
  cases h
  refine ⟨?_, ?_, ?_⟩
  all_goals dsimp only
  exact made

theorem ofDatum_settled (h : ofDatum d allowReason = .ok r) : r.Settled allowReason := by
  have reads := ofDatum_reads h
  obtain ⟨id, computed, text⟩ := ofDatum_parts h
  refine ⟨?_, ofDatum_normal h, fun side => ?_, ?_, computedOf_settled computed, ?_⟩
  · rw [id]
    exact idOf_ne_empty d
  · rcases Bool.or_eq_true_iff.mp side with left | right
    · exact allowed_of_leftOf (reads.left.symm.trans (beq_iff_eq.mp left))
    · exact allowed_of_rightOf reads.right right
  · rw [reads.op]
    exact suited_suited _ _
  · rw [text]
    exact exprOf_isTrimmed _ r.computed.toText_isTrimmed.1

theorem idOf_text {s : String} (h : s ≠ "") (stored : d.getD "id" = .text s) : idOf d = s := by
  have present : (Datum.text s).isTruthy = true := bne_iff_ne.mpr h
  rw [idOf, stored]
  exact if_pos present

theorem ofDatum_reread (settled : r.Settled allowReason) :
    ofDatum r.toDatum allowReason = .ok r := by
  have left : leftOf r.toDatum allowReason = r.left :=
    leftOf_toDatum settled.sides.left fun same => settled.reason (by
      rw [hasReasonSide, same]
      rfl)
  have right : rightOf r.toDatum allowReason = .ok r.right :=
    rightOf_toDatum settled.sides.right fun same => settled.reason (by
      rw [hasReasonSide, same, Bool.or_true])
  have computed := computedOf_stored r.computed_stored settled.computed r.left r.right
  have op : comparatorOf (r.toDatum.getD "op") = r.op := comparatorOf_name r.op
  have link : linkOf (r.toDatum.getD "link") = r.link := linkOf_name r.link
  have id : idOf r.toDatum = r.id := idOf_text settled.id rfl
  have stored : r.toDatum.getD "calcBooleanExpr" = .text r.booleanExpr := rfl
  have suits : suited r.op (r.left == .reason || r.right.isReason) = r.op := settled.op
  rw [ofDatum, left, bind_of_ok right, bind_of_ok computed, op, suits, link, id, stored,
    exprOf_text settled.text]
  rfl

theorem settled_link (link : Link) (settled : r.Settled allowReason) :
    Settled allowReason { r with link } :=
  ⟨settled.id, ⟨settled.sides.left, settled.sides.right⟩, settled.reason, settled.op,
    settled.computed, settled.text⟩

theorem settled_right (why : Reason) (left : r.left = .reason) (settled : r.Settled allowReason) :
    Settled allowReason { r with right := .reason why } := by
  have before : r.hasReasonSide = true := by
    rw [hasReasonSide, left]
    rfl
  have after : hasReasonSide { r with right := .reason why } = true := Bool.or_true _
  have normal : (RightSide.reason why).Normal := by
    refine ⟨fun x same => ?_, fun w same => ?_⟩
    · cases same
    · cases same
  refine ⟨settled.id, ⟨settled.sides.left, normal⟩, fun _ => settled.reason before, ?_,
    settled.computed, settled.text⟩
  have op := settled.op
  rw [before] at op
  rw [after]
  exact op

end Rule

namespace Filter

open Rule

variable {raw : Datum} {allowReason : Bool} {f : Filter}

structure Settled (allowReason : Bool) (f : Filter) : Prop where
  normal : f.Normal
  rules : ∀ r ∈ f.rules, r.Settled allowReason
  reasons : ∀ r ∈ f.rules, r.left = .reason → r.right.isReason = true

theorem withReasonRight_reason {r : Rule} (h : (withReasonRight true r).left = .reason) :
    (withReasonRight true r).right.isReason = true := by
  rw [withReasonRight] at h ⊢
  split
  · rfl
  · next other =>
    rw [if_neg other] at h
    exact absurd (by rw [h]; rfl) other

theorem ofObject_settled (h : ofObject raw allowReason = .ok f) : f.Settled allowReason := by
  have settled := ofObject_all (P := Rule.Settled allowReason) (fun _ _ made => ofDatum_settled made)
    (fun _ link settled => settled_link link settled)
    (fun _ why left settled => settled_right why left settled) h
  refine ⟨ofObject_normal h, settled, fun r hr left => ?_⟩
  obtain rfl : allowReason = true := (settled r hr).reason (by
    rw [hasReasonSide, left]
    rfl)
  rw [ofObject_eq] at h
  obtain ⟨rules, _, made⟩ := bind_ok h
  cases made
  obtain ⟨r', _, rfl⟩ := List.mem_map.mp hr
  exact withReasonRight_reason left

theorem ofDatum_settled (h : ofDatum raw allowReason = .ok f) : f.Settled allowReason := by
  obtain ⟨d, object⟩ := ofDatum_eq raw allowReason
  rw [object] at h
  exact ofObject_settled h

theorem withReasonRight_settled {r : Rule} (reason : r.left = .reason → r.right.isReason = true) :
    withReasonRight allowReason r = r := by
  rw [withReasonRight]
  split
  · next both =>
    have isReason := reason (beq_iff_eq.mp (Bool.and_eq_true_iff.mp both).2)
    obtain ⟨id, link, left, op, right, computed, text⟩ := r
    cases right with
    | reason why =>
      have same : (RightSide.reason why).toReason = why := ofDatum_tag why
      rw [same]
    | _ => cases isReason
  · rfl

theorem ofDatum_reread (settled : f.Settled allowReason) :
    ofDatum f.toDatum allowReason = .ok f := by
  have given : givenRules f.toDatum allowReason = .ok f.rules :=
    mapM_map_ok fun r hr => Rule.ofDatum_reread (settled.rules r hr)
  have some : someRules f.rules allowReason = .ok f.rules :=
    if_neg fun empty => settled.normal.nonempty (List.isEmpty_iff.mp empty)
  have object : ofDatum f.toDatum allowReason = ofObject f.toDatum allowReason := rfl
  have enabled : (f.toDatum.getD "enabled").isTruthy = f.enabled := rfl
  have same : f.rules.map (withReasonRight allowReason) = f.rules := by
    rw [List.map_congr_left fun r hr => withReasonRight_settled (settled.reasons r hr), List.map_id']
  rw [object, ofObject_eq, bind_of_ok given, bind_of_ok some, enabled, settled.normal.headed, same]
  rfl

end Filter

end Rules

section WellFormed

/-- The values that the kinds of right sides have. -/
inductive RightSide.Suits : String → Datum → Prop where
  | number {x : Float} (finite : x.isFinite = true) : Suits "number" (.float x)
  | named {w : String} (name : w = "" ∨ Text.isIdentChars w.toList = true) : Suits "var" (.text w)
  | builtin (b : Builtin) : Suits b.name (.float 0.0)
  | reason (why : Reason) : Suits "reason" (.text why.tag)

/-- The values that the kinds of terms have. -/
inductive Term.Suits : String → Datum → Prop where
  | number {x : Float} (finite : x.isFinite = true) : Suits "number" (.float x)
  | named {w : String} (name : w = "" ∨ Text.isIdentChars w.toList = true) : Suits "var" (.text w)
  | builtin (b : Builtin) : Suits b.name (.int 0)

structure Rule.WellFormed (r : Rule) : Prop where
  link : r.link.name = "and" ∨ r.link.name = "or"
  reasons : r.hasReasonSide = true → r.op.name = "==" ∨ r.op.name = "!="
  equality : r.hasReasonSide = false → r.op.name ≠ "=="
  paired : r.left.kindName = "reason" → r.right.kindName = "reason"
  right : RightSide.Suits r.right.kindName r.right.value
  terms : ∀ p ∈ r.computed.parts, Term.Suits p.1.kind.name p.1.value

structure Filter.WellFormed (f : Filter) : Prop where
  nonempty : f.rules ≠ []
  first : ∀ r ∈ f.rules.head?, r.link.name = "and"
  rules : ∀ r ∈ f.rules, r.WellFormed

theorem RightSide.Normal.suits {side : RightSide} (normal : side.Normal) :
    Suits side.kindName side.value := by
  cases side with
  | number x => exact .number (normal.number x rfl)
  | named w => exact .named (identOrEmpty_eq_iff.mp (normal.name w rfl))
  | builtin b => exact .builtin b
  | reason why => exact .reason why

theorem Term.Normal.suits {t : Term} (normal : t.Normal) : Suits t.kind.name t.value := by
  cases t with
  | number x => exact .number (normal.number x rfl)
  | named w => exact .named (identOrEmpty_eq_iff.mp (normal.name w rfl))
  | builtin b => exact .builtin b

theorem Rule.suited_reason (op : Comparator) :
    (suited op true).name = "==" ∨ (suited op true).name = "!=" := by
  rcases op with (_ | _ | _ | _ | _ | _) | _ <;> decide

theorem Rule.suited_plain (op : Comparator) : (suited op false).name ≠ "==" := by
  rcases op with (_ | _ | _ | _ | _ | _) | _ <;> decide

theorem LeftSide.eq_reason {side : LeftSide} (h : side.kindName = "reason") : side = .reason := by
  cases side with
  | reason => rfl
  | named w =>
    have other : ¬"var" = "reason" := by decide
    exact absurd h other
  | builtin b =>
    have other : ¬b.name = "reason" := beq_eq_false_iff_ne.mp (Rule.builtin_ne_reason b)
    exact absurd h other

variable {allowReason : Bool}

theorem Rule.Settled.wellFormed {r : Rule} (settled : r.Settled allowReason)
    (paired : r.left = .reason → r.right.isReason = true) : r.WellFormed := by
  have op := settled.op
  refine ⟨?_, fun side => ?_, fun side => ?_, fun left => ?_, settled.sides.right.suits,
    fun p mem => (settled.computed.normal p mem).suits⟩
  · cases r.link
    · exact .inl rfl
    · exact .inr rfl
  · rw [← op, side]
    exact suited_reason r.op
  · rw [← op, side]
    exact suited_plain r.op
  · have isReason := paired (LeftSide.eq_reason left)
    cases right : r.right with
    | reason why => rfl
    | _ =>
      rw [right] at isReason
      cases isReason

theorem Filter.Settled.wellFormed {f : Filter} (settled : f.Settled allowReason) :
    f.WellFormed := by
  refine ⟨settled.normal.nonempty, fun r first => ?_, fun r hr =>
    (settled.rules r hr).wellFormed (settled.reasons r hr)⟩
  have headed := settled.normal.headed
  cases rules : f.rules with
  | nil =>
    rw [rules] at first
    cases first
  | cons r' rest =>
    rw [rules] at first headed
    cases first
    rw [← (List.cons.inj headed).1]
    rfl

/-- Every document gives a filter, which is well-formed and is given again by its own document. -/
theorem Filter.ofDatum_normalizes (raw : Datum) (allowReason : Bool) (inRange : raw.InRange) :
    ∃ f, ofDatum raw allowReason = .ok f ∧ f.WellFormed ∧ ofDatum f.toDatum allowReason = .ok f := by
  obtain ⟨f, given⟩ := ofDatum_ok inRange allowReason
  have settled := ofDatum_settled given
  exact ⟨f, given, settled.wellFormed, ofDatum_reread settled⟩

theorem Filter.ofDatum_normalizes_reason :
    let raw : Datum := .object [("enabled", .int 1), ("rules", .list [
      .object [("left", .text "reason"), ("op", .text ">="), ("rightValue", .float 3.0)],
      .object [("op", .text "=="), ("right", .text "var"), ("rightValue", .text " speed "),
        ("calcValueMode", .text "expr"), ("calcLeftExpr", .text "life * 2")]])]
    raw.InRange ∧ ∃ f, ofDatum raw true = .ok f ∧ f.WellFormed ∧ ofDatum f.toDatum true = .ok f := by
  intro raw
  have inRange : raw.InRange := by
    refine .object ?_
    simp only [List.forall_mem_cons]
    refine ⟨.number ⟨1.0, rfl⟩, .list ?_, List.forall_mem_nil _⟩
    simp only [List.forall_mem_cons]
    refine ⟨.object ?_, .object ?_, List.forall_mem_nil _⟩
    · simp only [List.forall_mem_cons]
      exact ⟨.text _, .text _, .float _, List.forall_mem_nil _⟩
    · simp only [List.forall_mem_cons]
      exact ⟨.text _, .text _, .text _, .text _, .text _, List.forall_mem_nil _⟩
  exact ⟨inRange, Filter.ofDatum_normalizes raw true inRange⟩

end WellFormed

end EmitterLogic
