import Mathlib.Data.List.Forall2
import EmitterLogic.Condition.Filter
import EmitterLogic.Proofs.Datum.InRange
import EmitterLogic.Proofs.Term.Name

namespace EmitterLogic

theorem Datum.textOrEmpty_text (s : String) : (Datum.text s).textOrEmpty = s := by
  rw [Datum.textOrEmpty, Datum.isTruthy]
  by_cases h : s = ""
  · subst h
    rfl
  · simp [h, Datum.toText_text]

theorem identOrEmpty_identOrEmpty (s : String) : identOrEmpty (identOrEmpty s) = identOrEmpty s := by
  by_cases h : isIdent s = true
  · have chars := chars_of_isIdent h
    have made : identOrEmpty s = trimmed s := if_pos h
    rw [made, identOrEmpty, if_pos (isIdent_of_chars chars), trimmed_ident chars]
  · have made : identOrEmpty s = "" := if_neg h
    rw [made]
    rfl

theorem identOrEmpty_eq_iff {w : String} :
    identOrEmpty w = w ↔ w = "" ∨ Text.isIdentChars w.toList = true := by
  refine ⟨fun h => ?_, ?_⟩
  · by_cases ident : isIdent w = true
    · have made : identOrEmpty w = trimmed w := if_pos ident
      have chars := chars_of_isIdent ident
      rw [← made, h] at chars
      exact .inr chars
    · have made : identOrEmpty w = "" := if_neg ident
      exact .inl (h.symm.trans made)
  · rintro (rfl | chars)
    · rfl
    · rw [identOrEmpty, if_pos (isIdent_of_chars chars), trimmed_ident chars]

section Terms

namespace Term

theorem zero_finite : (Datum.int 0).finite? = .ok (some 0.0) := rfl

theorem value_finite (t : Term) : ∃ x?, t.value.finite? = .ok x? := by
  cases t with
  | number x => exact ⟨finiteOnly x, rfl⟩
  | named w => exact ⟨(spelledNumber? w).bind finiteOnly, rfl⟩
  | builtin b => exact ⟨some 0.0, zero_finite⟩

theorem ofNumber_ok {d : Datum} (h : ∃ x?, d.finite? = .ok x?) : ∃ t, ofNumber d = .ok t := by
  obtain ⟨x?, finite⟩ := h
  exact ⟨.number (x?.getD 0.0), by simp only [ofNumber, Datum.finiteOrZero, finite, Except.map]⟩

theorem normalize_ok (kind : Datum) {value : Datum} (fallback : RawTerm)
    (h : ∃ x?, value.finite? = .ok x?) (hf : ∃ x?, fallback.value.finite? = .ok x?) :
    ∃ t, normalize kind value fallback = .ok t := by
  delta normalize
  simp only
  generalize TermKind.ofText _ = k
  cases k with
  | number =>
    refine ofNumber_ok ?_
    split
    · exact hf
    · exact h
  | named => exact ⟨_, rfl⟩
  | builtin b => exact ⟨_, rfl⟩

theorem infer_ok (token : Datum) (fallback : RawTerm) (hf : ∃ x?, fallback.value.finite? = .ok x?) :
    ∃ t, infer token fallback = .ok t := by
  delta infer
  generalize ofToken? _ = t?
  cases t? with
  | some t => exact ⟨t, rfl⟩
  | none => exact normalize_ok _ {} hf ⟨some 0.0, zero_finite⟩

end Term

end Terms

structure LeftSide.Normal (side : LeftSide) : Prop where
  name : ∀ w, side = .named w → identOrEmpty w = w

structure RightSide.Normal (side : RightSide) : Prop where
  number : ∀ x, side = .number x → x.isFinite = true
  name : ∀ w, side = .named w → identOrEmpty w = w

namespace Rule

variable {d : Datum} {allowReason : Bool} {r : Rule}

structure Normal (r : Rule) : Prop where
  left : r.left.Normal
  right : r.right.Normal

theorem leftOf_normal (d : Datum) (allowReason : Bool) : (leftOf d allowReason).Normal := by
  refine ⟨fun w h => ?_⟩
  simp only [leftOf] at h
  split at h
  · cases h
    exact identOrEmpty_identOrEmpty _
  · split at h
    · cases h
    · cases h

theorem rightOf_normal {right : RightSide} (h : rightOf d allowReason = .ok right) :
    right.Normal := by
  simp only [rightOf] at h
  split at h
  · cases h
    refine ⟨nofun, fun w same => ?_⟩
    cases same
    exact identOrEmpty_identOrEmpty _
  · split at h
    · cases h
      exact ⟨nofun, nofun⟩
    · split at h
      · cases h
        exact ⟨nofun, nofun⟩
      · obtain ⟨x, finite, rfl⟩ := map_ok h
        refine ⟨fun y same => ?_, nofun⟩
        cases same
        exact finiteOrZero_isFinite finite

structure ReadFrom (d : Datum) (allowReason : Bool) (r : Rule) : Prop where
  left : r.left = leftOf d allowReason
  right : rightOf d allowReason = .ok r.right
  link : r.link = linkOf (d.getD "link")
  op : r.op = suited (comparatorOf (d.getD "op")) (r.left == .reason || r.right.isReason)

theorem ofDatum_reads (h : ofDatum d allowReason = .ok r) : ReadFrom d allowReason r := by
  obtain ⟨right, found, h⟩ := bind_ok h
  obtain ⟨computed, _, h⟩ := bind_ok h
  cases h
  constructor
  all_goals dsimp only
  exact found

theorem ofDatum_normal (h : ofDatum d allowReason = .ok r) : r.Normal := by
  have reads := ofDatum_reads h
  have left := leftOf_normal d allowReason
  rw [← reads.left] at left
  exact ⟨left, rightOf_normal reads.right⟩

section Reread

theorem trimmedText_text (s : String) : (Datum.text s).trimmedText = trimmed s := by
  rw [Datum.trimmedText, Datum.textOrEmpty_text]

theorem trimmed_builtin (b : Builtin) : trimmed b.name = b.name := by cases b <;> decide

theorem builtin?_name (b : Builtin) : builtin? b.name = some b := by cases b <;> decide

theorem builtin_ne_var (b : Builtin) : (b.name == "var") = false := by cases b <;> decide

theorem builtin_ne_reason (b : Builtin) : (b.name == "reason") = false := by cases b <;> decide

theorem leftOf_stored {side : LeftSide} (kind : d.getD "left" = .text side.kindName)
    (name : d.getD "leftVar" = .text side.variableName) (normal : side.Normal)
    (allowed : side = .reason → allowReason = true) : leftOf d allowReason = side := by
  simp only [leftOf, kind, name, trimmedText_text, Datum.textOrEmpty_text]
  cases side with
  | reason =>
    have noVar : (trimmed "reason" == "var") = false := by decide
    have isReason : (trimmed "reason" == "reason") = true := by decide
    simp only [LeftSide.kindName, noVar, isReason, allowed rfl, Bool.true_and, Bool.false_eq_true,
      if_false, if_true]
  | named w =>
    have isVar : (trimmed "var" == "var") = true := by decide
    simp only [LeftSide.kindName, LeftSide.variableName, isVar, if_true, normal.name w rfl]
  | builtin b =>
    simp only [LeftSide.kindName, trimmed_builtin, builtin_ne_var, builtin_ne_reason, builtin?_name,
      Bool.false_and, Bool.false_eq_true, if_false, Option.getD_some]

theorem leftOf_toDatum (normal : r.left.Normal)
    (allowed : r.left = .reason → allowReason = true) : leftOf r.toDatum allowReason = r.left :=
  leftOf_stored rfl rfl normal allowed

theorem ofDatum_tag (why : Reason) : Reason.ofDatum (.text why.tag) = why := by
  cases why <;> decide

theorem rightOf_stored {side : RightSide} (kind : d.getD "right" = .text side.kindName)
    (value : (∀ b, side ≠ .builtin b) → d.getD "rightValue" = side.value) (normal : side.Normal)
    (allowed : side.isReason = true → allowReason = true) : rightOf d allowReason = .ok side := by
  simp only [rightOf, kind, trimmedText_text]
  cases side with
  | reason why =>
    have noVar : (trimmed "reason" == "var") = false := by decide
    have isReason : (trimmed "reason" == "reason") = true := by decide
    simp only [RightSide.kindName, value nofun, RightSide.value, noVar, isReason, allowed rfl,
      ofDatum_tag, Bool.true_and, Bool.false_eq_true, if_false, if_true]
  | named w =>
    have text : (RightSide.named w).value.textOrEmpty = w := Datum.textOrEmpty_text w
    have isVar : (trimmed "var" == "var") = true := by decide
    simp only [RightSide.kindName, value nofun, isVar, if_true, text, normal.name w rfl]
  | builtin b =>
    simp only [RightSide.kindName, trimmed_builtin, builtin_ne_var, builtin_ne_reason,
      builtin?_name, Bool.false_and, Bool.false_eq_true, if_false]
  | number x =>
    have number : (RightSide.number x).value.finiteOrZero = .ok x :=
      finiteOrZero_float (normal.number x rfl)
    have noBuiltin : builtin? (trimmed "number") = none := by decide
    have noVar : (trimmed "number" == "var") = false := by decide
    have noReason : (trimmed "number" == "reason") = false := by decide
    simp only [RightSide.kindName, value nofun, noBuiltin, noVar, noReason, Bool.false_and,
      Bool.false_eq_true, if_false, number]
    rfl

theorem rightOf_toDatum (normal : r.right.Normal)
    (allowed : r.right.isReason = true → allowReason = true) :
    rightOf r.toDatum allowReason = .ok r.right :=
  rightOf_stored rfl (fun _ => rfl) normal allowed

theorem linkOf_name (l : Link) : linkOf (.text l.name) = l := by cases l <;> decide

theorem comparatorOf_name (c : Comparator) : comparatorOf (.text c.name) = c := by
  cases c with
  | computed => decide
  | plain c => cases c <;> decide

theorem termOf_ok (exprKey : String) (fallback : Term) {key : String}
    (h : ∃ x?, (d.getD (key ++ "TermValue")).finite? = .ok x?) :
    ∃ t, termOf d key exprKey fallback = .ok t := by
  obtain ⟨t, inferred⟩ := Term.infer_ok (d.getD exprKey) fallback.toRaw fallback.value_finite
  obtain ⟨u, normalized⟩ :=
    Term.normalize_ok (d.getD (key ++ "TermType")) t.toRaw h t.value_finite
  exact ⟨u, by simp only [termOf, bind, Except.bind, inferred, normalized]⟩

def partKeys : List String :=
  ["calcLeft", "calcRight", "calcFixed", "calcExpectLeft", "calcExpectRight"]

theorem computedOf_ok (left : LeftSide) (right : RightSide)
    (h : ∀ key ∈ partKeys, ∃ x?, (d.getD (key ++ "TermValue")).finite? = .ok x?) :
    ∃ c, computedOf d left right = .ok c := by
  obtain ⟨given, inferred⟩ := Term.infer_ok (.text right.toExpr) {} ⟨some 0.0, Term.zero_finite⟩
  simp only [partKeys, List.forall_mem_cons] at h
  obtain ⟨h₁, h₂, h₃, h₄, h₅, _⟩ := h
  obtain ⟨a, left'⟩ := termOf_ok "calcLeftExpr" left.toTerm h₁
  obtain ⟨b, right'⟩ := termOf_ok "calcRightExpr" given h₂
  obtain ⟨c, fixed⟩ := termOf_ok "calcExpectExpr" .zero h₃
  obtain ⟨x, first⟩ := termOf_ok "calcExpectLeftExpr" given h₄
  obtain ⟨y, second⟩ := termOf_ok "calcExpectRightExpr" .zero h₅
  have text : Term.inferText right.toExpr = .ok given := inferred
  rw [computedOf, text]
  simp only [bind, Except.bind, left', right', fixed, first, second]
  exact ⟨_, rfl⟩

theorem computedOf_toDatum (r : Rule) (left : LeftSide) (right : RightSide) :
    ∃ c, computedOf r.toDatum left right = .ok c := by
  refine computedOf_ok left right ?_
  simp only [partKeys, List.forall_mem_cons]
  exact ⟨r.computed.leftTerm.value_finite, r.computed.rightTerm.value_finite,
    r.computed.fixedTerm.value_finite, r.computed.expectLeftTerm.value_finite,
    r.computed.expectRightTerm.value_finite, List.forall_mem_nil _⟩

structure Alike (r r' : Rule) : Prop where
  link : r'.link = r.link
  left : r'.left = r.left
  op : r'.op = r.op
  right : r'.right = r.right

theorem ofDatum_toDatum (normal : r.Normal) (plain : r.usesComputed = false)
    (noReason : r.hasReasonSide = false) (allowReason : Bool) :
    ∃ r', ofDatum r.toDatum allowReason = .ok r' ∧ r.Alike r' := by
  rw [hasReasonSide, Bool.or_eq_false_iff, beq_eq_false_iff_ne] at noReason
  have left : leftOf r.toDatum allowReason = r.left :=
    leftOf_toDatum normal.left fun same => absurd same noReason.1
  have right : rightOf r.toDatum allowReason = .ok r.right :=
    rightOf_toDatum normal.right fun same => absurd same (by rw [noReason.2]; decide)
  obtain ⟨c, computed⟩ := computedOf_toDatum r r.left r.right
  obtain ⟨r', read⟩ : ∃ r', ofDatum r.toDatum allowReason = .ok r' := by
    rw [ofDatum, left, right]
    simp only [bind, Except.bind, computed]
    exact ⟨_, rfl⟩
  have reads := ofDatum_reads read
  have sameLeft : r'.left = r.left := reads.left.trans left
  have sameRight : r'.right = r.right := Except.ok.inj (reads.right.symm.trans right)
  have link : linkOf (r.toDatum.getD "link") = r.link := linkOf_name r.link
  have op : comparatorOf (r.toDatum.getD "op") = r.op := comparatorOf_name r.op
  have noReason : (r.left == .reason || r.right.isReason) = false := by
    rw [noReason.2, Bool.or_false, beq_eq_false_iff_ne]
    exact noReason.1
  have notEq : ¬(r.op == .plain .eq) = true := by
    intro same
    rw [usesComputed, hasReasonSide, noReason, same] at plain
    simp at plain
  have suits : suited r.op false = r.op := (if_neg Bool.false_ne_true).trans (if_neg notEq)
  refine ⟨r', read, reads.link.trans link, sameLeft, ?_, sameRight⟩
  rw [reads.op, op, sameLeft, sameRight, noReason, suits]

end Reread

section Lines

variable {P : Rule → Prop}

theorem ofSegment_all (given : ∀ d r, ofDatum d allowReason = .ok r → P r) {link : Link}
    {name right : String} {op : Comparison}
    (h : ofSegment link name op right allowReason = .ok r) : P r := by
  simp only [ofSegment] at h
  split at h
  all_goals
    obtain ⟨seed, _, made⟩ := bind_ok h
    exact given _ _ made

theorem ofPieces_all (given : ∀ d r, ofDatum d allowReason = .ok r → P r) {done rules : List Rule}
    {pieces : List (Link × List Char)} (earlier : ∀ r ∈ done, P r)
    (h : ofPieces allowReason done pieces = .ok rules) : ∀ r ∈ rules, P r := by
  induction pieces generalizing done with
  | nil =>
    cases h
    intro r hr
    exact earlier r (List.mem_reverse.mp hr)
  | cons p rest ih =>
    obtain ⟨link, piece⟩ := p
    rw [ofPieces] at h
    split at h
    · exact ih earlier h
    · obtain ⟨r, made, h⟩ := bind_ok h
      refine ih ?_ h
      intro r' hr
      rcases List.mem_cons.mp hr with rfl | hr
      · exact ofSegment_all given made
      · exact earlier r' hr

theorem ofText_all (given : ∀ d r, ofDatum d allowReason = .ok r → P r) {text : String}
    {rules : List Rule} (h : ofText text allowReason = .ok rules) : ∀ r ∈ rules, P r :=
  ofPieces_all given (List.forall_mem_nil _) h

end Lines

end Rule

end EmitterLogic
