import EmitterLogic.Condition.Evaluation
import EmitterLogic.Condition.Kotlin
import EmitterLogic.Proofs.Condition.Normal
import EmitterLogic.Proofs.Formula.Lockstep
import EmitterLogic.Proofs.Formula.Operand
import EmitterLogic.Proofs.Datum.InRange

namespace EmitterLogic

open Binary64 Session Script
open Formula (Tree)

namespace Script.Expr

/-- The number that code stands for, with the operators of the number format; names are read in
sight. -/
def number? (s : Sight) : Expr → Option Float
  | .number x => some x
  | .name w _ => (s.read? w).toOption.join
  | .unary .negate e => (e.number? s).map (-·)
  | .binary (.arith o) a b => (a.number? s).bind fun x => (b.number? s).map (arithmetic o x)
  | .call (.member e "toDouble") [] => e.number? s
  | .call (.member (.member (.name "kotlin" _) "math") "abs") [e] => (e.number? s).map Float.abs
  | _ => none

def truth? (s : Sight) : Expr → Option Bool
  | .binary (.compare r) a b => (a.number? s).bind fun x => (b.number? s).map (r.holds x)
  | _ => none

variable {s : Sight} {a b : Expr} {x y : Float}

theorem number?_arith (o : ArithOp) (left : a.number? s = some x) (right : b.number? s = some y) :
    (Expr.binary (.arith o) a b).number? s = some (arithmetic o x y) := by
  have read : (Expr.binary (.arith o) a b).number? s =
    (a.number? s).bind fun x => (b.number? s).map (arithmetic o x) := rfl
  rw [read, left, right]
  rfl

theorem number?_abs (place : Nat) (read : a.number? s = some x) :
    (Expr.call (.member (.member (.name "kotlin" place) "math") "abs") [a]).number? s =
      some x.abs := by
  have same : (Expr.call (.member (.member (.name "kotlin" place) "math") "abs") [a]).number? s =
    (a.number? s).map Float.abs := rfl
  rw [same, read]
  rfl

theorem truth?_compare (r : Relation) (left : a.number? s = some x) (right : b.number? s = some y) :
    (Expr.binary (.compare r) a b).truth? s = some (r.holds x y) := by
  have read : (Expr.binary (.compare r) a b).truth? s =
    (a.number? s).bind fun x => (b.number? s).map (r.holds x) := rfl
  rw [read, left, right]
  rfl

end Script.Expr

section Operands

variable {s : Sight}

def Term.operands : Term → List String
  | number _ => []
  | named w => if w.isEmpty then [] else [w]
  | builtin b => [b.name]

def Sight.worth (s : Sight) (w : String) : Float := (s.read? w).toOption.join.getD 0.0

/-- The number that the text of a term stands for; a zero is written without its sign. -/
def Term.worth (s : Sight) : Term → Float
  | number x => unsignedZero x
  | named w => if w.isEmpty then 0.0 else s.worth w
  | builtin b => s.worth b.name

/-- Names that stand for finite numbers. -/
def Sight.Numbers (s : Sight) (names : List String) : Prop :=
  ∀ w ∈ names, ∃ x, s.read? w = .ok (some x)

theorem readOne_finite {fields : Fields Datum} {key : String} {x : Float}
    (h : Sight.readOne fields key = .ok (some x)) : x.isFinite = true := by
  rw [Sight.readOne] at h
  split at h
  · exact finite?_isFinite h
  · cases h

theorem readKeys_finite {keys : List String} {x : Float} (h : s.readKeys keys = .ok (some x)) :
    x.isFinite = true := by
  induction keys with
  | nil => cases h
  | cons key rest ih =>
    rw [Sight.readKeys] at h
    obtain ⟨first, read, h⟩ := bind_ok h
    split at h
    · cases h
      exact readOne_finite read
    · obtain ⟨second, read, h⟩ := bind_ok h
      split at h
      · cases h
        exact readOne_finite read
      · exact ih h

theorem read?_finite {w : String} {x : Float} (h : s.read? w = .ok (some x)) :
    x.isFinite = true := by
  simp only [Sight.read?] at h
  split at h
  · cases h
  · exact readKeys_finite h

theorem read?_canonicalName {w : String} (word : Text.isIdentChars w.toList = true) :
    s.read? (canonicalName w) = s.read? w := by
  have named := canonicalName_ident word
  by_cases old : (w == "life") = true
  · rw [named, if_pos old, beq_iff_eq.mp old]
    rfl
  · rw [named, if_neg old]

def Writes (s : Sight) (code : Live String) (names : List String) (x : Float) : Prop :=
  ∃ c : Code .operand, ((∀ w ∈ names, isReserved w = false) → c.WellNamed) ∧
    Answers code (.ok c.text) ∧ ∀ place, (c.expr place).number? s = some x

/-- A text that is a formula of one operand, and the number that it is evaluated to and that its code
stands for. -/
structure Denotes (s : Sight) (text : String) (names : List String) (x : Float) : Prop where
  finite : x.isFinite = true
  value : ∀ fallback, Answers (evalFormula s text fallback) (.ok (.float x))
  code : Writes s (formulaToKotlin [] .full text) names x

theorem evalFormula_tree {text : String} {x : Float} {t : Tree} (bare : trimmed text = text)
    (nonempty : text.isEmpty = false) (compiled : Formula.compile text = .ok ⟨text, t.postorder⟩)
    (value : t.value s = .ok x) (finite : x.isFinite = true) (fallback : Number) :
    Answers (evalFormula s text fallback) (.ok (.float x)) := by
  have visible : (trimmed text).isEmpty = false := by rw [bare, nonempty]
  have compiled' : Formula.compile (trimmed text) = .ok ⟨text, t.postorder⟩ := by
    rw [bare, compiled]
  have tree := Formula.treelike visible compiled' (Formula.treeOf_postorder t)
  have answers := Session.evalFormula_answers s fallback visible compiled'
  rw [tree.value s, value] at answers
  have same : Formula.finiteOrZero x = x := if_pos finite
  rwa [Except.map, same] at answers

theorem denotes_tree {text : String} {names : List String} {x : Float} {t : Tree}
    (bare : trimmed text = text) (nonempty : text.isEmpty = false)
    (compiled : Formula.compile text = .ok ⟨text, t.postorder⟩)
    (reads : ∀ w, .name w ∈ t.postorder → w ∈ names) (value : t.value s = .ok x)
    (finite : x.isFinite = true) (number : ∀ e, t.ReadAs e → e.number? s = some x) :
    Denotes s text names x := by
  have visible : (trimmed text).isEmpty = false := by rw [bare, nonempty]
  have compiled' : Formula.compile (trimmed text) = .ok ⟨text, t.postorder⟩ := by
    rw [bare, compiled]
  have tree := Formula.treelike visible compiled' (Formula.treeOf_postorder t)
  obtain ⟨unsigned, words⟩ := Formula.compile_proper compiled
  obtain ⟨c, named, written, readAs⟩ := t.code unsigned words
  refine ⟨finite, evalFormula_tree bare nonempty compiled value finite, c,
    fun free => named fun w hw => free w (reads w hw), ?_, fun place => number _ (readAs place)⟩
  have answers := tree.code [] .full
  rwa [written] at answers

theorem denotes_numeral (negative : Bool) {n : Numeral} (finite : n.value.isFinite = true) :
    Denotes s (String.ofList (signChars negative ++ n.chars)) []
      (if negative then -n.value else n.value) := by
  have bare := Formula.trimmed_numeral negative n
  have nonempty : (String.ofList (signChars negative ++ n.chars)).isEmpty = false := by
    rw [← Bool.not_eq_true, String.isEmpty_iff]
    intro empty
    have chars := congrArg String.toList empty
    rw [String.toList_ofList] at chars
    exact n.chars_ne_nil (List.append_eq_nil_iff.mp chars).2
  have compiled := Formula.compile_numeral negative (s := n) rfl
  have same : Formula.finiteOrZero n.value = n.value := if_pos finite
  have negated : (-n.value).isFinite = true := (isFinite_neg n.value).trans finite
  cases negative with
  | false =>
    refine denotes_tree bare nonempty compiled nofun ?_ finite ?_
    · exact congrArg Except.ok same
    · rintro _ rfl
      exact congrArg Option.some same
  | true =>
    refine denotes_tree bare nonempty compiled nofun ?_ negated ?_
    · have value : (Formula.signedTree true n.value).value s =
          .ok (if (Formula.finiteOrZero n.value).isFinite then -Formula.finiteOrZero n.value else 0.0) :=
        rfl
      rw [value, same, finite]
      rfl
    · rintro _ ⟨_, rfl, rfl⟩
      exact congrArg (Option.some <| - ·) same

theorem denotes_name {w : String} (word : Text.isIdentChars w.toList = true) {x : Float}
    (read : s.read? w = .ok (some x)) : Denotes s w [w] x := by
  refine denotes_tree (trimmed_ident word) (isEmpty_ident word) (Formula.compile_name word) ?_ ?_
    (read?_finite read) ?_
  · rintro v hv
    rw [Tree.postorder, List.mem_singleton] at hv
    cases hv
    exact List.mem_cons_self
  · rw [Tree.value, Sight.readD, read]
    rfl
  · rintro _ ⟨place, rfl⟩
    have name : (Expr.call (.member (.name (canonicalName w) place) "toDouble") []).number? s =
        (s.read? (canonicalName w)).toOption.join := rfl
    rw [name, read?_canonicalName word, read]
    rfl

theorem denotes_finite {x : Float} (finite : x.isFinite = true) :
    Denotes s (Term.number x).toExpr [] (unsignedZero x) := by
  obtain ⟨p, parts⟩ := isFinite_iff_parts.mp finite
  obtain ⟨n, text, magnitude⟩ := plainNumeral_spelled parts
  obtain ⟨finite', value⟩ := spelled_value parts magnitude
  have written : (Term.number x).toExpr = plainNumeral x := if_pos finite
  rw [written, text, ← value]
  exact denotes_numeral (belowZero p) finite'

theorem denotes_worth {w : String} (word : Text.isIdentChars w.toList = true)
    (number : ∃ x, s.read? w = .ok (some x)) : Denotes s w [w] (s.worth w) := by
  obtain ⟨x, read⟩ := number
  have same : s.worth w = x := by
    rw [Sight.worth, read]
    rfl
  rw [same]
  exact denotes_name word read

def Sight.Readable (s : Sight) (names : List String) : Prop := ∀ w ∈ names, ∃ x?, s.read? w = .ok x?

theorem Sight.Numbers.readable {names : List String} (numbers : s.Numbers names) :
    s.Readable names := fun w hw =>
  let ⟨x, read⟩ := numbers w hw
  ⟨some x, read⟩

theorem Sight.InRange.readable (inRange : s.InRange) (names : List String) : s.Readable names :=
  fun w _ => inRange.read? w

theorem Sight.readD_eq {w : String} (read : ∃ x?, s.read? w = .ok x?) :
    s.readD w 0.0 = .ok (s.worth w) := by
  obtain ⟨x?, read⟩ := read
  rw [readD, worth, read]
  rfl

theorem Sight.worth_isFinite (s : Sight) (w : String) : (s.worth w).isFinite = true := by
  cases read : s.read? w with
  | error e => rw [worth, read]; exact zero_isFinite
  | ok x? =>
    cases x? with
    | none => rw [worth, read]; exact zero_isFinite
    | some x => rw [worth, read]; exact read?_finite read

theorem Term.worth_isFinite {t : Term} (normal : t.Normal) : (t.worth s).isFinite = true := by
  cases t with
  | number x => exact isFinite_unsignedZero (normal.number x rfl)
  | builtin b => exact s.worth_isFinite b.name
  | named w =>
    rw [worth]
    split
    · exact zero_isFinite
    · exact s.worth_isFinite w

theorem evalFormula_name {w : String} (word : Text.isIdentChars w.toList = true)
    (read : ∃ x?, s.read? w = .ok x?) (fallback : Number) :
    Answers (evalFormula s w fallback) (.ok (.float (s.worth w))) :=
  evalFormula_tree (trimmed_ident word) (isEmpty_ident word) (Formula.compile_name word)
    (Sight.readD_eq read) (s.worth_isFinite w) fallback

theorem Term.toExpr_unnamed : (named "").toExpr = (number 0.0).toExpr := by decide +kernel

theorem Term.toExpr_named {w : String} (word : Text.isIdentChars w.toList = true) :
    (named w).toExpr = w := by rw [toExpr, if_pos (isIdent_of_chars word), trimmed_ident word]

theorem Term.evalFormula_toExpr {t : Term} (normal : t.Normal) (readable : s.Readable t.operands)
    (fallback : Number) : Answers (evalFormula s t.toExpr fallback) (.ok (.float (t.worth s))) := by
  cases t with
  | number x => exact (denotes_finite (normal.number x rfl)).value fallback
  | builtin b =>
    exact evalFormula_name b.name_ident (readable b.name List.mem_cons_self) fallback
  | named w =>
    rcases identOrEmpty_eq_iff.mp (normal.name w rfl) with rfl | word
    · rw [toExpr_unnamed]
      exact (denotes_finite zero_isFinite).value fallback
    · rw [operands, isEmpty_ident word, if_neg Bool.false_ne_true] at readable
      rw [toExpr_named word, worth, isEmpty_ident word, if_neg Bool.false_ne_true]
      exact evalFormula_name word (readable w List.mem_cons_self) fallback

theorem Term.denotes {t : Term} (normal : t.Normal) (numbers : s.Numbers t.operands) :
    Denotes s t.toExpr t.operands (t.worth s) := by
  cases t with
  | number x => exact denotes_finite (normal.number x rfl)
  | builtin b => exact denotes_worth b.name_ident (numbers b.name List.mem_cons_self)
  | named w =>
    rcases identOrEmpty_eq_iff.mp (normal.name w rfl) with rfl | word
    · have value : (named "").worth s = unsignedZero 0.0 := by
        have zero : unsignedZero 0.0 = 0.0 := by decide
        rw [zero]
        rfl
      rw [toExpr_unnamed, value]
      exact denotes_finite zero_isFinite
    · have visible := isEmpty_ident word
      rw [toExpr_named word, worth, visible, if_neg Bool.false_ne_true]
      rw [operands, visible, if_neg Bool.false_ne_true] at numbers ⊢
      exact denotes_worth word (numbers w List.mem_cons_self)

end Operands

end EmitterLogic
