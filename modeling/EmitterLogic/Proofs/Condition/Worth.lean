import EmitterLogic.Condition.Kotlin
import EmitterLogic.Proofs.Condition.Normal
import EmitterLogic.Proofs.Datum.Equality
import EmitterLogic.Proofs.Number.Written
import EmitterLogic.Proofs.Script.CodeReading
import EmitterLogic.Proofs.Script.Yields

namespace EmitterLogic

open Binary64 Session Script

section Order

variable {x x' y y' : Float}

theorem Comparison.holds_congr (c : Comparison) (hx : x.isFinite = true) (hx' : x'.isFinite = true)
    (hy : y.isFinite = true) (hy' : y'.isFinite = true) (sameX : units x = units x')
    (sameY : units y = units y') : c.holds x y = c.holds x' y' := by
  have equal : (x == y) = (x' == y') := by
    rw [Bool.eq_iff_iff, beq_iff hx hy, beq_iff hx' hy', sameX, sameY]
  cases c
  case eq => exact equal
  case ne => exact congrArg (!·) equal
  all_goals
    simp only [holds]
    first
    | rw [decide_eq_decide, lt_iff hx hy, lt_iff hx' hy', sameX, sameY]
    | rw [decide_eq_decide, lt_iff hy hx, lt_iff hy' hx', sameX, sameY]
    | rw [decide_eq_decide, le_iff hx hy, le_iff hx' hy', sameX, sameY]
    | rw [decide_eq_decide, le_iff hy hx, le_iff hy' hx', sameX, sameY]

theorem onValues_float (c : Comparison) (hx : x.isFinite = true) (hy : y.isFinite = true) :
    Comparison.onValues (.plain c) (.float x) (.float y) = .ok (c.holds x y) := by
  have key {z : Float} (hz : z.isFinite = true) : Comparison.orderKey? (.float z) = .ok (some z) := by
    have finite : finiteOnly z = some z := if_pos hz
    rw [Datum.float, Comparison.orderKey?, Datum.finite?, Number.toFloat_float, Except.map, finite]
    intro _ text
    cases text
  have same := same_float hx hy
  cases c
  case eq => rw [Comparison.onValues, same]; rfl
  case ne => rw [Comparison.onValues, same]; rfl
  all_goals
    rw [Comparison.onValues, key hx, key hy]
    · rfl
    · intro eq
      cases eq
    · intro ne
      cases ne

end Order

/-- What operands are worth. -/
structure Worth where
  builtin : Builtin → Float
  named : String → Float
  number : Float → Float

namespace LeftSide

def worth (ω : Worth) : LeftSide → Float
  | builtin b => ω.builtin b
  | named w => ω.named w
  | reason => 0.0

def varNames : LeftSide → List String
  | named w => [w]
  | _ => []

end LeftSide

namespace RightSide

def worth (ω : Worth) : RightSide → Float
  | number x => ω.number x
  | named w => ω.named w
  | builtin b => ω.builtin b
  | reason _ => 0.0

def varNames : RightSide → List String
  | named w => [w]
  | _ => []

def literals : RightSide → List Float
  | number x => [x]
  | _ => []

end RightSide

namespace Rule

def comesTo (ω : Worth) (r : Rule) : Bool :=
  match r.op with
  | .plain c => c.holds (r.left.worth ω) (r.right.worth ω)
  | .computed => false

def varNames (r : Rule) : List String := r.left.varNames ++ r.right.varNames

theorem left_mem_varNames {r : Rule} {w : String} (side : r.left = .named w) : w ∈ r.varNames := by
  rw [varNames, side]
  exact List.mem_cons_self

theorem right_mem_varNames {r : Rule} {w : String} (side : r.right = .named w) :
    w ∈ r.varNames := by
  rw [varNames, side]
  exact List.mem_append_right _ List.mem_cons_self

end Rule

namespace Filter

def comesToFrom (ω : Worth) (decided : Bool) : List Rule → Bool
  | [] => decided
  | r :: rest => comesToFrom ω (r.link.join decided (r.comesTo ω)) rest

def comesTo (ω : Worth) (f : Filter) : Bool :=
  match f.rules with
  | [] => true
  | r :: rest => comesToFrom ω (r.comesTo ω) rest

/-- The variables that plain rules compare. -/
def varNames (f : Filter) : List String := f.rules.flatMap Rule.varNames

/-- The numbers that plain rules compare with. -/
def literals (f : Filter) : List Float := f.rules.flatMap (·.right.literals)

theorem mem_varNames {f : Filter} {r : Rule} {w : String} (hr : r ∈ f.rules)
    (hw : w ∈ r.varNames) : w ∈ f.varNames := List.mem_flatMap.mpr ⟨r, hr, hw⟩

theorem mem_literals {f : Filter} {r : Rule} {x : Float} (hr : r ∈ f.rules)
    (side : r.right = .number x) : x ∈ f.literals :=
  List.mem_flatMap.mpr ⟨r, hr, by rw [side]; exact List.mem_cons_self⟩

end Filter

section Agreement

variable {ω ω' : Worth}

def Comparable (x y : Float) : Prop :=
  x.isFinite = true ∧ y.isFinite = true ∧ units x = units y

theorem Comparable.refl {x : Float} (finite : x.isFinite = true) : Comparable x x :=
  ⟨finite, finite, rfl⟩

theorem Rule.comesTo_congr {r : Rule} (left : Comparable (r.left.worth ω) (r.left.worth ω'))
    (right : Comparable (r.right.worth ω) (r.right.worth ω')) : r.comesTo ω = r.comesTo ω' := by
  obtain ⟨hx, hx', sameX⟩ := left
  obtain ⟨hy, hy', sameY⟩ := right
  rw [comesTo, comesTo]
  cases r.op with
  | plain c => exact c.holds_congr hx hx' hy hy' sameX sameY
  | computed => rfl

def Rule.Matches (ω ω' : Worth) (r r' : Rule) : Prop :=
  r.link = r'.link ∧ r.comesTo ω = r'.comesTo ω'

theorem Filter.comesToFrom_congr {rules rules' : List Rule}
    (same : List.Forall₂ (Rule.Matches ω ω') rules rules') (decided : Bool) :
    comesToFrom ω decided rules = comesToFrom ω' decided rules' := by
  induction same generalizing decided with
  | nil => rfl
  | cons first _ ih => rw [comesToFrom, comesToFrom, first.1, first.2, ih]

theorem Filter.comesTo_congr {f f' : Filter}
    (same : List.Forall₂ (Rule.Matches ω ω') f.rules f'.rules) : f.comesTo ω = f'.comesTo ω' := by
  obtain ⟨enabled, rules⟩ := f
  obtain ⟨enabled', rules'⟩ := f'
  have unfolded (ω : Worth) (enabled : Bool) (r : Rule) (rest : List Rule) :
      comesTo ω ⟨enabled, r :: rest⟩ = comesToFrom ω (r.comesTo ω) rest := rfl
  cases same with
  | nil => rfl
  | cons first others => rw [unfolded, unfolded, first.2, comesToFrom_congr others]

end Agreement

theorem Rule.plain_op {r : Rule} (plain : r.usesComputed = false) : ∃ c, r.op = .plain c := by
  cases op : r.op with
  | plain c => exact ⟨c, rfl⟩
  | computed =>
    rw [usesComputed, op] at plain
    cases plain

section Decisions

variable {ω : Worth} {s : Sight} {r : Rule} {f : Filter}

structure Rule.SeenAs (r : Rule) (s : Sight) (ω : Worth) : Prop where
  plain : r.usesComputed = false
  left : r.left.resolve s = .ok (.number (r.left.worth ω))
  right : r.right.resolve s = .ok (.number (r.right.worth ω))
  finiteLeft : (r.left.worth ω).isFinite = true
  finiteRight : (r.right.worth ω).isFinite = true

theorem Rule.SeenAs.holds (h : r.SeenAs s ω) : r.holds s = pure (r.comesTo ω) := by
  obtain ⟨c, op⟩ := plain_op h.plain
  have compared : Comparison.onValues r.op (Operand.number (r.left.worth ω)).toDatum
      (Operand.number (r.right.worth ω)).toDatum = .ok (r.comesTo ω) := by
    rw [Rule.comesTo, op]
    exact onValues_float c h.finiteLeft h.finiteRight
  rw [holds_resolved h.left h.right, h.plain, if_neg Bool.false_ne_true, compared]
  rfl

theorem Filter.holdsFrom_seenAs {rules : List Rule} (h : ∀ r ∈ rules, r.SeenAs s ω)
    (decided : Bool) :
    Filter.holdsFrom s decided rules = pure (Filter.comesToFrom ω decided rules) := by
  induction rules generalizing decided with
  | nil => rfl
  | cons r rest ih =>
    obtain ⟨first, others⟩ := List.forall_mem_cons.mp h
    rw [Filter.holdsFrom, first.holds, pure_bind, ih others]
    rfl

theorem Filter.holds_seenAs (enabled : f.enabled = true) (h : ∀ r ∈ f.rules, r.SeenAs s ω) :
    f.holds s = pure (f.comesTo ω) := by
  obtain ⟨on, rules⟩ := f
  obtain rfl : on = true := enabled
  cases rules with
  | nil => rfl
  | cons r rest =>
    obtain ⟨first, others⟩ := List.forall_mem_cons.mp h
    have unfolded : Filter.holds ⟨true, r :: rest⟩ s =
        r.holds s >>= fun ok => Filter.holdsFrom s ok rest := rfl
    rw [unfolded, first.holds, pure_bind, holdsFrom_seenAs others]
    rfl

end Decisions

section Codes

variable {ω : Worth} {m : Machine (Fields Value)} {map : Kotlin.NameMap}
  {style : Kotlin.NumberStyle} {r : Rule} {f : Filter}

def Renders (m : Machine (Fields Value)) (text : String) (x : Float) : Prop :=
  ∃ (c : Code .signed) (n : Number), c.WellNamed ∧ text = c.text ∧
    (∀ place, Yields m (c.expr place) (.number n)) ∧ n.toFloat = .ok x

theorem renders_numeral (s : Numeral) : Renders m (Code.plain (.numeral s)).text s.value :=
  ⟨.plain (.numeral s), .float s.value, trivial, rfl, fun _ => Yields.number _, rfl⟩

theorem renders_spelled {x : Float} {p : Parts} {text : String} (parts : parts? x = some p)
    (spelled : Spelled p text) : Renders m text (unsignedZero x) := by
  obtain ⟨s, rfl, magnitude⟩ := spelled
  obtain ⟨_, value⟩ := spelled_value parts magnitude
  cases below : belowZero p with
  | true =>
    rw [below] at value
    exact ⟨.negated (.numeral s), .float (-s.value), trivial, rfl,
      fun _ => (Yields.number _).negate rfl, congrArg Except.ok value⟩
  | false =>
    rw [below] at value
    exact ⟨.plain (.numeral s), .float s.value, trivial, rfl, fun _ => Yields.number _,
      congrArg Except.ok value⟩

structure Rule.WrittenAs (r : Rule) (map : Kotlin.NameMap) (style : Kotlin.NumberStyle)
    (m : Machine (Fields Value)) (ω : Worth) : Prop where
  plain : r.usesComputed = false
  left : Renders m (r.left.toKotlin map) (r.left.worth ω)
  right : ∃ text, r.right.toKotlin map style = .ok text ∧ Renders m text (r.right.worth ω)

def Gates (m : Machine (Fields Value)) (code : Live String) (b : Bool) : Prop :=
  ∃ c : Code .operand, c.WellNamed ∧ code = pure c.text ∧ ∀ place, Yields m (c.expr place) (.bool b)

theorem Rule.WrittenAs.gates (h : r.WrittenAs map style m ω) :
    Gates m (r.toKotlin map style) (r.comesTo ω) := by
  obtain ⟨c, op⟩ := plain_op h.plain
  obtain ⟨a, n, namedA, textA, yieldsA, valueA⟩ := h.left
  obtain ⟨text, written, b, k, namedB, rfl, yieldsB, valueB⟩ := h.right
  have code : (Code.group (.joined a (.compare c) b)).text =
      "(" ++ r.left.toKotlin map ++ " " ++ r.op.name ++ " " ++ b.text ++ ")" := by
    rw [Code.text_group, Code.text_joined, Connective.text_compare, op, textA, Comparator.name]
    simp only [String.append_assoc]
  refine ⟨.group (.joined a (.compare c) b), ⟨namedA, namedB⟩, ?_, fun place => ?_⟩
  · rw [code, Rule.toKotlin, h.plain, written]
    rfl
  · rw [Rule.comesTo, op]
    exact Yields.compared c valueA valueB (yieldsA _) (yieldsB _)

theorem Filter.gatesFrom {rules : List Rule} (h : ∀ r ∈ rules, r.WrittenAs map style m ω)
    {done : Code .operand} {decided : Bool} (named : done.WellNamed)
    (yields : ∀ place, Yields m (done.expr place) (.bool decided)) :
    Gates m (Filter.toKotlinFrom map style done.text rules)
      (Filter.comesToFrom ω decided rules) := by
  induction rules generalizing done decided with
  | nil => exact ⟨done, named, rfl, yields⟩
  | cons r rest ih =>
    obtain ⟨here, there⟩ := List.forall_mem_cons.mp h
    obtain ⟨next, namedNext, code, yieldsNext⟩ := here.gates
    let joined : Code .operand := .group (.joined (.plain done) (.link r.link) (.plain next))
    have mark : (Connective.link r.link).mark.text = r.link.toKotlin := by cases r.link <;> rfl
    have text : "(" ++ done.text ++ " " ++ r.link.toKotlin ++ " " ++ next.text ++ ")" =
        joined.text := by
      rw [Code.text_group, Code.text_joined, Code.text_plain, Code.text_plain, mark]
      simp only [String.append_assoc]
    rw [Filter.toKotlinFrom, code, pure_bind, text]
    exact ih there ⟨named, namedNext⟩ fun place => (yields _).linked r.link (yieldsNext _)

theorem Filter.gates (enabled : f.enabled = true) (nonempty : f.rules ≠ [])
    (h : ∀ r ∈ f.rules, r.WrittenAs map style m ω) :
    Gates m (f.toKotlin map style) (f.comesTo ω) := by
  obtain ⟨on, rules⟩ := f
  obtain rfl : on = true := enabled
  cases rules with
  | nil => exact absurd rfl nonempty
  | cons r rest =>
    obtain ⟨here, there⟩ := List.forall_mem_cons.mp h
    obtain ⟨first, named, code, yields⟩ := here.gates
    have unfolded : Filter.toKotlin ⟨true, r :: rest⟩ map style =
        r.toKotlin map style >>= fun done => Filter.toKotlinFrom map style done rest := rfl
    rw [unfolded, code, pure_bind]
    exact gatesFrom there named yields

theorem Gates.evaluates {m : Machine (Fields Value)} {code : Live String} {b : Bool}
    (h : Gates m.rewound code b) (limit : Nat) :
    ∃ text e, code = pure text ∧ parseExpression text = .ok e ∧
      (evaluate bindingsHost limit e m).1 = .ok (.bool b) := by
  obtain ⟨c, named, written, yields⟩ := h
  exact ⟨c.text, _, written, Code.parse_text (.single (.plain c)) named, (yields 0).evaluated limit⟩

end Codes

end EmitterLogic
