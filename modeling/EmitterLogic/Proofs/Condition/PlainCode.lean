import EmitterLogic.Proofs.Condition.Worth
import EmitterLogic.Proofs.Datum.InRange
import EmitterLogic.Proofs.Session.Answers

/-!
Plain conditions and their code. The code of a filter whose rules compare their sides as they are is
read and evaluated to the decision of the filter.
-/

namespace EmitterLogic

open Binary64 Session Script

section Names

variable {s : Sight} {w : String} {n : Number}

/-- A name stands for a number in one of the two places in sight, and for nothing in the other. -/
def Sight.Binds (s : Sight) (w : String) (n : Number) : Prop :=
  s.context.get? w = some (.number n) ∧ s.vars.get? w = none ∨
    s.context.get? w = none ∧ s.vars.get? w = some (.number n)

theorem lookupKeys_ident (word : Text.isIdentChars w.toList = true) (current : w ≠ "life") :
    ∃ more, lookupKeys w = w :: more := by
  have same : canonicalName w = w := by
    rw [canonicalName_ident word, if_neg (by simpa using current)]
  rw [lookupKeys, same]
  split
  · next age => exact ⟨["life"], by rw [beq_iff_eq.mp age]⟩
  · exact ⟨[], rfl⟩

theorem Sight.readD_binds {x : Float} (word : Text.isIdentChars w.toList = true)
    (current : w ≠ "life") (bound : s.Binds w n) (value : n.toFloat = .ok x)
    (finite : x.isFinite = true) : s.readD w 0.0 = .ok x := by
  obtain ⟨more, keys⟩ := lookupKeys_ident word current
  have number := finite?_number value finite
  have found {fields : Fields Datum} (h : fields.get? w = some (.number n)) :
      readOne fields w = .ok (some x) := by
    rw [readOne, h]
    exact number
  have read : s.readKeys (w :: more) = .ok (some x) := by
    rw [readKeys]
    rcases bound with ⟨here, _⟩ | ⟨absent, here⟩
    · rw [found here]
      rfl
    · have nothing : readOne s.context w = .ok none := by rw [readOne, absent]
      rw [nothing, found here]
      rfl
  rw [readD, read?, trimmed_ident word, isEmpty_ident word, keys, if_neg Bool.false_ne_true, read]
  rfl

theorem Sight.Binds.merged (bound : s.Binds w n) (distinct : s.vars.keys.Nodup) :
    (s.context.merge s.vars).get? w = some (.number n) := by
  rw [Fields.get?_merge s.context distinct]
  rcases bound with ⟨here, absent⟩ | ⟨_, here⟩
  · rw [absent, here]
    rfl
  · rw [here]
    rfl

end Names

section Sides

variable {s : Sight} {w : String}

/-- The names that a side reads. -/
def LeftSide.operands : LeftSide → List String
  | builtin b => [b.name]
  | named w => if w.isEmpty then [] else [w]
  | reason => []

/-- The names that a side reads. -/
def RightSide.operands : RightSide → List String
  | builtin b => [b.name]
  | named w => if w.isEmpty then [] else [w]
  | _ => []

/-- A name that a script may read stands for a finite number. -/
structure Sight.Offers (s : Sight) (w : String) : Prop where
  unreserved : isReserved w = false
  current : w ≠ "life"
  bound : ∃ n x, s.Binds w n ∧ n.toFloat = .ok x ∧ x.isFinite = true

/-- The machine that a script finds where the values in sight are its bindings. -/
def Sight.machine (s : Sight) (draws : Draws) : Machine (Fields Value) :=
  Machine.ofBindings (s.context.merge s.vars) draws

def Sight.reading (s : Sight) (w : String) : Float := (s.readD w 0.0).toOption.getD 0.0

def Sight.readings (s : Sight) (number : Float → Float := fun x => x) : Worth where
  builtin b := s.reading b.name
  named := s.reading
  number

theorem Sight.readings_builtin (s : Sight) (number : Float → Float) (b : Builtin) :
    (s.readings number).builtin b = s.reading b.name := by rw [readings]

theorem Sight.readings_named (s : Sight) (number : Float → Float) (w : String) :
    (s.readings number).named w = s.reading w := by rw [readings]

structure Sight.Reads (s : Sight) (m : Machine (Fields Value)) (w text : String) : Prop where
  value : s.readD w 0.0 = .ok (s.reading w)
  finite : (s.reading w).isFinite = true
  renders : Renders m text (s.reading w)

theorem Sight.Reads.of_ok {m : Machine (Fields Value)} {text : String} {x : Float}
    (value : s.readD w 0.0 = .ok x) (finite : x.isFinite = true) (renders : Renders m text x) :
    s.Reads m w text := by
  have same : s.reading w = x := by
    rw [reading, value]
    rfl
  exact ⟨by rw [same, value], by rw [same, finite], by rw [same]; exact renders⟩

theorem reads_name (draws : Draws) (distinct : s.vars.keys.Nodup)
    (word : Text.isIdentChars w.toList = true) (offers : s.Offers w) :
    s.Reads (s.machine draws).rewound w w := by
  obtain ⟨n, x, bound, value, finite⟩ := offers.bound
  refine .of_ok (Sight.readD_binds word offers.current bound value finite) finite ?_
  exact ⟨.plain (.name w), n, ⟨word, offers.unreserved⟩, (Code.text_name w).symm,
    fun place => yields_binding draws place (bound.merged distinct), value⟩

theorem reads_nothing {m : Machine (Fields Value)} : s.Reads m "" "0.0" :=
  .of_ok rfl zero_isFinite (renders_numeral .zero)

theorem reads_variable (draws : Draws) (distinct : s.vars.keys.Nodup)
    (normal : identOrEmpty w = w) (offers : ∀ v ∈ if w.isEmpty then [] else [w], s.Offers v) :
    s.Reads (s.machine draws).rewound w (if isIdent w then trimmed w else "0.0") := by
  rcases identOrEmpty_eq_iff.mp normal with rfl | word
  · have unnamed : isIdent "" = false := by decide
    rw [unnamed, if_neg Bool.false_ne_true]
    exact reads_nothing
  · rw [if_pos (isIdent_of_chars word), trimmed_ident word]
    rw [isEmpty_ident word] at offers
    exact reads_name draws distinct word (offers w List.mem_cons_self)

theorem reads_builtin (draws : Draws) (distinct : s.vars.keys.Nodup) {b : Builtin}
    (offers : s.Offers b.name) : s.Reads (s.machine draws).rewound b.name (Kotlin.builtin [] b) := by
  rw [Kotlin.builtin_nil]
  exact reads_name draws distinct b.name_ident offers

structure Operates (m : Machine (Fields Value)) (resolved : Except Fault Operand) (text : String)
    (x y : Float) : Prop where
  resolves : resolved = .ok (.number x)
  renders : Renders m text y
  comparable : Comparable x y

theorem Sight.Reads.operates {m : Machine (Fields Value)} {text : String} (h : s.Reads m w text) :
    Operates m ((s.readD w 0.0).map .number) text (s.reading w) (s.reading w) :=
  ⟨by rw [h.value]; rfl, h.renders, .refl h.finite⟩

theorem LeftSide.operates {side : LeftSide} (draws : Draws) (distinct : s.vars.keys.Nodup)
    (normal : side.Normal) (plain : side ≠ .reason) (offers : ∀ w ∈ side.operands, s.Offers w) :
    Operates (s.machine draws).rewound (side.resolve s) (side.toKotlin [])
      (side.worth s.readings) (side.worth (s.readings unsignedZero)) := by
  cases side with
  | reason => exact absurd rfl plain
  | builtin b =>
    rw [toKotlin, resolve, worth, worth, Sight.readings_builtin, Sight.readings_builtin]
    exact (reads_builtin draws distinct (offers b.name List.mem_cons_self)).operates
  | named w =>
    rw [toKotlin, resolve, worth, worth, Sight.readings_named, Sight.readings_named]
    exact (reads_variable draws distinct (normal.name w rfl) offers).operates

theorem RightSide.operates {side : RightSide} (draws : Draws) (distinct : s.vars.keys.Nodup)
    (normal : side.Normal) (plain : side.isReason = false)
    (offers : ∀ w ∈ side.operands, s.Offers w) : ∃ text, side.toKotlin [] .full = .ok text ∧
      Operates (s.machine draws).rewound (side.resolve s) text
        (side.worth s.readings) (side.worth (s.readings unsignedZero)) := by
  cases side with
  | reason r => cases plain
  | builtin b =>
    rw [toKotlin, resolve, worth, worth, Sight.readings_builtin, Sight.readings_builtin]
    exact ⟨_, rfl, (reads_builtin draws distinct (offers b.name List.mem_cons_self)).operates⟩
  | named w =>
    rw [toKotlin, resolve, worth, worth, Sight.readings_named, Sight.readings_named]
    exact ⟨_, rfl, (reads_variable draws distinct (normal.name w rfl) offers).operates⟩
  | number x =>
    have finite := normal.number x rfl
    obtain ⟨p, parts⟩ := isFinite_iff_parts.mp finite
    obtain ⟨text, written, spelled⟩ := full_spelled parts
    have only : finiteOnly x = some x := if_pos finite
    refine ⟨text, written, ?_, renders_spelled parts spelled, finite, isFinite_unsignedZero finite,
      (units_unsignedZero finite).symm⟩
    rw [resolve, only]
    rfl

end Sides

section Rules

variable {s : Sight}

/-- The names that a plain rule reads. -/
def Rule.operands (r : Rule) : List String := r.left.operands ++ r.right.operands

namespace Rule

variable {r r' : Rule}

theorem Alike.plain (alike : r.Alike r') (plain : r.usesComputed = false) :
    r'.usesComputed = false := by
  rw [usesComputed, hasReasonSide] at plain ⊢
  rw [alike.op, alike.left, alike.right]
  exact plain

theorem Alike.comesTo (alike : r.Alike r') (ω : Worth) : r'.comesTo ω = r.comesTo ω := by
  rw [Rule.comesTo, Rule.comesTo, alike.op, alike.left, alike.right]

structure Follows (s : Sight) (draws : Draws) (r r' : Rule) : Prop where
  seen : r.SeenAs s s.readings
  written : r'.WrittenAs [] .full (s.machine draws).rewound (s.readings unsignedZero)
  same : Matches s.readings (s.readings unsignedZero) r r'

theorem follows (draws : Draws) (distinct : s.vars.keys.Nodup) (alike : r.Alike r')
    (normal : r.Normal) (plain : r.usesComputed = false) (noReason : r.hasReasonSide = false)
    (offers : ∀ w ∈ r.operands, s.Offers w) : Follows s draws r r' := by
  rw [hasReasonSide, Bool.or_eq_false_iff, beq_eq_false_iff_ne] at noReason
  have left := r.left.operates draws distinct normal.left noReason.1
    fun w hw => offers w (List.mem_append_left _ hw)
  obtain ⟨text, code, right⟩ := r.right.operates draws distinct normal.right noReason.2
    fun w hw => offers w (List.mem_append_right _ hw)
  refine ⟨⟨plain, left.resolves, right.resolves, left.comparable.1, right.comparable.1⟩,
    ⟨alike.plain plain, ?_, text, ?_, ?_⟩, alike.link.symm, ?_⟩
  · rw [alike.left]
    exact left.renders
  · rw [alike.right]
    exact code
  · rw [alike.right]
    exact right.renders
  · rw [alike.comesTo]
    exact comesTo_congr left.comparable right.comparable

end Rule

namespace Filter

structure Decides (m : Machine (Fields Value)) (code : Live String) (decision : Live Bool) :
    Prop where
  decides : ∃ (c : Code .operand) (b : Bool), c.WellNamed ∧ Answers code (.ok c.text) ∧
    Answers decision (.ok b) ∧ ∀ place, Yields m (c.expr place) (.bool b)

theorem decides {f : Filter} {rules : List Rule} (draws : Draws) (distinct : s.vars.keys.Nodup)
    (enabled : f.enabled = true) (nonempty : f.rules ≠ [])
    (alike : List.Forall₂ Rule.Alike f.rules rules)
    (plain : ∀ r ∈ f.rules, r.Normal ∧ r.usesComputed = false ∧ r.hasReasonSide = false ∧
      ∀ w ∈ r.operands, s.Offers w) :
    Decides (s.machine draws).rewound (toKotlin ⟨f.enabled, rules⟩ [] .full) (f.holds s) := by
  have each : List.Forall₂ (Rule.Follows s draws) f.rules rules :=
    ((List.forall₂_and_left _ _).mpr ⟨plain, alike⟩).imp fun r r' h =>
      Rule.follows draws distinct h.2 h.1.1 h.1.2.1 h.1.2.2.1 h.1.2.2.2
  have seen : ∀ r ∈ f.rules, r.SeenAs s s.readings :=
    ((List.forall₂_and_left _ _).mp (each.imp fun r r' h => ⟨h.seen, h⟩)).1
  have written : ∀ r ∈ rules, r.WrittenAs [] .full (s.machine draws).rewound
      (s.readings unsignedZero) :=
    ((List.forall₂_and_left _ _).mp (each.flip.imp fun r r' h => ⟨h.written, h⟩)).1
  have some : rules ≠ [] := by
    rintro rfl
    exact nonempty (List.forall₂_nil_right_iff.mp alike)
  have same : f.comesTo s.readings =
      comesTo (s.readings unsignedZero) ⟨f.enabled, rules⟩ :=
    comesTo_congr (each.imp fun r r' h => h.same)
  obtain ⟨c, named, code, yields⟩ := gates (f := ⟨f.enabled, rules⟩) enabled some written
  refine ⟨c, _, named, ?_, ?_, yields⟩
  · rw [code]
    exact .value
  · rw [holds_seenAs enabled seen, same]
    exact .value

/-- The code of a filter of plain rules is read again from the document of the filter, and evaluates to
the decision of the filter. -/
theorem plain_code_evaluates {raw : Datum} {allowReason : Bool} {f : Filter}
    (given : ofDatum raw allowReason = .ok f) (enabled : f.enabled = true)
    (plain : ∀ r ∈ f.rules, r.usesComputed = false ∧ r.hasReasonSide = false)
    (distinct : s.vars.keys.Nodup) (offers : ∀ r ∈ f.rules, ∀ w ∈ r.operands, s.Offers w)
    (draws : Draws) (limit : Nat) :
    ∃ f' code e b, ofDatum f.toDatum = .ok f' ∧ Answers (f'.toKotlin [] .full) (.ok code) ∧
      parseExpression code = .ok e ∧ Answers (f.holds s) (.ok b) ∧
      (evaluate bindingsHost limit e (s.machine draws)).1 = .ok (.bool b) := by
  have normal := ofDatum_normal given
  obtain ⟨rules, read, alike⟩ := ofDatum_toDatum normal plain
  obtain ⟨c, b, named, code, decision, yields⟩ :=
    (decides draws distinct enabled normal.nonempty alike fun r hr =>
      ⟨normal.rules r hr, (plain r hr).1, (plain r hr).2, offers r hr⟩).decides
  exact ⟨_, c.text, _, b, read, code, Code.parse_text (.single (.plain c)) named, decision,
    (yields 0).evaluated limit⟩

theorem plain_code_evaluates_mixed :
    let s : Sight := ⟨[("age", .int 3), ("hp", .float (-2.5))], [("mana", .int 7)]⟩
    ∃ f f' code e b, ofDatum (.text "age >= 2 || hp < -1.5 && mana != age") = .ok f ∧
      ofDatum f.toDatum = .ok f' ∧ Answers (f'.toKotlin [] .full) (.ok code) ∧
      parseExpression code = .ok e ∧ Answers (f.holds s) (.ok b) ∧
      (evaluate bindingsHost 0 e (s.machine {})).1 = .ok (.bool b) := by
  intro s
  let names := ["age", "hp", "mana"]
  have shape : (ofDatum (.text "age >= 2 || hp < -1.5 && mana != age")).toOption.map (fun f =>
      f.enabled && f.rules.all fun r => !r.usesComputed && !r.hasReasonSide &&
        r.operands.all names.contains) = some true := by decide +kernel
  obtain ⟨f, found, shape⟩ := Option.map_eq_some_iff.mp shape
  have given := ok_of_toOption found
  rw [Bool.and_eq_true, List.all_eq_true] at shape
  obtain ⟨enabled, rules⟩ := shape
  have each (r : Rule) (hr : r ∈ f.rules) :
      (r.usesComputed = false ∧ r.hasReasonSide = false) ∧ ∀ w ∈ r.operands, w ∈ names := by
    have all := rules r hr
    simp only [Bool.and_eq_true, Bool.not_eq_true', List.all_eq_true, List.contains_iff_mem] at all
    exact all
  have age : s.Offers "age" :=
    ⟨by decide, by decide, .int 3, 3.0, .inl ⟨rfl, rfl⟩, rfl, by decide⟩
  have hp : s.Offers "hp" :=
    ⟨by decide, by decide, .float (-2.5), -2.5, .inl ⟨rfl, rfl⟩, rfl, by decide⟩
  have mana : s.Offers "mana" :=
    ⟨by decide, by decide, .int 7, 7.0, .inr ⟨rfl, rfl⟩, rfl, by decide⟩
  have offers : ∀ w ∈ names, s.Offers w := by
    simp only [names, List.forall_mem_cons]
    exact ⟨age, hp, mana, List.forall_mem_nil _⟩
  obtain ⟨f', code, e, b, result⟩ := plain_code_evaluates given enabled
    (fun r hr => (each r hr).1) (by decide) (fun r hr w hw => offers w ((each r hr).2 w hw)) {} 0
  exact ⟨f, f', code, e, b, given, result⟩

end Filter

end Rules

end EmitterLogic
