import EmitterLogic.Proofs.Behavior.SavedCode
import EmitterLogic.Proofs.Number.Rounded
import EmitterLogic.Proofs.Session.Answers

/-!
Which behaviors have code. All that can fail is the rounding of a number to six places: its millionths have
to be a number too. The declared variables and the factors and offsets of a death are rounded so; what
conditions, actions and formulas hold is written by another rule, and always has code.
-/

namespace EmitterLogic

open Binary64 Kotlin

section Numbers

variable {x : Float} {d fallback : Datum}

/-- Are the millionths of a number, which its rounding to six places goes by, a number? -/
def Kotlin.isWritable (x : Float) : Bool := (x * 1000000.0 + 0.5).isFinite

theorem floored_returns (x : Float) : ReturnsIf (x.isFinite = true) (floored x) := by
  rw [floored]
  cases parts : parts? x with
  | some p => exact iff_of_true ⟨p.floor, rfl⟩ (isFinite_of_parts parts)
  | none =>
    refine iff_of_false ?_ fun finite => ?_
    · rintro ⟨n, ⟨⟩⟩
    · obtain ⟨p, found⟩ := isFinite_iff_parts.mp finite
      rw [parts] at found
      cases found

theorem decimal_returns (read : d.finite? = .ok (some x)) :
    ReturnsIf (isWritable x = true) (decimal d) := by
  rw [decimal, bind_of_ok read]
  exact (floored_returns _).before fun _ => ⟨_, rfl⟩

theorem literalOf_ok {ds : List Datum} (read : ∀ d ∈ ds, ∃ x?, d.finite? = .ok x?) :
    ∃ text, literalOf ds = .ok text := by
  induction ds with
  | nil => exact ⟨"0", rfl⟩
  | cons d rest ih =>
    rw [List.forall_mem_cons] at read
    obtain ⟨x?, found⟩ := read.1
    rw [literalOf, bind_of_ok found]
    cases x? with
    | none => exact ih read.2
    | some x =>
      have finite := finite?_isFinite found
      cases whole : isWhole x with
      | true =>
        have part := truncated_eq finite
        simp only [whole, if_true]
        rw [bind_of_ok part]
        exact ⟨_, rfl⟩
      | false =>
        obtain ⟨p, text, _, written, _⟩ := decimal_spelled finite whole
        simp only [whole, Bool.false_eq_true, if_false]
        exact ⟨text, written⟩

theorem literal_ok (read : ∃ x?, d.finite? = .ok x?) : ∃ text, NumberStyle.literal.write d = .ok text := by
  have both : ∀ e ∈ [d, .int 0], ∃ x?, e.finite? = .ok x? := by
    rw [List.forall_mem_cons, List.forall_mem_singleton]
    exact ⟨read, some 0.0, rfl⟩
  exact literalOf_ok both

theorem literal_float_ok (x : Float) : ∃ text, NumberStyle.literal.write (.float x) = .ok text :=
  literal_ok ⟨finiteOnly x, rfl⟩

theorem literal_zero_ok : ∃ text, NumberStyle.literal.write (.int 0) = .ok text :=
  literal_ok ⟨some 0.0, rfl⟩

theorem integerOrVariable_ok (fallback : Datum) (read : ∃ x?, d.finite? = .ok x?)
    (some : ∃ x, fallback.finiteOrZero = .ok x) : ∃ text, integerOrVariable d fallback = .ok text := by
  obtain ⟨x?, found⟩ := read
  rw [integerOrVariable, bind_of_ok found]
  cases x? with
  | some x =>
    have part := truncated_eq (finite?_isFinite found)
    dsimp only
    rw [bind_of_ok part]
    exact ⟨_, rfl⟩
  | none =>
    obtain ⟨y, value⟩ := some
    have part := truncated_eq (finiteOrZero_isFinite value)
    dsimp only
    split
    · exact ⟨_, rfl⟩
    · rw [bind_of_ok value, bind_of_ok part]
      exact ⟨_, rfl⟩

/-- The numbers of a value that are rounded to six places. -/
def Datum.decimals (d : Datum) : List Float := d.finite?.toOption.join.toList

theorem decimalOrVariable_returns (read : ∃ x?, d.finite? = .ok x?) {y : Float}
    (value : fallback.finite? = .ok (some y)) (writable : isWritable y = true) :
    ReturnsIf (∀ x ∈ d.decimals, isWritable x = true) (decimalOrVariable d fallback) := by
  obtain ⟨x?, found⟩ := read
  rw [decimalOrVariable, bind_of_ok found, Datum.decimals, found]
  cases x? with
  | some x =>
    have again := finite?_float (finite?_isFinite found)
    refine (decimal_returns again).congr ?_
    exact (List.forall_mem_singleton (p := fun x => isWritable x = true)).symm
  | none =>
    refine (ReturnsIf.of_ok ?_).congr (iff_of_true trivial (List.forall_mem_nil _))
    dsimp only
    split
    · exact ⟨_, rfl⟩
    · exact (decimal_returns value).mpr writable

end Numbers

section Texts

variable (map : NameMap)

theorem nameText_ok (name : String) :
    ∃ text, Formula.nameText map .literal name = .ok text := by
  rw [Formula.nameText]
  split
  · exact ⟨_, rfl⟩
  · split
    · exact ⟨_, rfl⟩
    · exact literal_zero_ok

theorem writeFrom_ok (program : List Formula.Instr) (stack : List String) :
    ∃ texts?, Formula.writeFrom map .literal program stack = .ok texts? := by
  induction program generalizing stack with
  | nil => exact ⟨some stack, rfl⟩
  | cons i rest ih =>
    cases i with
    | number x =>
      obtain ⟨text, written⟩ := literal_float_ok x
      rw [Formula.writeFrom, bind_of_ok written]
      exact ih (text :: stack)
    | name w =>
      obtain ⟨text, written⟩ := nameText_ok map w
      rw [Formula.writeFrom, bind_of_ok written]
      exact ih (text :: stack)
    | op o =>
      rw [Formula.writeFrom]
      split
      · exact ih _
      · exact ⟨none, rfl⟩

theorem formula_toKotlin_ok (f : Formula) : ∃ text, f.toKotlin map .literal = .ok text := by
  obtain ⟨texts?, written⟩ := writeFrom_ok map f.program []
  rw [Formula.toKotlin, bind_of_ok written]
  split
  · exact ⟨_, rfl⟩
  · exact literal_zero_ok

theorem textToKotlin_ok (text : String) :
    ∃ code, Formula.textToKotlin map .literal text = .ok code := by
  rw [Formula.textToKotlin]
  split
  · exact literal_float_ok _
  · split
    · exact nameText_ok map text
    · exact literal_zero_ok

theorem term_ok (t : Term) : ∃ text, Kotlin.term map .literal t = .ok text := by
  cases t with
  | number x => exact literal_float_ok x
  | named w => exact ⟨_, rfl⟩
  | builtin b => exact ⟨_, rfl⟩

theorem Action.toKotlin_ok (a : Action) : ∃ text, a.toKotlin map .literal = .ok text := by
  obtain ⟨value, written⟩ := term_ok map a.value
  rw [Action.toKotlin]
  split
  · exact ⟨_, rfl⟩
  · split
    · exact ⟨_, rfl⟩
    · exact ⟨_, rfl⟩
    · rw [bind_of_ok written]
      exact ⟨_, rfl⟩

end Texts

namespace Session

variable (map : NameMap)

theorem formulaToKotlin_returns (text : String) : Returns (formulaToKotlin map .literal text) := by
  simp only [formulaToKotlin]
  split
  · exact .lift literal_zero_ok
  · refine .bind (fun σ => ⟨_, rfl⟩) fun f? => ?_
    cases f? with
    | none => exact .lift (textToKotlin_ok map _)
    | some f =>
      dsimp only
      split
      · exact .lift (textToKotlin_ok map _)
      · exact .lift (formula_toKotlin_ok map f)

theorem predicateError?_returns (text : String) : Returns (predicateError? text) := by
  simp only [predicateError?]
  split
  · exact .value _
  · split
    · exact .value _
    · refine .bind (fun σ => ⟨_, rfl⟩) fun p? => ?_
      cases p? with
      | some p => exact .value _
      | none =>
        dsimp only
        split
        · exact .value _
        · exact .value _

theorem predicateToKotlin_returns (text : String) : Returns (predicateToKotlin map text) := by
  simp only [predicateToKotlin]
  split
  · exact .value _
  · refine (predicateError?_returns _).bind fun e? => ?_
    cases e? with
    | none => exact .value _
    | some e => exact .value _

end Session

section Conditions

open Session

variable (map : NameMap)

theorem pairToKotlin_returns (left : String) (op : ArithOp) (right : String) :
    Returns (pairToKotlin map .literal left op right) :=
  (formulaToKotlin_returns map left).bind fun _ =>
    (formulaToKotlin_returns map right).bind fun _ => .value _

theorem Rule.computedToKotlin_returns (r : Rule) : Returns (r.computedToKotlin map .literal) := by
  simp only [computedToKotlin]
  split
  · exact (predicateToKotlin_returns map _).bind fun _ => .value _
  · refine (pairToKotlin_returns map _ _ _).bind fun _ => ?_
    split
    · exact (pairToKotlin_returns map _ _ _).bind fun _ => .value _
    · exact (formulaToKotlin_returns map _).bind fun _ => .value _

theorem RightSide.toKotlin_ok (side : RightSide) : ∃ text, side.toKotlin map .literal = .ok text := by
  cases side with
  | number x => exact literal_float_ok x
  | named w => exact ⟨_, rfl⟩
  | builtin b => exact ⟨_, rfl⟩
  | reason r => exact ⟨_, rfl⟩

theorem Rule.toKotlin_returns (r : Rule) : Returns (r.toKotlin map .literal) := by
  rw [toKotlin]
  split
  · exact r.computedToKotlin_returns map
  · exact (Returns.lift (r.right.toKotlin_ok map)).bind fun _ => .value _

theorem Filter.toKotlinFrom_returns (done : String) (rules : List Rule) :
    Returns (toKotlinFrom map .literal done rules) := by
  induction rules generalizing done with
  | nil => exact .value done
  | cons r rest ih => exact (r.toKotlin_returns map).bind fun _ => ih _

theorem Filter.toKotlin_returns (f : Filter) : Returns (f.toKotlin map .literal) := by
  rw [toKotlin]
  split
  · exact .value _
  · split
    · exact .value _
    · next r rest _ => exact (r.toKotlin_returns map).bind fun _ => toKotlinFrom_returns map _ rest

theorem TickAction.toKotlin_returns (indent : String) (t : TickAction) :
    Returns (t.toKotlin indent) := by
  refine (Returns.lift (t.action.toKotlin_ok valueMap)).bind fun statement => ?_
  split
  · exact .value _
  · exact (t.condition.toKotlin_returns conditionMap).bind fun _ => .value _

theorem Kotlin.tick_returns (indent script : String) (actions : List TickAction) (hasBounds : Bool) :
    Returns (tick indent script actions hasBounds) := by
  simp only [tick]
  split
  · exact (Returns.mapM fun t _ => t.toKotlin_returns indent).bind fun _ => .value _
  · exact .value _

end Conditions

namespace Variable

variable {v : Variable} {vs : List Variable} {x : Float}

def Writes (v : Variable) (x : Float) : Prop := v.isInt = false → isWritable x = true

theorem numberToKotlin_returns (finite : x.isFinite = true) :
    ReturnsIf (v.Writes x) (v.numberToKotlin x) := by
  have read := finite?_float finite
  rw [numberToKotlin, typed, bind_of_ok read, Writes]
  cases v.isInt with
  | true =>
    have part := truncated_eq finite
    refine (ReturnsIf.of_ok ?_).congr (iff_of_true trivial fun h => absurd h (by decide))
    simp only [if_true]
    rw [bind_of_ok part]
    exact ⟨_, rfl⟩
  | false => exact (decimal_returns read).congr ⟨fun writable _ => writable, fun h => h rfl⟩

theorem toKotlin_returns (sound : v.Sound) :
    ReturnsIf (v.hasCode = true → v.Writes v.initial) v.toKotlin := by
  rw [toKotlin]
  cases v.hasCode with
  | false =>
    exact (ReturnsIf.of_ok ⟨_, rfl⟩).congr (iff_of_true trivial fun h => absurd h (by decide))
  | true =>
    refine ReturnsIf.congr ?_ (forall_prop_of_true rfl).symm
    exact (numberToKotlin_returns sound.initial).before fun _ => ⟨_, rfl⟩

theorem boundToKotlin_returns (sound : v.Sound) : ReturnsIf
    (v.hasCode = true → v.isBounded = true → v.Writes v.minValue ∧ v.Writes v.maxValue)
    v.boundToKotlin := by
  rw [boundToKotlin]
  cases v.hasCode with
  | false =>
    exact (ReturnsIf.of_ok ⟨_, rfl⟩).congr (iff_of_true trivial fun h => absurd h (by decide))
  | true =>
    refine ReturnsIf.congr ?_ (forall_prop_of_true rfl).symm
    cases v.isBounded with
    | false =>
      exact (ReturnsIf.of_ok ⟨_, rfl⟩).congr (iff_of_true trivial fun h => absurd h (by decide))
    | true =>
      refine ReturnsIf.congr ?_ (forall_prop_of_true rfl).symm
      exact (numberToKotlin_returns sound.least).bind fun _ _ =>
        (numberToKotlin_returns sound.greatest).before fun _ => ⟨_, rfl⟩

theorem listToKotlin_returns (sound : ∀ v ∈ vs, v.Sound) :
    ReturnsIf (∀ v ∈ vs, v.hasCode = true → v.Writes v.initial) (listToKotlin vs) :=
  (ReturnsIf.mapM fun v hv => toKotlin_returns (sound v hv)).before fun _ => ⟨_, rfl⟩

theorem boundsToKotlin_returns (sound : ∀ v ∈ vs, v.Sound) : ReturnsIf
    (∀ v ∈ vs, v.hasCode = true → v.isBounded = true → v.Writes v.minValue ∧ v.Writes v.maxValue)
    (boundsToKotlin vs) :=
  (ReturnsIf.mapM fun v hv => boundToKotlin_returns (sound v hv)).before fun _ => ⟨_, rfl⟩

/-- The numbers of a variable that are rounded to six places. -/
def decimals (v : Variable) : List Float :=
  if v.isInt || !v.hasCode then []
  else v.initial :: if v.isBounded then [v.minValue, v.maxValue] else []

theorem decimals_writable (v : Variable) : (∀ x ∈ v.decimals, isWritable x = true) ↔
    (v.hasCode = true → v.Writes v.initial) ∧
      (v.hasCode = true → v.isBounded = true → v.Writes v.minValue ∧ v.Writes v.maxValue) := by
  simp only [decimals, Writes]
  cases v.isInt <;> cases v.hasCode <;> cases v.isBounded <;> simp

end Variable

namespace Amount

variable {b : Bounds} {a : Amount}

theorem Settled.finite? (settled : a.Settled b) : ∃ x?, a.toDatum.finite? = .ok x? := by
  cases a with
  | number n =>
    obtain ⟨x, value, finite, _⟩ := settled
    exact ⟨some x, finite?_number value finite⟩
  | named w => exact ⟨_, rfl⟩

end Amount

theorem Triple.forall_toList {α : Type} {t : Triple α} {p : α → Prop} :
    (∀ a ∈ t.toList, p a) ↔ p t.x ∧ p t.y ∧ p t.z := by simp [toList]

namespace Death

variable {d : Death}

/-- The numbers of a death that are rounded to six places, of one that spawns particles. -/
def decimals (d : Death) : List Float :=
  if d.enabled && d.respawns then
    (d.sizeFactor :: d.speedFactor :: d.offset.toList).flatMap fun a => a.toDatum.decimals
  else []

theorem maxAge_ok {m : MaxAge} (settled : m.Settled) :
    ∃ text, Kotlin.maxAge (.text m.kind) m.value = .ok text := by
  cases m with
  | named w => exact ⟨_, rfl⟩
  | builtin b => cases b <;> exact ⟨_, rfl⟩
  | amount a =>
    have read : ∃ x?, a.toDatum.finite? = .ok x? := by
      rcases settled with kept | rfl
      · exact kept.finite?
      · exact ⟨some 1.0, rfl⟩
    exact integerOrVariable_ok (.int 1) read ⟨1.0, by rfl⟩

theorem particleToKotlin_returns (settled : d.Settled) : ReturnsIf
    ((∀ x ∈ d.sizeFactor.toDatum.decimals, isWritable x = true) ∧
      ∀ x ∈ d.speedFactor.toDatum.decimals, isWritable x = true) d.particleToKotlin := by
  have one : (Datum.float 1.0).finite? = .ok (some 1.0) := finite?_float one_isFinite
  have writable : isWritable 1.0 = true := by decide
  obtain ⟨sign, writtenSign⟩ := integerOrVariable_ok (.int 0) settled.sign.finite? ⟨0.0, rfl⟩
  obtain ⟨age, writtenAge⟩ := maxAge_ok settled.maxAge
  refine (decimalOrVariable_returns settled.sizeFactor.finite? one writable).bind fun _ _ =>
    (decimalOrVariable_returns settled.speedFactor.finite? one writable).before fun _ => ?_
  rw [writtenSign, writtenAge]
  cases d.setsSign <;> cases d.setsMaxAge <;> exact ⟨_, rfl⟩

theorem offset_returns {t : Triple Amount} (settled : ∀ a ∈ t.toList, a.Settled {}) :
    ReturnsIf (∀ a ∈ t.toList, ∀ x ∈ a.toDatum.decimals, isWritable x = true)
      (t.mapM fun a => decimalOrVariable a.toDatum (.int 0)) := by
  have zero : (Datum.int 0).finite? = .ok (some 0.0) := rfl
  have writable : isWritable 0.0 = true := by decide
  rw [Triple.forall_toList] at settled ⊢
  obtain ⟨x, y, z⟩ := settled
  refine (decimalOrVariable_returns x.finite? zero writable).bind fun _ _ => ?_
  refine (decimalOrVariable_returns y.finite? zero writable).bind fun _ _ => ?_
  exact (decimalOrVariable_returns z.finite? zero writable).before fun _ => ⟨_, rfl⟩

theorem spawnToKotlin_returns (settled : d.Settled) (indent : String) :
    ReturnsIf (∀ a ∈ d.sizeFactor :: d.speedFactor :: d.offset.toList,
      ∀ x ∈ a.toDatum.decimals, isWritable x = true) (d.spawnToKotlin indent) := by
  rw [List.forall_mem_cons, List.forall_mem_cons, ← and_assoc]
  refine .after (integerOrVariable_ok (.int 0) settled.count.finite? ⟨0.0, rfl⟩) fun _ _ => ?_
  exact (particleToKotlin_returns settled).bind fun _ _ =>
    (offset_returns settled.offset).before fun _ => ⟨_, rfl⟩

theorem bodyToKotlin_returns (settled : d.Settled) (indent : String) (hasBounds : Bool) :
    Session.ReturnsIf (d.respawns = true → ∀ a ∈ d.sizeFactor :: d.speedFactor :: d.offset.toList,
      ∀ x ∈ a.toDatum.decimals, isWritable x = true) (d.bodyToKotlin indent hasBounds) := by
  refine (d.condition.toKotlin_returns conditionMap).after fun _ => ?_
  refine (Session.Returns.mapM fun a _ => .lift (a.toKotlin_ok valueMap)).after fun _ => ?_
  cases d.respawns with
  | false => exact (Session.Returns.value _).iff.congr (iff_of_true trivial fun h => absurd h (by decide))
  | true =>
    refine Session.ReturnsIf.congr ?_ (forall_prop_of_true rfl).symm
    exact (Session.ReturnsIf.lift (spawnToKotlin_returns settled indent)).before fun _ => .value _

theorem toKotlin_returns (settled : d.Settled) (indent : String) (hasBounds : Bool) :
    Session.ReturnsIf (∀ x ∈ d.decimals, isWritable x = true) (d.toKotlin indent hasBounds) := by
  have body := bodyToKotlin_returns settled indent hasBounds
  rw [toKotlin, decimals]
  cases d.enabled with
  | false => exact (Session.Returns.value _).iff.congr (iff_of_true trivial (List.forall_mem_nil _))
  | true =>
    refine (body.before fun _ => .value _).congr ?_
    cases d.respawns with
    | false => exact iff_of_true (fun h => absurd h (by decide)) (List.forall_mem_nil _)
    | true =>
      rw [Bool.and_self, if_pos rfl, List.forall_mem_flatMap]
      exact forall_prop_of_true rfl

end Death

namespace Behavior

variable {raw : Datum} {b : Behavior}

/-- The numbers of a behavior that are rounded to six places. -/
def decimals (b : Behavior) : List Float := b.vars.flatMap Variable.decimals ++ b.death.decimals

theorem toKotlin_returns (settled : b.Settled) :
    Session.ReturnsIf (∀ x ∈ b.decimals, isWritable x = true) b.toKotlin := by
  have sound : ∀ v ∈ b.vars, v.Sound := fun v hv => (settled.vars v hv).sound
  have numbers : (∀ x ∈ b.decimals, isWritable x = true) ↔
      (∀ v ∈ b.vars, v.hasCode = true → v.Writes v.initial) ∧
        (∀ v ∈ b.vars, v.hasCode = true → v.isBounded = true →
          v.Writes v.minValue ∧ v.Writes v.maxValue) ∧
          ∀ x ∈ b.death.decimals, isWritable x = true := by
    rw [decimals, List.forall_mem_append, List.forall_mem_flatMap, ← and_assoc, ← forall₂_and]
    simp only [Variable.decimals_writable]
  refine Session.ReturnsIf.congr ?_ numbers.symm
  refine Session.Returns.after (fun σ => ⟨_, rfl⟩) fun σ => ?_
  refine (Session.ReturnsIf.lift (Variable.listToKotlin_returns sound)).bind fun _ => ?_
  refine (Session.ReturnsIf.lift (Variable.boundsToKotlin_returns sound)).bind fun _ => ?_
  refine (Kotlin.tick_returns _ _ _ _).after fun _ => ?_
  exact (Death.toKotlin_returns settled.death _ _).before fun _ => .value _

/-- A document has code, in whatever session, exactly if each number that is rounded to six places has
millionths within the range of numbers. -/
theorem documentToKotlin_returns_iff (given : ofDatum raw = .ok b) (σ : Session) :
    (∃ text, (documentToKotlin raw σ).1 = .ok text) ↔ ∀ x ∈ b.decimals, isWritable x = true := by
  rw [documentToKotlin_ok given]
  exact toKotlin_returns (ofDatum_settled given) σ

theorem documentToKotlin_returns_hp :
    let raw : Datum := .object [("emitterVars", .list [
      .object [("name", .text "hp"), ("defaultValue", .float 1.5)],
      .object [("name", .text "n"), ("type", .text "int"), ("maxEnabled", .bool true),
        ("maxValue", .float 1e303)]])]
    ∃ b, ofDatum raw = .ok b ∧ ∃ text, (documentToKotlin raw (Session.start {} {})).1 = .ok text := by
  intro raw
  have read : (ofDatum raw).toOption.any (fun b => b.decimals.all isWritable) = true := by
    decide +kernel
  obtain ⟨b, found, writable⟩ := (Option.any_eq_true _ _).mp read
  have given := ok_of_toOption found
  exact ⟨b, given,
    (documentToKotlin_returns_iff given (Session.start {} {})).mpr (List.all_eq_true.mp writable)⟩

/-- A finite default whose millionths are beyond the range has no code. -/
theorem documentToKotlin_stuck :
    let raw : Datum := .object [("emitterVars",
      .list [.object [("name", .text "a"), ("defaultValue", .float 1e303)]])]
    ∃ b, ofDatum raw = .ok b ∧ ∀ σ, ¬∃ text, (documentToKotlin raw σ).1 = .ok text := by
  intro raw
  have read : (ofDatum raw).toOption.any (fun b => !b.decimals.all isWritable) = true := by
    decide +kernel
  obtain ⟨b, found, beyond⟩ := (Option.any_eq_true _ _).mp read
  have given := ok_of_toOption found
  refine ⟨b, given, fun σ returned => ?_⟩
  rw [documentToKotlin_ok given] at returned
  have writable := (toKotlin_returns (ofDatum_settled given) σ).mp returned
  rw [List.all_eq_true.mpr writable] at beyond
  cases beyond

end Behavior

end EmitterLogic
