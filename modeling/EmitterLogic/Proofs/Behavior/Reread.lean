import EmitterLogic.Proofs.Behavior.Settled
import EmitterLogic.Proofs.Datum.Equality
import EmitterLogic.Proofs.Tick.Cleaning
import EmitterLogic.Behavior.Basic

/-!
Behaviors read again. The document of a behavior gives the behavior again but for two things: the
script is cleaned once more, and the default greatest age has become an integer. Only the first of
them shows in the document.
-/

namespace EmitterLogic

namespace Death

variable {d : Death} {raw : Datum}

structure Settled (d : Death) : Prop where
  condition : d.condition.Settled true
  count : d.count.Settled (.least 0)
  offset : ∀ a ∈ d.offset.toList, a.Settled {}
  sizeFactor : d.sizeFactor.Settled {}
  speedFactor : d.speedFactor.Settled {}
  sign : d.sign.Settled { whole := true }
  maxAge : d.maxAge.Settled
  actions : ∀ a ∈ d.actions, a.Settled

theorem float_settled {x : Float} (finite : x.isFinite = true) : (Amount.float x).Settled {} :=
  ⟨x, rfl, finite, rfl⟩

theorem count_settled : Amount.one.Settled (.least 0) :=
  Bounds.least_keeps_float one_isFinite Bounds.wholePart_one ((Bounds.int_lt_one 0).mpr (by decide))

theorem sign_settled : (Amount.float 0.0).Settled { whole := true } := by
  refine ⟨0.0, rfl, zero_isFinite, ?_⟩
  rw [Bounds.clamp_eq rfl, if_pos rfl, Bounds.wholePart_zero]
  rfl

theorem amount_settled {b : Bounds} {value : Datum} {default a : Amount} (hi : b.hi = none)
    (low : ∀ l ∈ b.lo, b.Keeps l) (settled : default.Settled b)
    (h : Amount.ofDatum value default b = .ok a) : a.Settled b := by
  rcases Amount.ofDatum_settled hi low h with kept | rfl
  · exact kept
  · exact settled

theorem plain_settled {value : Datum} {x : Float} {a : Amount} (finite : x.isFinite = true)
    (h : Amount.ofDatum value (.float x) = .ok a) : a.Settled {} :=
  amount_settled rfl (fun l none => by cases none) (float_settled finite) h

theorem offset_settled {value : Datum} {offset : Triple Amount}
    (h : ((⟨"x", "y", "z"⟩ : Triple String).mapM fun key =>
      Amount.ofDatum (value.getD key) (.float 0.0)) = .ok offset) :
    ∀ a ∈ offset.toList, a.Settled {} := by
  obtain ⟨x, hx, h⟩ := bind_ok h
  obtain ⟨y, hy, h⟩ := bind_ok h
  obtain ⟨z, hz, h⟩ := bind_ok h
  cases h
  simp only [Triple.toList, List.forall_mem_cons]
  exact ⟨plain_settled zero_isFinite hx, plain_settled zero_isFinite hy,
    plain_settled zero_isFinite hz, List.forall_mem_nil _⟩

theorem maxAgeOf_settled {isSet : Bool} {m : MaxAge} (h : maxAgeOf raw = .ok (isSet, m)) :
    m.Settled := by
  obtain ⟨given, parts, h⟩ := bind_ok h
  obtain ⟨spelled?, text, h⟩ := bind_ok h
  have own := MaxAge.ofParts_settled parts
  cases spelled? with
  | none =>
    cases on : (raw.getD "maxAgeEnabled").isOn <;>
    · rw [on] at h
      cases h
      exact own
  | some m' =>
    cases on : (raw.getD "maxAgeEnabled").isOn with
    | true =>
      rw [on] at h
      cases h
      exact own
    | false =>
      rw [on] at h
      cases h
      exact MaxAge.ofText?_settled text

theorem create_settled {seed : Fields Datum} {f : Filter} {allowReason : Bool}
    (h : Filter.create seed allowReason = .ok f) : f.Settled allowReason := by
  obtain ⟨rule, _, h⟩ := bind_ok h
  exact Filter.ofDatum_settled h

theorem ofDatum_settled (h : ofDatum raw = .ok d) : d.Settled := by
  rw [ofDatum] at h
  split at h
  · obtain ⟨condition, hc, h⟩ := bind_ok h
    obtain ⟨count, hn, h⟩ := bind_ok h
    obtain ⟨offset, ho, h⟩ := bind_ok h
    obtain ⟨sizeFactor, hz, h⟩ := bind_ok h
    obtain ⟨speedFactor, hv, h⟩ := bind_ok h
    obtain ⟨sign, hs, h⟩ := bind_ok h
    obtain ⟨⟨isSet, maxAge⟩, hm, h⟩ := bind_ok h
    obtain ⟨actions, ha, h⟩ := bind_ok h
    cases h
    exact ⟨Filter.ofSource_settled hc,
      amount_settled rfl Bounds.least_zero_keeps count_settled hn, offset_settled ho,
      plain_settled one_isFinite hz, plain_settled one_isFinite hv,
      amount_settled rfl (fun l none => by cases none) sign_settled hs, maxAgeOf_settled hm,
      Action.listOf_settled ha⟩
  · obtain ⟨condition, hc, h⟩ := bind_ok h
    cases h
    have zero := float_settled zero_isFinite
    have one := float_settled one_isFinite
    refine ⟨create_settled hc, count_settled, ?_, one, one, sign_settled, .inr rfl,
      List.forall_mem_nil _⟩
    simp only [Triple.toList, List.forall_mem_cons]
    exact ⟨zero, zero, zero, List.forall_mem_nil _⟩

theorem offset_stored {t : Triple Amount} {value : Datum} (settled : ∀ a ∈ t.toList, a.Settled {})
    (x : value.getD "x" = t.x.toDatum) (y : value.getD "y" = t.y.toDatum)
    (z : value.getD "z" = t.z.toDatum) :
    ((⟨"x", "y", "z"⟩ : Triple String).mapM fun key =>
      Amount.ofDatum (value.getD key) (.float 0.0)) = .ok t := by
  simp only [Triple.toList, List.forall_mem_cons] at settled
  rw [Triple.mapM, x, y, z, bind_of_ok (Amount.ofDatum_reread settled.1 _),
    bind_of_ok (Amount.ofDatum_reread settled.2.1 _),
    bind_of_ok (Amount.ofDatum_reread settled.2.2.1 _)]
  rfl

theorem maxAgeOf_stored {m : MaxAge} (settled : m.Settled)
    (kind : raw.getD "maxAgeValueType" = .text m.kind) (value : raw.getD "maxAgeValue" = m.value)
    (expr : raw.getD "maxAgeExpr" = .null) :
    ∃ m', maxAgeOf raw = .ok ((raw.getD "maxAgeEnabled").isOn, m') ∧ m.ReadAs m' := by
  obtain ⟨m', read, same⟩ := MaxAge.ofParts_reread settled
  have none : MaxAge.ofText? (Datum.null).textOrEmpty = .ok none := rfl
  refine ⟨m', ?_, same⟩
  rw [maxAgeOf, kind, value, expr, bind_of_ok read, bind_of_ok none]
  cases (raw.getD "maxAgeEnabled").isOn <;> rfl

theorem ofDatum_reread (settled : d.Settled) :
    ∃ m, ofDatum d.toDatum = .ok { d with maxAge := m } ∧ d.maxAge.ReadAs m := by
  have condition : Filter.ofSource (d.toDatum.getD "condition") true = .ok d.condition :=
    Filter.ofDatum_reread settled.condition
  have count : Amount.ofDatum (d.toDatum.getD "respawnCount") .one
      { whole := true, lo := some (.int 0) } = .ok d.count :=
    Amount.ofDatum_reread settled.count .one
  have offset : ((⟨"x", "y", "z"⟩ : Triple String).mapM fun key =>
      Amount.ofDatum ((d.toDatum.getD "offset").getD key) (.float 0.0)) = .ok d.offset :=
    offset_stored settled.offset rfl rfl rfl
  have sizeFactor : Amount.ofDatum (d.toDatum.getD "sizeMul") .one = .ok d.sizeFactor :=
    Amount.ofDatum_reread settled.sizeFactor .one
  have speedFactor : Amount.ofDatum (d.toDatum.getD "speedMul") .one = .ok d.speedFactor :=
    Amount.ofDatum_reread settled.speedFactor .one
  have sign : Amount.ofDatum (d.toDatum.getD "signValue") (.float 0.0) { whole := true } =
      .ok d.sign := Amount.ofDatum_reread settled.sign (.float 0.0)
  obtain ⟨m, maxAge, same⟩ : ∃ m, maxAgeOf d.toDatum =
      .ok ((d.toDatum.getD "maxAgeEnabled").isOn, m) ∧ d.maxAge.ReadAs m :=
    maxAgeOf_stored settled.maxAge rfl rfl rfl
  have actions : Action.listOf (d.toDatum.getD "varActions") = .ok d.actions :=
    Action.listOf_reread settled.actions
  refine ⟨m, ?_, same⟩
  have respawns : isText (d.toDatum.getD "mode") "respawn" = d.respawns := by
    change isText (.text (if d.respawns then "respawn" else "dissipate")) "respawn" = d.respawns
    cases d.respawns <;> decide
  have setsSign : isText (d.toDatum.getD "signMode") "set" = d.setsSign := by
    change isText (.text (if d.setsSign then "set" else "keep")) "set" = d.setsSign
    cases d.setsSign <;> decide
  have object : d.toDatum.isObject = true := rfl
  rw [ofDatum, if_pos object, ofObject, bind_of_ok condition, bind_of_ok count, bind_of_ok offset,
    bind_of_ok sizeFactor, bind_of_ok speedFactor, bind_of_ok sign, bind_of_ok maxAge]
  dsimp only
  rw [bind_of_ok actions, respawns, setsSign]
  rfl

end Death

namespace Behavior

open Tick

variable {b : Behavior} {raw : Datum}

structure Settled (b : Behavior) : Prop where
  vars : ∀ v ∈ b.vars, v.Settled
  script : IsClean b.script
  tickActions : ∀ t ∈ b.tickActions, t.Settled
  death : b.death.Settled

theorem variablesOf_settled {vs : List Variable} (h : variablesOf raw = .ok vs) :
    ∀ v ∈ vs, v.Settled := by
  rw [variablesOf.eq_def] at h
  split at h
  · exact forall_of_mapM_ok (fun _ _ => Variable.ofDatum_settled) h
  · cases h
    exact List.forall_mem_nil _

theorem ofDatum_settled (h : ofDatum raw = .ok b) : b.Settled := by
  rw [ofDatum] at h
  split at h
  · obtain ⟨vars, hv, h⟩ := bind_ok h
    obtain ⟨tickActions, ht, h⟩ := bind_ok h
    obtain ⟨death, hd, h⟩ := bind_ok h
    cases h
    exact ⟨variablesOf_settled hv, isClean_cleanSource _, TickAction.listOf_settled ht,
      Death.ofDatum_settled hd⟩
  · obtain ⟨death, hd, h⟩ := bind_ok h
    cases h
    exact ⟨List.forall_mem_nil _, rfl, List.forall_mem_nil _, Death.ofDatum_settled hd⟩

theorem ofDatum_reread (settled : b.Settled) :
    ∃ m, ofDatum b.toDatum =
        .ok { b with script := cleanSource b.script, death := { b.death with maxAge := m } } ∧
      b.death.maxAge.ReadAs m := by
  have vars : variablesOf (b.toDatum.getD "emitterVars") = .ok b.vars :=
    mapM_map_ok fun v mem => Variable.ofDatum_reread (settled.vars v mem)
  have tickActions : TickAction.listOf (b.toDatum.getD "tickActions") = .ok b.tickActions :=
    TickAction.listOf_reread settled.tickActions
  obtain ⟨m, death, same⟩ := Death.ofDatum_reread settled.death
  have death : Death.ofDatum (b.toDatum.getD "death") = .ok { b.death with maxAge := m } := death
  have script : scriptOf b.toDatum = cleanSource b.script :=
    congrArg cleanSource (Datum.textOrEmpty_text b.script)
  have object : b.toDatum.isObject = true := rfl
  refine ⟨m, ?_, same⟩
  rw [ofDatum, if_pos object, bind_of_ok vars, bind_of_ok tickActions, bind_of_ok death, script]
  rfl

end Behavior

section Comparable

open Datum

theorem Bounds.Keeps.comparable {b : Bounds} {n : Number} (keeps : b.Keeps n) :
    (Datum.number n).Comparable := by
  cases n with
  | int n => exact .int n
  | float x =>
    obtain ⟨y, value, finite, _⟩ := keeps
    cases value
    exact .float finite

theorem Amount.Settled.comparable {b : Bounds} {a : Amount} (settled : a.Settled b) :
    a.toDatum.Comparable := by
  cases a with
  | number n => exact Bounds.Keeps.comparable settled
  | named w => exact .text w

theorem MaxAge.Settled.comparable {m : MaxAge} (settled : m.Settled) : m.value.Comparable := by
  cases m with
  | amount a =>
    rcases settled with kept | rfl
    · exact kept.comparable
    · exact .float one_isFinite
  | named w => exact .text w
  | builtin b => exact .float zero_isFinite

theorem Term.Normal.comparable {t : Term} (normal : t.Normal) : t.value.Comparable := by
  cases t with
  | number x => exact .float (normal.number x rfl)
  | named w => exact .text w
  | builtin b => exact .int 0

theorem Variable.Settled.comparable {v : Variable} (settled : v.Settled) :
    v.toDatum.Comparable := by
  have distinct : ["id", "name", "type", "defaultValue", "minEnabled", "minValue", "maxEnabled",
    "maxValue"].Nodup := by decide
  refine .object distinct ?_
  simp only [Variable.declaration, List.forall_mem_cons]
  exact ⟨.text _, .text _, .text _, .float settled.sound.initial, .bool _,
    .float settled.sound.least, .bool _, .float settled.sound.greatest, List.forall_mem_nil _⟩

theorem RightSide.Normal.comparable {side : RightSide} (normal : side.Normal) :
    side.value.Comparable := by
  cases side with
  | number x => exact .float (normal.number x rfl)
  | named w => exact .text w
  | builtin b => exact .float zero_isFinite
  | reason why => exact .text _

theorem Rule.termEntries_comparable {t : Term} (key : String) (normal : t.Normal) :
    ∀ f ∈ termEntries key t, f.2.Comparable := by
  simp only [termEntries, List.forall_mem_cons]
  exact ⟨.text _, normal.comparable, List.forall_mem_nil _⟩

theorem Rule.Settled.comparable {allowReason : Bool} {r : Rule} (settled : r.Settled allowReason) :
    r.toDatum.Comparable := by
  have distinct : ["id", "link", "left", "leftVar", "op", "right", "rightValue", "calcValueMode",
    "calcMathOp", "calcExpectMathOp", "calcResultMode", "calcResultCmp", "calcLeft" ++ "TermType",
    "calcLeft" ++ "TermValue", "calcRight" ++ "TermType", "calcRight" ++ "TermValue",
    "calcFixed" ++ "TermType", "calcFixed" ++ "TermValue", "calcExpectLeft" ++ "TermType",
    "calcExpectLeft" ++ "TermValue", "calcExpectRight" ++ "TermType",
    "calcExpectRight" ++ "TermValue", "calcLeftExpr", "calcRightExpr", "calcExpectExpr",
    "calcExpectLeftExpr", "calcExpectRightExpr", "calcBooleanExpr"].Nodup := by simp
  have term {t : Term} {s key : String} (mem : (t, s) ∈ r.computed.parts) :
      ∀ f ∈ Rule.termEntries key t, f.2.Comparable :=
    Rule.termEntries_comparable key (settled.computed.normal (t, s) mem)
  obtain ⟨m₁, m₂, m₃, m₄, m₅⟩ := r.computed.mem_parts
  refine .object distinct ?_
  simp only [List.forall_mem_append]
  refine ⟨⟨⟨⟨⟨⟨?_, term m₁⟩, term m₂⟩, term m₃⟩, term m₄⟩, term m₅⟩, ?_⟩
  · simp only [List.forall_mem_cons]
    exact ⟨.text _, .text _, .text _, .text _, .text _, .text _, settled.sides.right.comparable,
      .text _, .text _, .text _, .text _, .text _, List.forall_mem_nil _⟩
  · simp only [List.forall_mem_cons]
    exact ⟨.text _, .text _, .text _, .text _, .text _, .text _, List.forall_mem_nil _⟩

theorem Filter.Settled.comparable {allowReason : Bool} {f : Filter}
    (settled : f.Settled allowReason) : f.toDatum.Comparable := by
  have distinct : ["enabled", "rules"].Nodup := by decide
  have rules : ∀ d ∈ f.rules.map Rule.toDatum, d.Comparable :=
    List.forall_mem_map.mpr fun r mem => (settled.rules r mem).comparable
  refine .object distinct ?_
  simp only [List.forall_mem_cons]
  exact ⟨.bool _, .list rules, List.forall_mem_nil _⟩

theorem Action.Settled.comparable_fields {a : Action} (settled : a.Settled) :
    ∀ f ∈ a.fields, f.2.Comparable := by
  simp only [Action.fields, List.forall_mem_cons]
  exact ⟨.text _, .text _, .text _, .text _, settled.value.comparable, List.forall_mem_nil _⟩

theorem Action.Settled.comparable {a : Action} (settled : a.Settled) : a.toDatum.Comparable := by
  have distinct : ["id", "varName", "op", "valueType", "value"].Nodup := by decide
  exact .object distinct settled.comparable_fields

theorem TickAction.Settled.comparable {t : TickAction} (settled : t.Settled) :
    t.toDatum.Comparable := by
  have distinct : ["id", "varName", "op", "valueType", "value", "condition"].Nodup := by decide
  refine .object distinct ?_
  rw [List.forall_mem_append, List.forall_mem_singleton]
  exact ⟨settled.action.comparable_fields, settled.condition.comparable⟩

namespace Death

variable {d : Death}

theorem Settled.comparable_offset (settled : d.Settled) : (Datum.object [
    ("x", d.offset.x.toDatum), ("y", d.offset.y.toDatum),
    ("z", d.offset.z.toDatum)]).Comparable := by
  have distinct : ["x", "y", "z"].Nodup := by decide
  have offset := settled.offset
  simp only [Triple.toList, List.forall_mem_cons] at offset
  refine .object distinct ?_
  simp only [List.forall_mem_cons]
  exact ⟨offset.1.comparable, offset.2.1.comparable, offset.2.2.1.comparable, List.forall_mem_nil _⟩

theorem Settled.comparable_actions (settled : d.Settled) :
    (Datum.list (d.actions.map Action.toDatum)).Comparable :=
  .list (List.forall_mem_map.mpr fun a mem => (settled.actions a mem).comparable)

theorem same_readAs {m : MaxAge} (settled : d.Settled) (read : d.maxAge.ReadAs m) :
    (toDatum { d with maxAge := m }).same d.toDatum = true := by
  have distinct : ["enabled", "mode", "condition", "respawnCount", "offset", "sizeMul", "speedMul",
    "signMode", "signValue", "maxAgeEnabled", "maxAgeValueType", "maxAgeValue",
    "varActions"].Nodup := by decide
  have written : m.kind = d.maxAge.kind ∧ m.value.same d.maxAge.value = true := by
    rcases read with rfl | ⟨one, rfl⟩
    · exact ⟨rfl, settled.maxAge.comparable.same_self⟩
    · rw [one]
      exact ⟨rfl, by decide⟩
  have text {s t : String} (h : s = t) : (Datum.text s).same (.text t) = true := beq_iff_eq.mpr h
  have bool (b : Bool) : (Datum.bool b).same (.bool b) = true := (Comparable.bool b).same_self
  refine (same_object_iff ?_ ?_).mpr ?_
  · rfl
  · exact distinct
  simp only [List.forall₂_cons]
  exact ⟨bool _, text rfl, settled.condition.comparable.same_self,
    settled.count.comparable.same_self, settled.comparable_offset.same_self,
    settled.sizeFactor.comparable.same_self, settled.speedFactor.comparable.same_self, text rfl,
    settled.sign.comparable.same_self, bool _, text written.1, written.2,
    settled.comparable_actions.same_self, .nil⟩

end Death

namespace Behavior

open Tick

variable {b : Behavior} {raw : Datum}

theorem same_reread_iff {m : MaxAge} (settled : b.Settled) (read : b.death.maxAge.ReadAs m)
    (script script' : String) :
    (toDatum { b with script, death := { b.death with maxAge := m } }).same
      (toDatum { b with script := script' }) = true ↔ script = script' := by
  have distinct : ["emitterVars", "tickExpression", "tickActions", "death"].Nodup := by decide
  have vars : (Datum.list (b.vars.map Variable.toDatum)).Comparable :=
    .list (List.forall_mem_map.mpr fun v mem => (settled.vars v mem).comparable)
  have tickActions : (Datum.list (b.tickActions.map TickAction.toDatum)).Comparable :=
    .list (List.forall_mem_map.mpr fun t mem => (settled.tickActions t mem).comparable)
  have text : (Datum.text script).same (.text script') = true ↔ script = script' := beq_iff_eq
  refine (same_object_iff ?_ ?_).trans ?_
  · rfl
  · exact distinct
  simp only [List.forall₂_cons, vars.same_self, tickActions.same_self,
    Death.same_readAs settled.death read, text, true_and, and_true, List.forall₂_nil_left_iff]

/-- A document that is read gives a document that is read again. The two are the same but for the
script, which is cleaned twice, and are the same exactly if no long break is left in it. -/
theorem reread_same_iff (h : ofDatum raw = .ok b) :
    ∃ b', ofDatum b.toDatum = .ok b' ∧
      b'.toDatum.same (toDatum { b with script := cleanSource b.script }) = true ∧
      (b'.toDatum.same b.toDatum = true ↔ ¬Text.longBreak <:+: b.script.toList) := by
  have settled := ofDatum_settled h
  obtain ⟨m, again, read⟩ := ofDatum_reread settled
  refine ⟨_, again, (same_reread_iff settled read _ _).mpr rfl, ?_⟩
  rw [← cleanSource_eq_iff settled.script]
  exact same_reread_iff settled read _ b.script

/-- A script alone as a document. -/
def scripted (script : String) : Datum := .object [("tickExpression", .text script)]

theorem scripted_ok {text script : String}
    (h : (ofDatum (scripted text)).toOption.map (·.script) = some script) :
    ∃ b, ofDatum (scripted text) = .ok b ∧ b.script = script := by
  obtain ⟨b, read, same⟩ := Option.map_eq_some_iff.mp h
  exact ⟨b, ok_of_toOption read, same⟩

theorem reread_same_iff_break : ∃ b, ofDatum (scripted "a = 1\r\nb = 2") = .ok b ∧
    ∃ b', ofDatum b.toDatum = .ok b' ∧
      b'.toDatum.same (toDatum { b with script := cleanSource b.script }) = true ∧
      (b'.toDatum.same b.toDatum = true ↔ ¬Text.longBreak <:+: b.script.toList) := by
  obtain ⟨b, read, _⟩ : ∃ b, ofDatum (scripted "a = 1\r\nb = 2") = .ok b ∧
    b.script = "a = 1\nb = 2" := scripted_ok (by decide +kernel)
  exact ⟨b, read, reread_same_iff read⟩

/-- A break after a carriage return: the first cleaning leaves a long break, the second does not. -/
theorem reread_differs : ∃ b, ofDatum (scripted "a\r\r\nb") = .ok b ∧
    ∃ b', ofDatum b.toDatum = .ok b' ∧ b'.toDatum.same b.toDatum = false := by
  obtain ⟨b, read, script⟩ : ∃ b, ofDatum (scripted "a\r\r\nb") = .ok b ∧
    b.script = "a\r\nb" := scripted_ok (by decide +kernel)
  have settled := ofDatum_settled read
  obtain ⟨m, again, readAs⟩ := ofDatum_reread settled
  refine ⟨b, read, _, again, Bool.eq_false_iff.mpr fun same => ?_⟩
  have unchanged := (same_reread_iff settled readAs _ b.script).mp same
  rw [script] at unchanged
  exact absurd unchanged (by decide +kernel)

end Behavior

end Comparable

end EmitterLogic
