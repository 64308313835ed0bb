import EmitterLogic.Behavior.Basic
import EmitterLogic.Proofs.Behavior.Variable
import EmitterLogic.Proofs.Condition.Reread

namespace EmitterLogic

theorem present_or_new_ne_empty (d : Datum) : (if d.isTruthy then d.toText else newId) ≠ "" := by
  split
  · next given => exact Datum.toText_ne_empty given
  · decide

theorem present_or_new_text {s : String} (h : s ≠ "") :
    (if (Datum.text s).isTruthy then (Datum.text s).toText else newId) = s :=
  if_pos (bne_iff_ne.mpr h)

def Datum.nameOrEmpty (d : Datum) : String := if d.isIdent then trimmed d.toText else ""

theorem Datum.nameOrEmpty_text (s : String) : (Datum.text s).nameOrEmpty = identOrEmpty s := rfl

theorem Datum.nameOrEmpty_name (d : Datum) : identOrEmpty d.nameOrEmpty = d.nameOrEmpty := by
  rw [nameOrEmpty]
  split
  · next ident =>
    have spelled : identOrEmpty d.toText = trimmed d.toText :=
      if_pos (Bool.and_eq_true_iff.mp ident).2
    rw [← spelled]
    exact identOrEmpty_identOrEmpty _
  · rfl

section Terms

theorem Term.normal_number {x : Float} (finite : x.isFinite = true) : (number x).Normal := by
  refine ⟨fun y same => ?_, fun w same => ?_⟩
  · cases same
    exact finite
  · cases same

theorem Term.normal_named {w : String} (name : identOrEmpty w = w) : (named w).Normal := by
  refine ⟨fun x same => ?_, fun v same => ?_⟩
  · cases same
  · cases same
    exact name

theorem Term.normal_builtin (b : Builtin) : (builtin b).Normal := by
  refine ⟨fun x same => ?_, fun w same => ?_⟩
  · cases same
  · cases same

end Terms

namespace Action

variable {a : Action} {d : Datum}

structure Settled (a : Action) : Prop where
  id : a.id ≠ ""
  name : identOrEmpty a.varName = a.varName
  value : a.value.Normal

theorem valueOf_normal {kind value : Datum} {t : Term} (h : valueOf kind value = .ok t) :
    t.Normal := by
  rw [valueOf] at h
  generalize TermKind.ofText kind.textOrEmpty = k at h
  cases k with
  | number => exact Term.ofNumber_normal h
  | named =>
    cases h
    exact Term.normal_named value.nameOrEmpty_name
  | builtin b =>
    cases h
    exact Term.normal_builtin b

theorem ofParts_settled {id name op kind value : Datum} (h : ofParts id name op kind value = .ok a) :
    a.Settled := by
  obtain ⟨t, made, h⟩ := bind_ok h
  cases h
  exact ⟨present_or_new_ne_empty id, name.nameOrEmpty_name, valueOf_normal made⟩

theorem detected_normal (text : String) : (detected text).Normal := by
  rw [detected]
  have zero : Term.zero.Normal := Term.normal_number zero_isFinite
  split
  · refine Term.normal_number ?_
    cases found : finiteOnly ((Reading.float? (canonicalName text).toList).getD 0.0) with
    | some x => exact isFinite_of_finiteOnly found
    | none => exact zero_isFinite
  · split
    · exact zero
    · exact Term.normal_named rfl
    · next b _ => exact Term.normal_builtin b
    · split
      · next ident =>
        refine Term.normal_named ?_
        have own : trimmed (canonicalName text) = canonicalName text := by
          rw [canonicalName]
          split
          · decide
          · exact trimmed_trimmed text
        rw [identOrEmpty, if_pos ident, own]
      · exact zero

theorem change?_normal {body : List Char} {op : ActionOp} {t : Term}
    (h : change? body = some (op, t)) : t.Normal := by
  rw [change?] at h
  have one : (Term.number 1.0).Normal := Term.normal_number one_isFinite
  split at h
  · cases h
    exact one
  · split at h
    · cases h
      exact one
    · obtain ⟨⟨sign, op'⟩, _, h⟩ := List.exists_of_findSome?_eq_some h
      obtain ⟨right, _, h⟩ := Option.bind_eq_some_iff.mp h
      dsimp only at h
      split at h
      · cases h
      · cases h
        exact detected_normal _

theorem ofText?_settled {text id : String} (h : ofText? text = some a) (given : id ≠ "") :
    Settled { a with id } := by
  rw [ofText?] at h
  split at h
  · cases h
  · next c rest _ =>
    split at h
    · cases h
    · next start =>
      obtain ⟨⟨op, value⟩, change, rfl⟩ := Option.map_eq_some_iff.mp h
      refine ⟨given, ?_, change?_normal change⟩
      have chars : Text.isIdentChars (c :: rest.takeWhile Text.isIdentPart) = true := by
        rw [Text.isIdentChars, Bool.and_eq_true]
        exact ⟨by simpa using start, List.all_takeWhile⟩
      refine identOrEmpty_eq_iff.mpr (.inr ?_)
      rw [String.toList_ofList]
      exact chars

theorem ofObject_settled (h : ofObject d = .ok a) : a.Settled := by
  rw [ofObject] at h
  split at h
  · next found =>
    cases h
    exact ofText?_settled found (idOf_ne_empty d)
  · exact ofParts_settled h

theorem ofDatum_settled (h : ofDatum d = .ok a) : a.Settled := by
  rw [ofDatum] at h
  split at h
  · exact ofObject_settled h
  · exact ofParts_settled h

theorem ofName?_name (op : ActionOp) : ActionOp.ofName? op.name = some op := by
  cases op <;> decide

theorem ofParts_stored (settled : a.Settled) : ofParts (.text a.id) (.text a.varName)
    (.text a.op.name) (.text a.value.kind.name) a.value.value = .ok a := by
  have value : valueOf (.text a.value.kind.name) a.value.value = .ok a.value := by
    have kind : TermKind.ofText (Datum.text a.value.kind.name).textOrEmpty = a.value.kind := by
      rw [Datum.textOrEmpty_text, a.value.kind.ofText_name]
    rw [valueOf, kind]
    have normal := settled.value
    cases shape : a.value with
    | number x =>
      have finite := finiteOrZero_float (normal.number x shape)
      simp only [Term.kind, Term.value, Term.ofNumber, finite, Except.map]
    | named w =>
      simp only [Term.kind, Term.value]
      exact congrArg (fun s => Except.ok (Term.named s)) (normal.name w shape)
    | builtin b => rfl
  have id := present_or_new_text settled.id
  have name : (Datum.text a.varName).nameOrEmpty = a.varName := settled.name
  have op : (ActionOp.ofName? (Datum.text a.op.name).textOrEmpty).getD .set = a.op := by
    rw [Datum.textOrEmpty_text, ofName?_name, Option.getD_some]
  rw [Datum.nameOrEmpty] at name
  rw [ofParts, value]
  simp only [id, name, op]
  rfl

structure StoredIn (a : Action) (d : Datum) : Prop where
  id : d.getD "id" = .text a.id
  varName : d.getD "varName" = .text a.varName
  op : d.getD "op" = .text a.op.name
  kind : d.getD "valueType" = .text a.value.kind.name
  value : d.getD "value" = a.value.value
  expr : d.getD "expr" = .null

theorem ofObject_stored (settled : a.Settled) (stored : a.StoredIn d) : ofObject d = .ok a := by
  have none : ofText? (d.getD "expr").textOrEmpty = none := by
    rw [stored.expr]
    rfl
  rw [ofObject, none, stored.id, stored.varName, stored.op, stored.kind, stored.value]
  exact ofParts_stored settled

theorem create_stored (settled : a.Settled) (stored : a.StoredIn d) : create d = .ok a := by
  have name : (Datum.text a.varName).orElse (.text "") = .text a.varName := by
    rw [Datum.orElse]
    split
    · rfl
    · next empty => rw [Decidable.not_not.mp fun some => empty (bne_iff_ne.mpr some)]
  have op : (Datum.text a.op.name).orElse (.text "add") = .text a.op.name := by
    cases a.op <;> rfl
  have kind : (Datum.text a.value.kind.name).orElse (.text "number") = .text a.value.kind.name :=
    if_pos a.value.kind.name_ne_empty
  have value : a.value.value.isNull = false := by cases a.value <;> rfl
  rw [create, stored.id, stored.varName, stored.op, stored.kind, stored.value, name, op, kind, value]
  exact ofParts_stored settled

theorem ofDatum_reread (settled : a.Settled) : ofDatum a.toDatum = .ok a := by
  have object : a.toDatum.isObject = true := rfl
  rw [ofDatum, if_pos object]
  exact ofObject_stored settled ⟨rfl, rfl, rfl, rfl, rfl, rfl⟩

theorem listOf_settled {actions : List Action} (h : listOf d = .ok actions) :
    ∀ a ∈ actions, a.Settled := by
  rw [listOf.eq_def] at h
  split at h
  · exact forall_of_mapM_ok (fun _ _ => ofDatum_settled) h
  · cases h
    exact List.forall_mem_nil _

theorem listOf_reread {actions : List Action} (settled : ∀ a ∈ actions, a.Settled) :
    listOf (.list (actions.map toDatum)) = .ok actions :=
  mapM_map_ok fun a mem => ofDatum_reread (settled a mem)

end Action

theorem Filter.ofSource_settled {d : Datum} {allowReason : Bool} {f : Filter}
    (h : ofSource d allowReason = .ok f) : f.Settled allowReason := by
  rw [ofSource.eq_def] at h
  split at h
  · exact ofDatum_settled h
  · exact ofDatum_settled h

namespace TickAction

variable {t : TickAction} {d : Datum}

structure Settled (t : TickAction) : Prop where
  action : t.action.Settled
  atTick : atTick t.action = t.action
  condition : t.condition.Settled false

theorem atTick_settled {a : Action} (settled : a.Settled) : (TickAction.atTick a).Settled := by
  rw [TickAction.atTick]
  split
  · exact settled
  · refine ⟨settled.id, settled.name, ?_⟩
    dsimp only
    cases shape : a.value with
    | builtin b =>
      cases b with
      | tick => exact Term.normal_builtin .tick
      | _ => exact Term.normal_number zero_isFinite
    | _ =>
      rw [← shape]
      exact shape ▸ settled.value

theorem atTick_atTick (a : Action) :
    TickAction.atTick (TickAction.atTick a) = TickAction.atTick a := by
  by_cases step : a.op.isStep = true
  · have made : TickAction.atTick a = a := if_pos step
    rw [made, made]
  · have kept : valueAtTick (valueAtTick a.value) = valueAtTick a.value := by
      cases a.value with
      | builtin b => cases b <;> rfl
      | _ => rfl
    have made : TickAction.atTick a = { a with value := valueAtTick a.value } := if_neg step
    rw [made, TickAction.atTick, if_neg step, kept]

theorem actionOf_settled {a : Action} (h : actionOf d = .ok a) : a.Settled := by
  rw [actionOf] at h
  split at h
  · exact Action.ofParts_settled h
  · exact Action.ofObject_settled h

theorem ofDatum_settled (h : ofDatum d = .ok t) : t.Settled := by
  obtain ⟨a, action, h⟩ := bind_ok h
  obtain ⟨f, condition, h⟩ := bind_ok h
  cases h
  exact ⟨atTick_settled (actionOf_settled action), atTick_atTick a,
    Filter.ofSource_settled condition⟩

theorem ofDatum_reread (settled : t.Settled) : ofDatum t.toDatum = .ok t := by
  have stored : t.action.StoredIn t.toDatum := ⟨rfl, rfl, rfl, rfl, rfl, rfl⟩
  have action : actionOf t.toDatum = .ok t.action := by
    have none : (t.toDatum.getD "expr").trimmedText.isEmpty = true := by
      rw [stored.expr]
      rfl
    rw [actionOf, if_pos none]
    exact Action.create_stored settled.action stored
  have condition : Filter.ofSource (t.toDatum.getD "condition") false = .ok t.condition :=
    Filter.ofDatum_reread settled.condition
  rw [ofDatum, bind_of_ok action, bind_of_ok condition, settled.atTick]
  rfl

theorem listOf_settled {actions : List TickAction} (h : listOf d = .ok actions) :
    ∀ t ∈ actions, t.Settled := by
  rw [listOf.eq_def] at h
  split at h
  · exact forall_of_mapM_ok (fun _ _ => ofDatum_settled) h
  · cases h
    exact List.forall_mem_nil _

theorem listOf_reread {actions : List TickAction} (settled : ∀ t ∈ actions, t.Settled) :
    listOf (.list (actions.map toDatum)) = .ok actions :=
  mapM_map_ok fun t mem => ofDatum_reread (settled t mem)

end TickAction

namespace Variable

variable {v : Variable} {d : Datum}

structure Settled (v : Variable) : Prop where
  sound : v.Sound
  id : v.id ≠ ""
  name : trimmed v.name = v.name
  initial : ofType v.isInt v.initial = .ok v.initial
  least : ofType v.isInt v.minValue = .ok v.minValue
  greatest : ofType v.isInt v.maxValue = .ok v.maxValue

theorem ofType_ofType {isInt : Bool} {x y : Float} (hx : x.isFinite = true)
    (h : ofType isInt x = .ok y) : ofType isInt y = .ok y := by
  cases isInt with
  | false => rfl
  | true => exact wholePart_wholePart hx h

theorem numberOf_ofType {isInt : Bool} {d : Datum} {x : Float} (h : numberOf isInt d = .ok x) :
    ofType isInt x = .ok x := by
  have typed (h : (do ofType isInt (← d.finiteOrZero)) = .ok x) : ofType isInt x = .ok x := by
    obtain ⟨y, found, h⟩ := bind_ok h
    exact ofType_ofType (finiteOrZero_isFinite found) h
  cases d with
  | bool b =>
    cases h
    cases isInt with
    | false => rfl
    | true => exact Bounds.wholePart_zero
  | _ => exact typed h

theorem numberOf_float {isInt : Bool} {x : Float} (finite : x.isFinite = true)
    (typed : ofType isInt x = .ok x) : numberOf isInt (.float x) = .ok x := by
  have read : numberOf isInt (.float x) = (do ofType isInt (← (Datum.float x).finiteOrZero)) := rfl
  rw [read, bind_of_ok (finiteOrZero_float finite), typed]

theorem isIntType_name (v : Variable) : isIntType (.text v.typeName) = v.isInt := by
  rw [typeName]
  cases v.isInt <;> decide

theorem ofDatum_settled (h : ofDatum d = .ok v) : v.Settled := by
  have sound := ofDatum_sound h
  obtain ⟨x, initial, h⟩ := bind_ok h
  obtain ⟨lo, least, h⟩ := bind_ok h
  obtain ⟨hi, greatest, h⟩ := bind_ok h
  replace initial := numberOf_ofType initial
  replace least := numberOf_ofType least
  replace greatest := numberOf_ofType greatest
  cases Except.ok.inj h
  have id := idOf_ne_empty d
  have name : trimmed (d.getD "name").trimmedText = (d.getD "name").trimmedText := trimmed_trimmed _
  rw [inOrder] at sound ⊢
  split
  · next swapped =>
    rw [if_pos swapped] at sound
    exact ⟨sound, id, name, initial, greatest, least⟩
  · next kept =>
    rw [if_neg kept] at sound
    exact ⟨sound, id, name, initial, least, greatest⟩

theorem inOrder_of_sound (sound : v.Sound) : v.inOrder = v := by
  refine if_neg fun disorder => ?_
  simp only [Bool.and_eq_true, decide_eq_true_eq] at disorder
  obtain ⟨⟨hasMin, hasMax⟩, below⟩ := disorder
  have order := sound.ordered hasMin hasMax
  rw [Binary64.le_iff sound.least sound.greatest] at order
  rw [Binary64.lt_iff sound.greatest sound.least] at below
  omega

theorem ofDatum_reread (settled : v.Settled) : ofDatum v.toDatum = .ok v := by
  have isInt : isIntType (v.toDatum.getD "type") = v.isInt := isIntType_name v
  have initial : numberOf v.isInt (v.toDatum.getD "defaultValue") = .ok v.initial :=
    numberOf_float settled.sound.initial settled.initial
  have least : numberOf v.isInt (v.toDatum.getD "minValue") = .ok v.minValue :=
    numberOf_float settled.sound.least settled.least
  have greatest : numberOf v.isInt (v.toDatum.getD "maxValue") = .ok v.maxValue :=
    numberOf_float settled.sound.greatest settled.greatest
  have id : idOf v.toDatum = v.id := Rule.idOf_text settled.id rfl
  have name : (v.toDatum.getD "name").trimmedText = v.name := by
    have text : v.toDatum.getD "name" = .text v.name := rfl
    rw [text, Rule.trimmedText_text, settled.name]
  rw [ofDatum]
  simp only [isInt]
  rw [bind_of_ok initial, bind_of_ok least, bind_of_ok greatest, id, name]
  exact congrArg Except.ok (inOrder_of_sound settled.sound)

end Variable

namespace MaxAge

variable {m : MaxAge}

def Settled : MaxAge → Prop
  | amount a => a.Settled (.least 1) ∨ a = .one
  | named w => identOrEmpty w = w
  | builtin b => b ∈ builtins

def ReadAs (m m' : MaxAge) : Prop := m' = m ∨ m = amount .one ∧ m' = amount (.number (.int 1))

theorem mem_of_builtin? {kind : String} {b : Builtin} (h : builtin? kind = some b) : b ∈ builtins :=
  List.mem_of_find?_eq_some h

theorem amount_settled {value : Datum} {a : Amount}
    (h : Amount.ofDatum value .one (.least 1) = .ok a) : (amount a).Settled :=
  Amount.ofDatum_settled rfl Bounds.least_one_keeps h

theorem ofParts_settled {kind value : Datum} (h : ofParts kind value = .ok m) : m.Settled := by
  simp only [ofParts] at h
  split at h
  · cases h
    exact value.nameOrEmpty_name
  · split at h
    · next b found =>
      cases h
      exact mem_of_builtin? found
    · obtain ⟨a, made, rfl⟩ := map_ok h
      exact amount_settled made

theorem ofText?_settled {text : String} (h : ofText? text = .ok (some m)) : m.Settled := by
  rw [ofText?] at h
  cases spells : Spelling.ofText (trimmed text) with
  | number x =>
    rw [spells] at h
    have finite := Spelling.ofText_number spells
    obtain ⟨y, part, h⟩ := bind_ok h
    cases h
    have whole := isWhole_wholePart finite part
    by_cases above : 1.0 < y
    · rw [if_pos above]
      refine .inl (Bounds.least_keeps_float whole.1 (wholePart_wholePart finite part) ?_)
      rw [Binary64.lt_iff one_isFinite whole.1, units_one] at above
      rwa [Number.int_lt_float whole.1, Int.one_mul]
    · rw [if_neg above]
      exact .inr rfl
  | name s =>
    rw [spells] at h
    dsimp only at h
    split at h
    · next b found =>
      cases h
      exact mem_of_builtin? found
    · cases h
      obtain ⟨rfl, ident⟩ := Spelling.ofText_name spells
      refine (if_pos ident).trans ?_
      exact trimmed_trimmed text
  | nothing =>
    rw [spells] at h
    cases h
  | other =>
    rw [spells] at h
    cases h

theorem ofParts_reread (settled : m.Settled) :
    ∃ m', ofParts (.text m.kind) m.value = .ok m' ∧ m.ReadAs m' := by
  cases m with
  | amount a =>
    have read {a' : Amount} (h : Amount.ofDatum a.toDatum .one (.least 1) = .ok a') :
        ofParts (.text (amount a).kind) (amount a).value = .ok (amount a') := by
      have given : ofParts (.text (amount a).kind) (amount a).value =
          (Amount.ofDatum a.toDatum .one (.least 1)).map amount := by
        have kind : canonicalName (Datum.text "number").textOrEmpty = "number" := by decide
        have other : builtin? "number" = none := by decide
        have unnamed : ¬("number" == "var") = true := by decide
        simp only [ofParts, MaxAge.kind, kind, if_neg unnamed, other]
        rfl
      rw [given, h]
      rfl
    rcases settled with kept | rfl
    · exact ⟨_, read (Amount.ofDatum_reread kept _), .inl rfl⟩
    · have clamped : (Bounds.least 1).clamp 1.0 = .ok (.int 1) := by
        rw [Bounds.least_clamp Bounds.wholePart_one, if_neg fun less =>
          absurd ((Bounds.int_lt_one 1).mp less) (by decide)]
      exact ⟨_, read (Amount.ofDatum_number rfl one_isFinite clamped _), .inr ⟨rfl, rfl⟩⟩
  | named w =>
    have kind : canonicalName (Datum.text "var").textOrEmpty = "var" := by decide
    have given : ofParts (.text (named w).kind) (named w).value =
        .ok (named (Datum.text w).nameOrEmpty) := by
      simp only [ofParts, MaxAge.kind, kind, beq_self_eq_true, if_true]
      rfl
    refine ⟨_, given, .inl ?_⟩
    rw [Datum.nameOrEmpty_text]
    exact congrArg named settled
  | builtin b =>
    have named : ¬(canonicalName (Datum.text b.name).textOrEmpty == "var") = true := by
      cases b <;> decide
    have found : builtin? (canonicalName (Datum.text b.name).textOrEmpty) = some b := by
      have listed : b ∈ builtins := settled
      revert listed
      cases b <;> decide
    refine ⟨builtin b, ?_, .inl rfl⟩
    simp only [ofParts, MaxAge.kind, if_neg named, found]

end MaxAge

end EmitterLogic
