import EmitterLogic.Proofs.Datum.Fields
import EmitterLogic.Proofs.Fault
import EmitterLogic.Proofs.Number.Units
import EmitterLogic.Term.Basic
import EmitterLogic.Term.Name

namespace EmitterLogic

theorem isFinite_of_finiteOnly {x y : Float} (h : finiteOnly x = some y) : y.isFinite = true := by
  rw [finiteOnly] at h
  split at h
  · next finite =>
    cases h
    exact finite
  · cases h

theorem finite?_isFinite {d : Datum} {x : Float} (h : d.finite? = .ok (some x)) :
    x.isFinite = true := by
  cases d with
  | bool b =>
    have value : (if b then 1.0 else 0.0) = x := Option.some.inj (Except.ok.inj h)
    rw [← value]
    split
    · exact one_isFinite
    · exact zero_isFinite
  | number n =>
    obtain ⟨y, _, found⟩ := map_ok h
    exact isFinite_of_finiteOnly found
  | text s =>
    obtain ⟨y, _, found⟩ := Option.bind_eq_some_iff.mp (Except.ok.inj h)
    exact isFinite_of_finiteOnly found
  | null => cases h
  | undefined => cases h
  | list items => cases h
  | object entries => cases h

theorem finiteOrZero_isFinite {d : Datum} {x : Float} (h : d.finiteOrZero = .ok x) :
    x.isFinite = true := by
  obtain ⟨x?, found, value⟩ := map_ok h
  cases x? with
  | none =>
    rw [← value]
    exact zero_isFinite
  | some y =>
    rw [← value]
    exact finite?_isFinite found

theorem finite?_number {n : Number} {x : Float} (value : n.toFloat = .ok x)
    (finite : x.isFinite = true) : (Datum.number n).finite? = .ok (some x) := by
  rw [Datum.finite?, value, Except.map, finiteOnly, if_pos finite]

theorem finite?_float {x : Float} (finite : x.isFinite = true) :
    (Datum.float x).finite? = .ok (some x) := finite?_number (Number.toFloat_float x) finite

theorem finiteOrZero_float {x : Float} (finite : x.isFinite = true) :
    (Datum.float x).finiteOrZero = .ok x := by
  rw [Datum.finiteOrZero, finite?_float finite]
  rfl

namespace Datum

/-- Every number in a value is a floating-point number or an integer within their range. -/
inductive InRange : Datum → Prop where
  | null : InRange .null
  | undefined : InRange .undefined
  | bool (b : Bool) : InRange (.bool b)
  | number {n : Number} (h : ∃ x, n.toFloat = .ok x) : InRange (.number n)
  | text (s : String) : InRange (.text s)
  | list {items : List Datum} (h : ∀ d ∈ items, InRange d) : InRange (.list items)
  | object {entries : Fields Datum} (h : ∀ e ∈ entries, InRange e.2) : InRange (.object entries)

namespace InRange

variable {d : Datum}

theorem float (x : Float) : InRange (.float x) := number ⟨x, rfl⟩

theorem int_zero : InRange (.int 0) := number ⟨0.0, rfl⟩

theorem getD (h : d.InRange) (key : String) : (d.getD key).InRange := by
  cases h with
  | @object entries h =>
    rw [Datum.getD, Datum.get?]
    cases found : Fields.get? entries key with
    | none => exact null
    | some e => exact h (key, e) (Fields.mem_of_get? found)
  | _ => exact null

theorem finite? (h : d.InRange) : ∃ x?, d.finite? = .ok x? := by
  cases h with
  | @number n h =>
    obtain ⟨x, value⟩ := h
    exact ⟨finiteOnly x, by simp only [Datum.finite?, value, Except.map]⟩
  | text s => exact ⟨(spelledNumber? s).bind finiteOnly, rfl⟩
  | bool b => exact ⟨some (if b then 1.0 else 0.0), rfl⟩
  | _ => exact ⟨none, rfl⟩

theorem finiteOrZero (h : d.InRange) : ∃ x, d.finiteOrZero = .ok x := by
  obtain ⟨x?, value⟩ := h.finite?
  exact ⟨x?.getD 0.0, by simp only [Datum.finiteOrZero, value, Except.map]⟩

end InRange

end Datum

/-- The numbers among the values of some fields are no integers beyond the range of the format. -/
def Fields.InRange (fields : Fields Datum) : Prop :=
  ∀ key n, fields.get? key = some (.number n) → ∃ x, n.toFloat = .ok x

theorem Fields.InRange.of_forall {fields : Fields Datum} (h : ∀ e ∈ fields, e.2.InRange) :
    fields.InRange := by
  intro key n found
  cases h (key, .number n) (mem_of_get? found) with
  | number inRange => exact inRange

namespace Sight

structure InRange (s : Sight) : Prop where
  context : s.context.InRange
  vars : s.vars.InRange

variable {s : Sight}

theorem readOne_ok {fields : Fields Datum} (h : fields.InRange) (key : String) :
    ∃ x?, readOne fields key = .ok x? := by
  rw [readOne]
  cases found : fields.get? key with
  | none => exact ⟨none, rfl⟩
  | some d =>
    cases d with
    | number n =>
      obtain ⟨x, inRange⟩ := h key n found
      exact ⟨finiteOnly x, by simp only [Datum.finite?, inRange, Except.map]⟩
    | bool b => exact ⟨_, rfl⟩
    | text t => exact ⟨_, rfl⟩
    | null => exact ⟨_, rfl⟩
    | undefined => exact ⟨_, rfl⟩
    | list items => exact ⟨_, rfl⟩
    | object entries => exact ⟨_, rfl⟩

theorem readKeys_ok (h : s.InRange) (keys : List String) : ∃ x?, s.readKeys keys = .ok x? := by
  induction keys with
  | nil => exact ⟨none, rfl⟩
  | cons key rest ih =>
    obtain ⟨c?, context⟩ := readOne_ok h.context key
    obtain ⟨v?, vars⟩ := readOne_ok h.vars key
    obtain ⟨x?, others⟩ := ih
    rw [readKeys, context, vars, others]
    cases c? with
    | some c => exact ⟨some c, rfl⟩
    | none =>
      cases v? with
      | some v => exact ⟨some v, rfl⟩
      | none => exact ⟨x?, rfl⟩

theorem InRange.read? (h : s.InRange) (name : String) : ∃ x?, s.read? name = .ok x? := by
  rw [Sight.read?]
  split
  · exact ⟨none, rfl⟩
  · exact readKeys_ok h (lookupKeys (trimmed name))

theorem readD_ok (h : s.InRange) (name : String) (default : Float) :
    ∃ x, s.readD name default = .ok x := by
  obtain ⟨x?, found⟩ := h.read? name
  exact ⟨x?.getD default, by rw [readD, found, Except.map]⟩

end Sight

end EmitterLogic
