import EmitterLogic.Proofs.Fault
import EmitterLogic.Proofs.Number.Sign
import EmitterLogic.Proofs.Script.Ends

namespace EmitterLogic.Script

open Event

variable {σ α : Type}

namespace Value

theorem inRange_float (x : Float) : (Value.float x).InRange := ⟨x, rfl⟩

theorem inRange_text (s : String) : (Value.text s).InRange := ⟨_, rfl⟩

theorem inRange_bool (b : Bool) : (Value.bool b).InRange := ⟨_, rfl⟩

theorem inRange_undefined : Value.undefined.InRange := ⟨_, rfl⟩

theorem inRange_ofLiteral (l : Literal) : (Value.ofLiteral l).InRange := by
  cases l <;> exact ⟨_, rfl⟩

namespace InRange

variable {v w : Value}

theorem truthy (h : v.InRange) : ∃ b, v.truthy = .ok b := by
  cases v with
  | number n =>
    obtain ⟨x, value⟩ := h
    have value : n.toFloat = .ok x := value
    rw [Value.truthy]
    split
    · exact ⟨_, rfl⟩
    · rw [value]
      exact ⟨_, rfl⟩
  | _ => exact ⟨_, rfl⟩

theorem strictEq (hv : v.InRange) (hw : w.InRange) : ∃ b, v.strictEq w = .ok b := by
  cases v with
  | number m =>
    cases w with
    | number n =>
      obtain ⟨x, first⟩ := hv
      obtain ⟨y, second⟩ := hw
      have first : m.toFloat = .ok x := first
      have second : n.toFloat = .ok y := second
      rw [Value.strictEq, first, second]
      exact ⟨_, rfl⟩
    | _ => exact ⟨_, rfl⟩
  | _ => cases w <;> exact ⟨_, rfl⟩

theorem looseEq (hv : v.InRange) (hw : w.InRange) : ∃ b, v.looseEq w = .ok b := by
  obtain ⟨x, first⟩ := hv
  obtain ⟨y, second⟩ := hw
  unfold Value.looseEq
  split
  · exact ⟨_, rfl⟩
  · split
    · exact ⟨_, rfl⟩
    · split
      · rw [bind_of_ok first, bind_of_ok second]
        exact ⟨_, rfl⟩
      · exact ⟨_, rfl⟩

theorem compare (r : Relation) (hv : v.InRange) (hw : w.InRange) :
    ∃ b, Value.compare r v w = .ok b := by
  obtain ⟨x, first⟩ := hv
  obtain ⟨y, second⟩ := hw
  unfold Value.compare
  split
  · exact ⟨_, rfl⟩
  · rw [bind_of_ok first, bind_of_ok second]
    exact ⟨_, rfl⟩

end InRange

end Value

theorem textWithin_number (m : Machine σ) (k : Nat) {n : Number} {x : Float}
    (h : n.toFloat = .ok x) : m.textWithin k (.number n) = .ok (floatText x) := by
  rw [Machine.textWithin, h]
  rfl

theorem textWithin_faultless {H : σ → Prop} {m : Machine σ} (held : m.Holds Value.InRange H)
    (n : Nat) {v : Value} (h : v.InRange) (f : Fault) : m.textWithin n v ≠ .error (.fault f) := by
  have numbered (k : Nat) {i : Number} (h : (Value.number i).InRange) :
      m.textWithin k (.number i) ≠ .error (.fault f) := by
    obtain ⟨x, value⟩ := h
    rw [textWithin_number m k value]
    intro failed
    cases failed
  induction n generalizing v with
  | zero =>
    cases v with
    | number i => exact numbered _ h
    | _ =>
      intro failed
      cases failed
  | succ n ih =>
    cases v with
    | number i => exact numbered _ h
    | list place =>
      intro failed
      rw [Machine.textWithin] at failed
      cases texts : (m.list place).toList.mapM fun v =>
          if v.isNothing then .ok "" else m.textWithin n v with
      | ok ss =>
        rw [texts] at failed
        cases failed
      | error e =>
        rw [texts] at failed
        cases failed
        obtain ⟨w, member, failed⟩ := exists_of_mapM_error texts
        split at failed
        · cases failed
        · exact ih (held.lists place w (Array.mem_toList_iff.mp member)) failed
    | _ =>
      intro failed
      cases failed

section Positions

variable {property : Value}

theorem positionOf_infinite (h : property.IsInfinite) : positionOf property = .error .infinite := by
  obtain ⟨x, value, number, infinite⟩ := h
  have none : Binary64.parts? x = none := by
    cases parts : Binary64.parts? x with
    | none => rfl
    | some p =>
      rw [Binary64.isFinite_iff_parts.mpr ⟨p, parts⟩] at infinite
      cases infinite
  have numbered : ¬x.isNaN = true := by rw [number]; exact Bool.false_ne_true
  rw [positionOf, bind_of_ok value, if_neg numbered, truncated, none, number]
  rfl

theorem positionOf_ok (range : property.InRange) (h : ¬property.IsInfinite) :
    ∃ n?, positionOf property = .ok n? := by
  obtain ⟨x, value⟩ := range
  cases number : x.isNaN with
  | true =>
    rw [positionOf, bind_of_ok value, if_pos number]
    exact ⟨_, rfl⟩
  | false =>
    have finite : x.isFinite = true := by
      cases finite : x.isFinite with
      | true => rfl
      | false => exact absurd ⟨x, value, number, finite⟩ h
    obtain ⟨p, parts⟩ := Binary64.isFinite_iff_parts.mp finite
    have numbered : ¬x.isNaN = true := by rw [number]; exact Bool.false_ne_true
    rw [positionOf, bind_of_ok value, if_neg numbered, truncated, parts]
    exact ⟨_, rfl⟩

theorem length_finite : ¬(Value.text "length").IsInfinite := by
  rintro ⟨x, value, number, _⟩
  have undefined : (Value.numberOfText "length").isNaN = true := by decide
  cases value
  rw [undefined] at number
  cases number

variable {size : Nat} {element : Nat → Option Value}

theorem readElement_infinite (h : property.IsInfinite) :
    readElement size element property = .error .infinite := by
  simp only [readElement]
  split
  · exact absurd h length_finite
  · rw [positionOf_infinite h]
    rfl

theorem readElement_ok (range : property.InRange) (h : ¬property.IsInfinite)
    (elements : ∀ i v, element i = some v → v.InRange) :
    ∃ v, readElement size element property = .ok v ∧ v.InRange := by
  simp only [readElement]
  split
  · exact ⟨_, rfl, Value.inRange_float _⟩
  · obtain ⟨n?, position⟩ := positionOf_ok range h
    rw [position]
    cases n? with
    | none => exact ⟨_, rfl, Value.inRange_undefined⟩
    | some n =>
      refine ⟨_, rfl, ?_⟩
      split
      · cases found : element n.toNat with
        | none => exact Value.inRange_undefined
        | some v => exact elements _ v found
      · exact Value.inRange_undefined

end Positions

namespace Sound

variable {H : σ → Prop}

theorem atPosition {Q : α → Prop} {property : Value} {e : Except Fault α}
    (infinite : property.IsInfinite → e = .error .infinite)
    (finite : ¬property.IsInfinite → ∃ a, e = .ok a ∧ Q a) :
    Sound H (fun _ => property.IsInfinite) Q (orFault e) := by
  intro m held
  by_cases beyond : property.IsInfinite
  · rw [infinite beyond]
    exact ⟨⟨rfl, beyond⟩, held⟩
  · obtain ⟨a, ok, ha⟩ := finite beyond
    rw [ok]
    exact ⟨⟨ha, beyond⟩, held⟩

theorem textOf {v : Value} (h : v.InRange) : Sound H never (fun _ => True) (textOf v) := by
  refine look fun m held => ?_
  cases text : m.textOf v with
  | ok s => exact value trivial
  | error e =>
    cases e with
    | fault f => exact absurd text (textWithin_faultless held _ h f)
    | endless => exact failed .stackExhausted

theorem number {v : Value} (h : v.InRange) : Sound H never (fun _ => True) (orFault v.toNumber) := by
  obtain ⟨x, ok⟩ := h
  exact Sound.ok ok trivial

theorem readMember {holder property : Value} (hh : holder.InRange) (hp : property.InRange) :
    Sound H (fun _ => property.ReadsBeyond holder) Value.InRange (readMember holder property) := by
  have refused : Sound H never Value.InRange (do
      fail (.readOfNothing (← Script.textOf holder) (← Script.textOf property)) : Run σ Value) :=
    (textOf hh).close fun _ _ => (textOf hp).close fun _ _ => failed _
  cases holder with
  | undefined => exact refused
  | null => exact refused
  | object place =>
    have found : Sound H never Value.InRange (do
        let key ← Script.textOf property
        return ((← get).object place).fields.get? key |>.getD .undefined : Run σ Value) :=
      (textOf hp).close fun key _ => look fun m held =>
        value ((held.objects place).getD Value.inRange_undefined key)
    exact found
  | list place =>
    refine look fun m held => ?_
    refine atPosition readElement_infinite fun finite => readElement_ok hp finite ?_
    intro i v found
    exact held.lists place v (Array.mem_of_getElem? found)
  | text s =>
    refine atPosition readElement_infinite fun finite => readElement_ok hp finite ?_
    intro i v found
    obtain ⟨c, _, rfl⟩ := Option.map_eq_some_iff.mp found
    exact Value.inRange_text _
  | bool b => exact value Value.inRange_undefined
  | number n => exact value Value.inRange_undefined
  | func place => exact value Value.inRange_undefined
  | native f => exact value Value.inRange_undefined

theorem refuseWrite {holder property : Value} (hh : holder.InRange) (hp : property.InRange)
    {Q : α → Prop} : Sound H never Q (refuseWrite holder property : Run σ α) :=
  (textOf hp).close fun _ _ => (textOf hh).close fun _ _ => failed _

theorem writeMember {holder property v : Value} (hh : holder.InRange) (hp : property.InRange)
    (hv : v.InRange) :
    Sound H (fun _ => property.WritesBeyond holder) (fun _ => True)
      (writeMember holder property v) := by
  cases holder with
  | object place =>
    have stored (key : String) : Sound H never (fun _ => True) (modify fun m : Machine σ => { m with
        objects := m.objects.modify place fun c => { c with fields := c.fields.put key v } }) :=
      change fun m held => held.putProperty place key hv
    have written : Sound H never (fun _ => True) (do
        let key ← Script.textOf property
        if ((← get).object place).readOnly then fail (.readOnlyProperty key)
        modify fun m : Machine σ => { m with
          objects := m.objects.modify place fun c => { c with fields := c.fields.put key v } }) :=
      (textOf hp).close fun key _ => look fun m _ =>
        either _ ((failed (Q := fun _ => True) _).close fun _ _ => stored key) (stored key)
    exact written
  | list place =>
    have position : Sound H (fun _ => property.IsInfinite) (fun _ => True)
        (orFault (positionOf property) : Run σ (Option Int)) :=
      atPosition positionOf_infinite fun finite => by
        obtain ⟨n?, ok⟩ := positionOf_ok hp finite
        exact ⟨n?, ok, trivial⟩
    refine position.close fun n? _ => ?_
    split
    · next i => exact change fun m held => held.putElement Value.inRange_undefined place i hv
    · exact refuseWrite hh hp
  | _ => exact refuseWrite hh hp

theorem applyArith (o : ArithOp) {a b : Value} (ha : a.InRange) (hb : b.InRange) :
    Sound H never Value.InRange (applyArith o a b) := by
  refine either _ ?_ ?_
  · exact (textOf ha).close fun _ _ => (textOf hb).close fun _ _ => value (Value.inRange_text _)
  · exact (number ha).close fun _ _ => (number hb).close fun _ _ => value (Value.inRange_float _)

theorem applyBinary (op : BinaryOp) {a b : Value} (ha : a.InRange) (hb : b.InRange) :
    Sound H never Value.InRange (op.apply a b) := by
  have tested {e : Except Fault Bool} (h : ∃ b, e = .ok b) (f : Bool → Bool) :
      Sound H never Value.InRange (do return .bool (f (← orFault e)) : Run σ Value) := by
    obtain ⟨b, ok⟩ := h
    exact (Sound.ok (Q := fun _ => True) ok trivial).close fun _ _ => value (Value.inRange_bool _)
  cases op with
  | sequence => exact value hb
  | looseEq => exact tested (ha.looseEq hb) id
  | looseNe => exact tested (ha.looseEq hb) Bool.not
  | strictEq => exact tested (ha.strictEq hb) id
  | strictNe => exact tested (ha.strictEq hb) Bool.not
  | compare r => exact tested (ha.compare r hb) id
  | arith o => exact applyArith o ha hb

theorem applyUnary (op : UnaryOp) {v : Value} (h : v.InRange) :
    Sound H never Value.InRange (op.apply v) := by
  cases op with
  | not =>
    obtain ⟨b, ok⟩ := h.truthy
    exact (Sound.ok (Q := fun _ => True) ok trivial).close fun _ _ => value (Value.inRange_bool _)
  | negate => exact (number h).close fun _ _ => value (Value.inRange_float _)
  | toNumber => exact (number h).close fun _ _ => value (Value.inRange_float _)
  | typeOf => exact value (Value.inRange_text _)

end Sound

end EmitterLogic.Script
