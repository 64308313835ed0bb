import EmitterLogic.Proofs.Script.Compatible
import EmitterLogic.Proofs.Script.Memory

namespace EmitterLogic.Script

variable {α β : Type}

/-- Every value but a function of the script. -/
def Value.IsFree : Value → Prop
  | .func _ => False
  | _ => True

def FreeFields (fs : Fields Value) : Prop := ∀ key v, fs.get? key = some v → v.IsFree

/-- No function of the script is bound or kept in memory. -/
structure Machine.IsFree (m : Machine (Fields Value)) : Prop where
  scopes (place : Nat) : FreeFields (m.scope place).names
  lists (place : Nat) : ∀ v ∈ m.list place, v.IsFree
  objects (place : Nat) : FreeFields (m.object place).fields
  host : FreeFields m.host

theorem FreeFields.nil : FreeFields [] := FieldsHold.nil

theorem FreeFields.getD {fs : Fields Value} (h : FreeFields fs) (key : String) :
    ((fs.get? key).getD .undefined).IsFree := FieldsHold.getD h trivial key

namespace Machine

variable {m : Machine (Fields Value)}

theorem isFree_iff : m.IsFree ↔ m.Holds Value.IsFree FreeFields :=
  ⟨fun h => ⟨h.scopes, h.lists, h.objects, h.host⟩, fun h => ⟨h.scopes, h.lists, h.objects, h.host⟩⟩

namespace IsFree

variable (h : m.IsFree)
include h

theorem putName (place : Nat) (name : String) {v : Value} (hv : v.IsFree) :
    { m with
      scopes := m.scopes.modify place fun c => { c with names := c.names.put name v } }.IsFree :=
  isFree_iff.mpr ((isFree_iff.mp h).changeScope place fun _ free => free.put hv name)

theorem putProperty (place : Nat) (key : String) {v : Value} (hv : v.IsFree) :
    { m with
      objects := m.objects.modify place fun c => { c with fields := c.fields.put key v } }.IsFree :=
  isFree_iff.mpr ((isFree_iff.mp h).putProperty place key hv)

theorem putElement (place i : Nat) {v : Value} (hv : v.IsFree) :
    { m with lists := m.lists.modify place fun items => putItem items i v }.IsFree :=
  isFree_iff.mpr ((isFree_iff.mp h).putElement trivial place i hv)

theorem putHost (key : String) {v : Value} (hv : v.IsFree) :
    { m with host := m.host.put key v }.IsFree :=
  isFree_iff.mpr ((isFree_iff.mp h).setHost (FieldsHold.put h.host hv key))

end IsFree

end Machine

structure EndsFree (Q : α → Prop) (r : Except Interrupt α × Machine (Fields Value)) : Prop where
  free : r.2.IsFree
  fueled : r.1 ≠ .error .outOfFuel
  value : ∀ a, r.1 = .ok a → Q a

theorem EndsFree.ok {Q : α → Prop} {m : Machine (Fields Value)} {a : α} (free : m.IsFree)
    (h : Q a) : EndsFree Q (.ok a, m) := by
  refine ⟨free, fun e => ?_, fun b e => ?_⟩
  · cases e
  · cases e
    exact h

theorem EndsFree.error {Q : α → Prop} {m : Machine (Fields Value)} {i : Interrupt} (free : m.IsFree)
    (h : i ≠ .outOfFuel) : EndsFree Q (.error i, m) := by
  refine ⟨free, fun e => h (Except.error.inj e), fun b e => ?_⟩
  cases e

def Agree (r r' : Run (Fields Value) α) (Q : α → Prop) : Prop :=
  ∀ m, m.IsFree → r' m = r m ∧ EndsFree Q (r m)

abbrev Stays (r : Run (Fields Value) α) (Q : α → Prop) : Prop := Agree r r Q

namespace Agree

variable {r r' : Run (Fields Value) α} {f f' : α → Run (Fields Value) β} {Q : α → Prop}
  {R : β → Prop}

theorem value {a : α} (h : Q a) : Stays (pure a) Q := fun _ free => ⟨rfl, .ok free h⟩

theorem raise {i : Interrupt} (h : i ≠ .outOfFuel) : Stays (throw i) Q :=
  fun _ free => ⟨rfl, .error free h⟩

theorem seq (h : Agree r r' Q) (next : ∀ a, Q a → Agree (f a) (f' a) R) :
    Agree (r >>= f) (r' >>= f') R := by
  intro m free
  obtain ⟨same, after⟩ := h m free
  rcases e : r m with ⟨result, last⟩
  rw [e] at same after
  cases result with
  | error i =>
    rw [seq_error same, seq_error e]
    exact ⟨rfl, .error after.free fun out => after.fueled (out ▸ rfl)⟩
  | ok a =>
    rw [seq_ok same, seq_ok e]
    exact next a (after.value a rfl) last after.free

theorem get : Stays get Machine.IsFree := fun _ free => ⟨rfl, .ok free free⟩

theorem modify {f : Machine (Fields Value) → Machine (Fields Value)}
    (h : ∀ m, m.IsFree → (f m).IsFree) : Stays (modify f) fun _ => True :=
  fun m free => ⟨rfl, .ok (h m free) trivial⟩

theorem choose {c : Prop} [Decidable c] {q q' : Run (Fields Value) α} (h : Agree r r' Q)
    (h' : Agree q q' Q) : Agree (if c then r else q) (if c then r' else q') Q := by
  split
  · exact h
  · exact h'

theorem fail (e : RuntimeError) : Stays (fail e) Q := raise fun h => by cases h

theorem orFault {e : Except Fault α} (h : ∀ a, e = .ok a → Q a) : Stays (orFault e) Q := by
  cases e with
  | ok a => exact value (h a rfl)
  | error f => exact raise fun h => by cases h

theorem faults (e : Except Fault α) : Stays (Script.orFault e) fun _ => True :=
  orFault fun _ _ => trivial

theorem textOf (v : Value) : Stays (textOf v) fun _ => True := by
  refine get.seq fun m _ => ?_
  cases m.textOf v with
  | ok s => exact value trivial
  | error e =>
    cases e with
    | fault f => exact raise nofun
    | endless => exact raise nofun

theorem step : Stays (step 0) fun _ => True :=
  fun _ free => ⟨rfl, .ok ⟨free.scopes, free.lists, free.objects, free.host⟩ trivial⟩

end Agree

section Pieces

theorem readName_stays (env : Env) (name : String) :
    Stays (readName bindingsHost env name) Value.IsFree := by
  refine Agree.get.seq fun m free => ?_
  cases placeOf bindingsHost m name env with
  | scope place => exact .value ((free.scopes place).getD name)
  | host => exact fun m free => ⟨rfl, .ok free (free.host.getD name)⟩
  | nowhere => exact .fail _

theorem writeName_stays (env : Env) (name : String) {v : Value} (hv : v.IsFree) :
    Stays (writeName bindingsHost env name v) fun _ => True := by
  refine Agree.get.seq fun m free => ?_
  cases placeOf bindingsHost m name env with
  | scope place =>
    have put := Agree.modify fun m free => Machine.IsFree.putName (m := m) free place name hv
    exact .choose ((Agree.fail _ (Q := fun _ => True)).seq fun _ _ => put) put
  | host => exact fun m free => ⟨rfl, .ok (free.putHost name hv) trivial⟩
  | nowhere => exact .modify fun m free => free.putName rootScope name hv

theorem readElement_free {size : Nat} {element : Nat → Option Value} {property v : Value}
    (h : ∀ i w, element i = some w → w.IsFree) (read : readElement size element property = .ok v) :
    v.IsFree := by
  by_cases length : property = .text "length"
  · subst length
    cases read
    trivial
  rw [readElement] at read
  · cases position : positionOf property with
    | error e =>
      rw [position] at read
      cases read
    | ok n? =>
      rw [position] at read
      cases n? with
      | none =>
        cases read
        trivial
      | some n =>
        have value : (if 0 ≤ n then (element n.toNat).getD .undefined else .undefined) = v :=
          Except.ok.inj read
        rw [← value]
        split
        · cases found : element n.toNat with
          | none => trivial
          | some w => exact h n.toNat w found
        · trivial
  · exact length

theorem readMember_stays {holder : Value} (property : Value) :
    Stays (readMember holder property) Value.IsFree := by
  have nothing : Stays (do
      fail (.readOfNothing (← Script.textOf holder) (← Script.textOf property)))
      Value.IsFree :=
    (Agree.textOf _).seq fun _ _ => (Agree.textOf _).seq fun _ _ => .fail _
  cases holder with
  | undefined => exact nothing
  | null => exact nothing
  | object place =>
    exact (Agree.textOf _).seq fun key _ => Agree.get.seq fun m free =>
      .value ((free.objects place).getD key)
  | list place =>
    refine Agree.get.seq fun m free => .orFault fun v => readElement_free fun i w found => ?_
    exact free.lists place w (Array.mem_of_getElem? found)
  | text s =>
    refine .orFault fun v => readElement_free fun i w found => ?_
    obtain ⟨c, _, rfl⟩ := Option.map_eq_some_iff.mp found
    trivial
  | bool b => exact .value trivial
  | number n => exact .value trivial
  | func place => exact .value trivial
  | native f => exact .value trivial

theorem writeMember_stays (holder property : Value) {v : Value} (hv : v.IsFree) :
    Stays (writeMember holder property v) fun _ => True := by
  have refused : Stays (refuseWrite holder property : Run (Fields Value) Unit) fun _ => True :=
    (Agree.textOf _).seq fun _ _ => (Agree.textOf _).seq fun _ _ => .fail _
  cases holder with
  | object place =>
    refine (Agree.textOf _).seq fun key _ => Agree.get.seq fun m free => ?_
    have put := Agree.modify fun m free => Machine.IsFree.putProperty (m := m) free place key hv
    exact .choose ((Agree.fail _ (Q := fun _ => True)).seq fun _ _ => put) put
  | list place =>
    refine (Agree.faults _).seq fun position _ => ?_
    split
    · next i => exact .modify fun m free => free.putElement place i hv
    · exact refused
  | _ => exact refused

theorem applyArith_stays (o : ArithOp) (a b : Value) :
    Stays (applyArith o a b : Run (Fields Value) Value) Value.IsFree := by
  refine .choose ?_ ?_
  · exact (Agree.textOf a).seq fun _ _ => (Agree.textOf b).seq fun _ _ => .value trivial
  · exact (Agree.faults _).seq fun _ _ => (Agree.faults _).seq fun _ _ => .value trivial

theorem binary_stays (op : BinaryOp) {a b : Value} (hb : b.IsFree) :
    Stays (op.apply a b : Run (Fields Value) Value) Value.IsFree := by
  cases op with
  | sequence => exact .value hb
  | arith o => exact applyArith_stays o a b
  | _ => exact (Agree.faults _).seq fun _ _ => .value trivial

theorem unary_stays (op : UnaryOp) (v : Value) :
    Stays (op.apply v : Run (Fields Value) Value) Value.IsFree := by
  cases op with
  | typeOf => exact .value trivial
  | _ => exact (Agree.faults _).seq fun _ _ => .value trivial

theorem callMath_free {f : MathFn} {args : List Value} {v : Value} (h : callMath f args = .ok v) :
    v.IsFree := by
  rw [callMath] at h
  cases numbers : numbersOf args with
  | error e =>
    rw [numbers] at h
    cases h
  | ok xs =>
    rw [numbers] at h
    cases h
    trivial

theorem callNative_stays (callee : String) (f : Native) (args : List Value) :
    Stays (callNative bindingsHost callee f args) Value.IsFree := by
  intro m free
  refine ⟨rfl, ?_⟩
  -- Native functions give numbers, or nothing at all.
  cases f with
  | math f =>
    have asked : bindingsHost.call (.math f) args = orRefuse (callMath f args) := rfl
    cases result : callMath f args with
    | ok v =>
      have answered : callNative bindingsHost callee (.math f) args m = (.ok v, m) := by
        rw [callNative, asked, result]
        rfl
      rw [answered]
      exact .ok free (callMath_free result)
    | error e =>
      have failed : callNative bindingsHost callee (.math f) args m =
          (.error (.failed (.helper callee (.fault e))), m) := by
        rw [callNative, asked, result]
        rfl
      rw [failed]
      exact .error free fun h => by cases h
  | random => exact .ok ⟨free.scopes, free.lists, free.objects, free.host⟩ trivial
  | helper h => exact .ok free trivial

theorem callValue_agree (call call' : Nat → List Value → Run (Fields Value) Value) (callee : String)
    {f : Value} (hf : f.IsFree) (args : List Value) :
    Agree (callValue bindingsHost 0 call callee f args) (callValue bindingsHost 0 call' callee f args)
      Value.IsFree := by
  cases f with
  | func place => cases hf
  | native f => exact Agree.step.seq fun _ _ => callNative_stays callee f args
  | _ => exact .fail _

theorem readSpot_stays (env : Env) (spot : Spot) :
    Stays (spot.read bindingsHost env) Value.IsFree := by
  cases spot with
  | name id => exact readName_stays env id
  | member holder property => exact readMember_stays property

theorem writeSpot_stays (env : Env) (spot : Spot) {v : Value} (hv : v.IsFree) :
    Stays (spot.write bindingsHost env v) fun _ => True := by
  cases spot with
  | name id => exact writeName_stays env id hv
  | member holder property => exact writeMember_stays holder property hv

end Pieces

section Documents

theorem addList_free {m : Machine (Fields Value)} (h : m.IsFree) {items : Array Value}
    (hitems : ∀ v ∈ items, v.IsFree) : (m.addList items).2.IsFree :=
  Machine.isFree_iff.mpr ((Machine.isFree_iff.mp h).addList hitems)

theorem addObject_free {m : Machine (Fields Value)} (h : m.IsFree) {cell : ObjectCell}
    (hcell : FreeFields cell.fields) : (m.addObject cell).2.IsFree :=
  Machine.isFree_iff.mpr ((Machine.isFree_iff.mp h).addObject hcell)

mutual

theorem load_free {m : Machine (Fields Value)} (h : m.IsFree) (d : Datum) :
    (m.load d).1.IsFree ∧ (m.load d).2.IsFree := by
  cases d with
  | list items =>
    obtain ⟨values, after⟩ := loadItems_free h items
    exact ⟨trivial, addList_free after fun v hv => values v (List.mem_toArray.mp hv)⟩
  | object entries =>
    obtain ⟨fields, after⟩ := loadEntries_free h entries
    exact ⟨trivial, addObject_free after fields⟩
  | _ => exact ⟨trivial, h⟩

theorem loadItems_free {m : Machine (Fields Value)} (h : m.IsFree) (items : List Datum) :
    (∀ v ∈ (m.loadItems items).1, v.IsFree) ∧ (m.loadItems items).2.IsFree := by
  cases items with
  | nil => exact ⟨List.forall_mem_nil _, h⟩
  | cons d rest =>
    obtain ⟨value, after⟩ := load_free h d
    obtain ⟨values, last⟩ := loadItems_free after rest
    exact ⟨List.forall_mem_cons.mpr ⟨value, values⟩, last⟩

theorem loadEntries_free {m : Machine (Fields Value)} (h : m.IsFree)
    (entries : List (String × Datum)) :
    FreeFields (m.loadEntries entries).1 ∧ (m.loadEntries entries).2.IsFree := by
  cases entries with
  | nil => exact ⟨.nil, h⟩
  | cons e rest =>
    obtain ⟨value, after⟩ := load_free h e.2
    obtain ⟨fields, last⟩ := loadEntries_free after rest
    exact ⟨FieldsHold.cons fields value e.1, last⟩

end

theorem start_free (draws : Draws) : (Machine.start ([] : Fields Value) draws).IsFree :=
  Machine.isFree_iff.mpr (start_holds .nil draws)

theorem ofBindings_free (bindings : Fields Datum) (draws : Draws) :
    (Machine.ofBindings bindings draws).IsFree := by
  obtain ⟨fields, after⟩ := loadEntries_free (start_free draws) bindings
  exact ⟨after.scopes, after.lists, after.objects, fields⟩

theorem mathFields_free : FreeFields mathFields := mathFields_hold (fun _ => trivial) fun _ => trivial

theorem bindMath_free {m : Machine (Fields Value)} (h : m.IsFree) (readOnly : Bool) :
    (m.bindMath readOnly).IsFree :=
  (addObject_free h mathFields_free).putHost "Math" trivial

end Documents

end EmitterLogic.Script
