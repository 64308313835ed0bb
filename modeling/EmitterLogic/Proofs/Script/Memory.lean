import EmitterLogic.Script.Bindings
import EmitterLogic.Proofs.Datum.Fields

namespace EmitterLogic.Script

variable {σ β : Type}

def FieldsHold (P : Value → Prop) (fs : Fields Value) : Prop := ∀ key v, fs.get? key = some v → P v

structure Machine.Holds (P : Value → Prop) (H : σ → Prop) (m : Machine σ) : Prop where
  scopes (place : Nat) : FieldsHold P (m.scope place).names
  lists (place : Nat) : ∀ v ∈ m.list place, P v
  objects (place : Nat) : FieldsHold P (m.object place).fields
  host : H m.host

namespace FieldsHold

variable {P : Value → Prop} {fs : Fields Value}

theorem nil : FieldsHold P [] := fun _ _ h => by cases h

theorem put (h : FieldsHold P fs) {v : Value} (hv : P v) (key : String) :
    FieldsHold P (fs.put key v) :=
  fun _ _ found => Fields.forall_get?_put h hv found

theorem cons (h : FieldsHold P fs) {v : Value} (hv : P v) (key : String) :
    FieldsHold P ((key, v) :: fs) := by
  intro other w found
  rw [Fields.get?_cons] at found
  split at found
  · cases found
    exact hv
  · exact h other w found

theorem getD (h : FieldsHold P fs) (undefined : P .undefined) (key : String) :
    P ((fs.get? key).getD .undefined) := by
  cases e : fs.get? key with
  | none => exact undefined
  | some v => exact h key v e

theorem of_forall_mem (h : ∀ f ∈ fs, P f.2) : FieldsHold P fs :=
  fun _ _ found => h _ (Fields.mem_of_get? found)

end FieldsHold

section Cells

variable {P : β → Prop} {cells : Array β} {empty : β}

theorem getD_modify {f : β → β} (h : ∀ i : Nat, P (cells[i]?.getD empty)) (none : P empty)
    (hf : ∀ b, P b → P (f b)) (place i : Nat) : P ((cells.modify place f)[i]?.getD empty) := by
  rw [Array.getElem?_modify]
  split
  · have here := h i
    cases e : cells[i]? with
    | none => exact none
    | some b =>
      rw [e] at here
      exact hf b here
  · exact h i

theorem getD_push {cell : β} (h : ∀ i : Nat, P (cells[i]?.getD empty)) (hcell : P cell) (i : Nat) :
    P ((cells.push cell)[i]?.getD empty) := by
  rw [Array.getElem?_push]
  split
  · exact hcell
  · exact h i

theorem mem_putItem {items : Array Value} {i : Nat} {v w : Value} (h : w ∈ putItem items i v) :
    w ∈ items ∨ w = .undefined ∨ w = v := by
  rw [putItem] at h
  split at h
  · rcases Array.mem_or_eq_of_mem_setIfInBounds h with old | rfl
    · exact .inl old
    · exact .inr (.inr rfl)
  · rcases Array.mem_push.mp h with old | rfl
    · rcases Array.mem_append.mp old with old | gap
      · exact .inl old
      · exact .inr (.inl (Array.mem_replicate.mp gap).2)
    · exact .inr (.inr rfl)

end Cells

namespace Machine.Holds

variable {P : Value → Prop} {H : σ → Prop} {m : Machine σ} (h : m.Holds P H)
include h

theorem of_memory {after : Machine σ} (scopes : after.scopes = m.scopes)
    (lists : after.lists = m.lists) (objects : after.objects = m.objects)
    (host : H after.host) : after.Holds P H where
  scopes place := by
    rw [Machine.scope, scopes]
    exact h.scopes place
  lists place := by
    rw [Machine.list, lists]
    exact h.lists place
  objects place := by
    rw [Machine.object, objects]
    exact h.objects place
  host := host

theorem changeScope (place : Nat) {f : Scope → Scope}
    (hf : ∀ s, FieldsHold P s.names → FieldsHold P (f s).names) :
    { m with scopes := m.scopes.modify place f }.Holds P H where
  scopes := getD_modify (P := fun s : Scope => FieldsHold P s.names) h.scopes .nil hf place
  lists := h.lists
  objects := h.objects
  host := h.host

theorem putProperty (place : Nat) (key : String) {v : Value} (hv : P v) :
    { m with
      objects := m.objects.modify place fun c =>
        { c with fields := c.fields.put key v } }.Holds P H where
  scopes := h.scopes
  lists := h.lists
  objects := getD_modify (P := fun c : ObjectCell => FieldsHold P c.fields) h.objects .nil
    (fun _ fields => fields.put hv key) place
  host := h.host

theorem putElement (undefined : P .undefined) (place i : Nat) {v : Value} (hv : P v) :
    { m with lists := m.lists.modify place fun items => putItem items i v }.Holds P H where
  scopes := h.scopes
  lists := by
    refine getD_modify (P := fun items : Array Value => ∀ w ∈ items, P w) h.lists ?_ ?_ place
    · intro w none
      cases Array.not_mem_empty w none
    · intro items held w member
      rcases mem_putItem member with old | rfl | rfl
      · exact held w old
      · exact undefined
      · exact hv
  objects := h.objects
  host := h.host

theorem addScope : m.addScope.2.Holds P H where
  scopes := getD_push (P := fun s : Scope => FieldsHold P s.names) h.scopes .nil
  lists := h.lists
  objects := h.objects
  host := h.host

theorem addList {items : Array Value} (hitems : ∀ v ∈ items, P v) :
    (m.addList items).2.Holds P H where
  scopes := h.scopes
  lists := getD_push (P := fun items : Array Value => ∀ w ∈ items, P w) h.lists hitems
  objects := h.objects
  host := h.host

theorem addObject {cell : ObjectCell} (hcell : FieldsHold P cell.fields) :
    (m.addObject cell).2.Holds P H where
  scopes := h.scopes
  lists := h.lists
  objects := getD_push (P := fun c : ObjectCell => FieldsHold P c.fields) h.objects hcell
  host := h.host

theorem setHost {x : σ} (hx : H x) : { m with host := x }.Holds P H :=
  ⟨h.scopes, h.lists, h.objects, hx⟩

end Machine.Holds

theorem mathFields_hold {P : Value → Prop} (native : ∀ f, P (.native f)) (float : ∀ x, P (.float x)) :
    FieldsHold P mathFields := by
  have all : ∀ f ∈ mathFields, P f.2 := by
    refine List.forall_mem_append.mpr ⟨List.forall_mem_map.mpr fun f _ => native (.math f), ?_⟩
    simp only [List.forall_mem_cons]
    exact ⟨native .random, float _, float _, float _, float _, float _, List.forall_mem_nil _⟩
  exact FieldsHold.of_forall_mem all

theorem start_holds {P : Value → Prop} {H : σ → Prop} {host : σ} (h : H host) (draws : Draws) :
    (Machine.start host draws).Holds P H where
  scopes place := by
    have empty : ((Machine.start host draws).scope place).names = [] := by
      cases place <;> rfl
    rw [empty]
    exact .nil
  lists place v hv := by
    have empty : (Machine.start host draws).list place = #[] := rfl
    rw [empty] at hv
    cases Array.not_mem_empty v hv
  objects place := .nil
  host := h

end EmitterLogic.Script
