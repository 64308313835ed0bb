import Mathlib.Data.List.Forall2
import EmitterLogic.Datum.Basic
import EmitterLogic.Proofs.Datum.Fields
import EmitterLogic.Proofs.Number.Units

namespace EmitterLogic

open Binary64

theorem same_float {x y : Float} (hx : x.isFinite = true) (hy : y.isFinite = true) :
    (Datum.float x).same (.float y) = (x == y) := by
  have numbers : (Datum.float x).same (.float y) = (Number.float x).eq (.float y) := rfl
  have equal := beq_iff hx hy
  rw [numbers, Number.eq, Number.compare?]
  by_cases below : x < y
  · have unequal : (x == y) = false := by
      have := (lt_iff hx hy).mp below
      rw [← Bool.not_eq_true, equal]
      omega
    rw [if_pos below, unequal]
    rfl
  by_cases above : y < x
  · have unequal : (x == y) = false := by
      have := (lt_iff hy hx).mp above
      rw [← Bool.not_eq_true, equal]
      omega
    rw [if_neg below, if_pos above, unequal]
    rfl
  rw [if_neg below, if_neg above]
  cases x == y <;> rfl

theorem same_self_float {x : Float} (hx : x.isFinite = true) :
    (Datum.float x).same (.float x) = true := by
  rw [same_float hx hx, beq_iff hx hx]

theorem same_self_int (n : Int) : (Datum.int n).same (.int n) = true := by
  have numbers : (Datum.int n).same (.int n) = (some (compare n n) == some .eq) := rfl
  rw [numbers, Int.compare_eq_eq.mpr rfl]
  rfl

namespace Datum

theorem sameItems_iff {xs ys : List Datum} :
    sameItems xs ys = true ↔ List.Forall₂ (fun x y => x.same y = true) xs ys := by
  induction xs generalizing ys with
  | nil => cases ys <;> simp [sameItems]
  | cons x xs ih =>
    cases ys with
    | nil => simp [sameItems]
    | cons y ys => rw [sameItems, Bool.and_eq_true, ih, List.forall₂_cons]

theorem same_list_iff {xs ys : List Datum} :
    (list xs).same (list ys) = true ↔ List.Forall₂ (fun x y => x.same y = true) xs ys := by
  rw [same, sameItems_iff]

theorem sameEntries_absent {es fs : Fields Datum} {key : String} (e : Datum)
    (absent : key ∉ es.keys) : sameEntries es ((key, e) :: fs) = sameEntries es fs := by
  induction es with
  | nil => rfl
  | cons f es ih =>
    obtain ⟨k, d⟩ := f
    have there : ¬(k == key) = true := fun same =>
      absent (List.mem_map.mpr ⟨(k, d), List.mem_cons_self, beq_iff_eq.mp same⟩)
    have rest : key ∉ Fields.keys es := fun mem => absent (List.mem_cons_of_mem k mem)
    rw [sameEntries, sameEntries, Fields.get?_cons, if_neg there, ih rest]

theorem sameEntries_iff {es fs : Fields Datum} (keys : es.keys = fs.keys)
    (distinct : es.keys.Nodup) :
    sameEntries es fs = true ↔ List.Forall₂ (fun e f => e.2.same f.2 = true) es fs := by
  induction es generalizing fs with
  | nil =>
    cases fs with
    | nil => simp [sameEntries]
    | cons f fs => cases keys
  | cons e es ih =>
    cases fs with
    | nil => cases keys
    | cons f fs =>
      obtain ⟨k, d⟩ := e
      obtain ⟨k', d'⟩ := f
      obtain ⟨here, rest⟩ := List.cons.inj keys
      obtain rfl : k = k' := here
      obtain ⟨absent, distinct⟩ := List.nodup_cons.mp distinct
      rw [sameEntries, Fields.get?_cons, if_pos (beq_self_eq_true k), sameEntries_absent d' absent,
        Bool.and_eq_true, ih rest distinct, List.forall₂_cons]

theorem same_object_iff {es fs : Fields Datum} (keys : es.keys = fs.keys)
    (distinct : es.keys.Nodup) : (object es).same (object fs) = true ↔
      List.Forall₂ (fun e f => e.2.same f.2 = true) es fs := by
  have lengths : (es.length == fs.length) = true := by
    have := congrArg List.length keys
    rwa [Fields.keys, Fields.keys, List.length_map, List.length_map, ← beq_iff_eq] at this
  rw [same, lengths, Bool.true_and, sameEntries_iff keys distinct]

inductive Comparable : Datum → Prop where
  | null : Comparable .null
  | undefined : Comparable .undefined
  | bool (b : Bool) : Comparable (.bool b)
  | number {n : Number} (h : (Datum.number n).same (.number n) = true) : Comparable (.number n)
  | text (s : String) : Comparable (.text s)
  | list {items : List Datum} (h : ∀ d ∈ items, Comparable d) : Comparable (.list items)
  | object {entries : Fields Datum} (distinct : entries.keys.Nodup)
    (h : ∀ e ∈ entries, Comparable e.2) : Comparable (.object entries)

namespace Comparable

theorem float {x : Float} (hx : x.isFinite = true) : Comparable (.float x) :=
  .number (same_self_float hx)

theorem int (n : Int) : Comparable (.int n) := .number (same_self_int n)

theorem same_self {d : Datum} (h : d.Comparable) : d.same d = true := by
  induction h with
  | null => rfl
  | undefined => rfl
  | bool b => cases b <;> rfl
  | number h => exact h
  | text s => exact beq_self_eq_true s
  | list _ ih => exact same_list_iff.mpr (List.forall₂_same.mpr ih)
  | object distinct _ ih => exact (same_object_iff rfl distinct).mpr (List.forall₂_same.mpr ih)

end Comparable

end Datum

end EmitterLogic
