import EmitterLogic.Datum.Basic
import Mathlib.Data.List.Induction
import Mathlib.Data.List.Nodup

namespace EmitterLogic.Fields

variable {α : Type}

theorem has_nil (key : String) : has ([] : Fields α) key = false := rfl

theorem has_cons (f : String × α) (fs : Fields α) (key : String) :
    has (f :: fs) key = (f.1 == key || has fs key) := List.any_cons

theorem has_iff_mem {fs : Fields α} {key : String} : fs.has key = true ↔ key ∈ fs.keys := by
  rw [has, List.any_eq_true, keys, List.mem_map]
  exact ⟨fun ⟨f, hf, e⟩ => ⟨f, hf, beq_iff_eq.mp e⟩, fun ⟨f, hf, e⟩ => ⟨f, hf, beq_iff_eq.mpr e⟩⟩

theorem get?_cons (f : String × α) (fs : Fields α) (key : String) :
    get? (f :: fs) key = if key == f.1 then some f.2 else fs.get? key := by
  obtain ⟨k, b⟩ := f
  rw [get?, List.lookup_cons]
  cases h : key == k with
  | true => rfl
  | false => rfl

theorem has_iff_get? {fs : Fields α} {key : String} :
    fs.has key = true ↔ ∃ a, fs.get? key = some a := by
  induction fs with
  | nil => exact ⟨nofun, nofun⟩
  | cons f fs ih =>
    rw [has_cons, get?_cons]
    by_cases here : f.1 = key
    · subst here
      simp
    · have there : ¬key = f.1 := fun e => here e.symm
      simp only [beq_iff_eq, here, there, if_false, Bool.or_eq_true, false_or, ih]

theorem mem_of_get? {fs : Fields α} {key : String} {a : α} (h : fs.get? key = some a) :
    (key, a) ∈ fs := by
  induction fs with
  | nil => cases h
  | cons f fs ih =>
    rw [get?_cons] at h
    split at h
    · next here =>
      cases h
      rw [beq_iff_eq.mp here]
      exact List.mem_cons_self
    · exact List.mem_cons_of_mem _ (ih h)

theorem has_put (fs : Fields α) (key other : String) (a : α) :
    (fs.put key a).has other = (key == other || fs.has other) := by
  induction fs with
  | nil => rfl
  | cons f fs ih =>
    obtain ⟨k, b⟩ := f
    rw [put]
    by_cases here : k = key
    · subst here
      rw [beq_self_eq_true, if_pos rfl, has_cons, has_cons, ← Bool.or_assoc, Bool.or_self]
    · have there : (k == key) = false := beq_eq_false_iff_ne.mpr here
      rw [there, if_neg Bool.false_ne_true, has_cons, has_cons, ih, Bool.or_left_comm]

theorem has_merge (fs gs : Fields α) (key : String) :
    (fs.merge gs).has key = (fs.has key || gs.has key) := by
  induction gs generalizing fs with
  | nil => rw [merge, List.foldl_nil, has_nil, Bool.or_false]
  | cons g gs ih =>
    have step : fs.merge (g :: gs) = (fs.put g.1 g.2).merge gs := rfl
    rw [step, ih, has_put, has_cons, Bool.or_assoc, Bool.or_left_comm]

theorem get?_eq_none_of_not_mem {fs : Fields α} {key : String} (h : key ∉ fs.keys) :
    fs.get? key = none := by
  cases found : fs.get? key with
  | none => rfl
  | some a => exact absurd (has_iff_mem.mp (has_iff_get?.mpr ⟨a, found⟩)) h

theorem get?_merge (fs : Fields α) {gs : Fields α} (distinct : gs.keys.Nodup) (key : String) :
    (fs.merge gs).get? key = (gs.get? key).or (fs.get? key) := by
  induction gs generalizing fs with
  | nil => rfl
  | cons g gs ih =>
    have step : fs.merge (g :: gs) = (fs.put g.1 g.2).merge gs := rfl
    have others := List.nodup_cons.mp distinct
    rw [step, ih _ others.2, get?_put, get?_cons]
    by_cases here : key = g.1
    · rw [here, get?_eq_none_of_not_mem others.1, beq_self_eq_true, if_pos rfl, if_pos rfl]
      rfl
    · rw [beq_eq_false_iff_ne.mpr here, if_neg Bool.false_ne_true, if_neg Bool.false_ne_true]

theorem forall_get?_put {P : α → Prop} {fs : Fields α} (h : ∀ key a, fs.get? key = some a → P a)
    {key : String} {a : α} (ha : P a) {other : String} {b : α}
    (hb : (fs.put key a).get? other = some b) : P b := by
  rw [get?_put] at hb
  split at hb
  · cases hb
    exact ha
  · exact h other b hb

theorem forall_put {P : α → Prop} {fs : Fields α} (h : ∀ f ∈ fs, P f.2) {a : α} (ha : P a) (key : String) :
    ∀ f ∈ fs.put key a, P f.2 := by
  induction fs with
  | nil => exact List.forall_mem_singleton.mpr ha
  | cons f fs ih =>
    obtain ⟨k, b⟩ := f
    rw [List.forall_mem_cons] at h
    rw [put]
    split
    · exact List.forall_mem_cons.mpr ⟨ha, h.2⟩
    · exact List.forall_mem_cons.mpr ⟨h.1, ih h.2⟩

theorem forall_merge {P : α → Prop} {fs gs : Fields α} (hf : ∀ f ∈ fs, P f.2)
    (hg : ∀ g ∈ gs, P g.2) : ∀ f ∈ fs.merge gs, P f.2 := by
  induction gs generalizing fs with
  | nil => exact hf
  | cons g gs ih =>
    rw [List.forall_mem_cons] at hg
    exact ih (forall_put hf hg.1 g.1) hg.2

end EmitterLogic.Fields

namespace EmitterLogic

variable {α : Type} [BEq α] [LawfulBEq α]

theorem eraseDups_concat (l : List α) (a : α) :
    (l ++ [a]).eraseDups = if a ∈ l then l.eraseDups else l.eraseDups ++ [a] := by
  rw [List.eraseDups_append]
  by_cases again : a ∈ l
  · rw [if_pos again, List.removeAll, List.filter_cons_of_neg (by simp [again])]
    simp
  · rw [if_neg again, List.removeAll, List.filter_cons_of_pos (by simp [again])]
    rfl

theorem nodup_eraseDups (l : List α) : l.eraseDups.Nodup := by
  induction l using List.reverseRecOn with
  | nil => exact List.nodup_nil
  | append_singleton l a ih =>
    rw [eraseDups_concat]
    split
    · exact ih
    · next fresh =>
      rw [List.nodup_append]
      refine ⟨ih, List.nodup_singleton a, fun b old c new same => ?_⟩
      rw [← same] at new
      rw [List.mem_singleton.mp new] at old
      exact fresh (List.mem_eraseDups.mp old)

theorem eraseDups_eq_self_iff {l : List α} : l.eraseDups = l ↔ l.Nodup := by
  constructor
  · intro same
    rw [← same]
    exact nodup_eraseDups l
  · intro distinct
    induction l using List.reverseRecOn with
    | nil => rfl
    | append_singleton l a ih =>
      rw [List.nodup_append] at distinct
      have fresh : a ∉ l := fun old => distinct.2.2 a old a List.mem_cons_self rfl
      rw [eraseDups_concat, if_neg fresh, ih distinct.1]

theorem eraseDups_filter (p : α → Bool) (l : List α) :
    (l.filter p).eraseDups = l.eraseDups.filter p := by
  induction l using List.reverseRecOn with
  | nil => rfl
  | append_singleton l a ih =>
    rw [List.filter_append, eraseDups_concat]
    by_cases wanted : p a = true
    · rw [List.filter_cons_of_pos wanted, List.filter_nil, eraseDups_concat, ih]
      by_cases old : a ∈ l
      · rw [if_pos old, if_pos (List.mem_filter.mpr ⟨old, wanted⟩)]
      · rw [if_neg old, if_neg fun again => old (List.mem_filter.mp again).1, List.filter_append,
          List.filter_cons_of_pos wanted, List.filter_nil]
    · rw [List.filter_cons_of_neg wanted, List.filter_nil, List.append_nil, ih]
      split
      · rfl
      · rw [List.filter_append, List.filter_cons_of_neg wanted, List.filter_nil, List.append_nil]

end EmitterLogic
