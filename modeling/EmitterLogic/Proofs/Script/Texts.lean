import EmitterLogic.Proofs.Fault
import EmitterLogic.Script.Machine
import Mathlib.Data.List.Perm.Subperm

namespace EmitterLogic

section Attempts

variable {α β ε : Type} {f g : α → Except ε β} {l : List α} {e : ε}

theorem mapM_of_settled (agree : ∀ a ∈ l, f a ≠ .error e → g a = f a) (settled : l.mapM f ≠ .error e) :
    l.mapM g = l.mapM f := by
  induction l with
  | nil => rfl
  | cons a l ih =>
    rw [List.forall_mem_cons] at agree
    rw [List.mapM_cons] at settled
    rw [List.mapM_cons, List.mapM_cons]
    cases first : f a with
    | error e' =>
      have other : f a ≠ .error e := fun same => settled (by rw [same]; rfl)
      rw [agree.1 other, first]
      rfl
    | ok b =>
      rw [agree.1 (by rw [first]; exact nofun), first]
      rw [first, bind_of_ok rfl] at settled
      have rest : l.mapM f ≠ .error e := fun same => settled (by rw [same]; rfl)
      rw [bind_of_ok rfl, bind_of_ok rfl, ih agree.2 rest]

theorem exists_settled_of_mapM (agree : ∀ a ∈ l, f a ≠ .error e → g a = f a)
    (failed : l.mapM f = .error e) (settled : l.mapM g ≠ .error e) :
    ∃ a ∈ l, f a = .error e ∧ g a ≠ .error e := by
  by_contra none
  push Not at none
  have back : ∀ a ∈ l, g a ≠ .error e → f a = g a := by
    intro a member other
    have here : f a ≠ .error e := fun same => other (none a member same)
    exact (agree a member here).symm
  exact settled ((mapM_of_settled back settled).symm.trans failed)

end Attempts

namespace Script

variable {σ : Type} {m : Machine σ} {v : Value} {place n k : Nat}

namespace Machine

def itemWithin (m : Machine σ) (n : Nat) (v : Value) : Except Unspelled String :=
  if v.isNothing then .ok "" else m.textWithin n v

theorem itemWithin_endless (h : m.itemWithin n v = .error .endless) :
    v.isNothing = false ∧ m.textWithin n v = .error .endless := by
  rw [itemWithin] at h
  split at h
  · cases h
  · next some => exact ⟨Bool.eq_false_iff.mpr some, h⟩

theorem textWithin_list (m : Machine σ) (n place : Nat) : m.textWithin (n + 1) (.list place) =
    ((m.list place).toList.mapM (m.itemWithin n)).map (String.intercalate ",") := by
  rw [textWithin]
  change (List.mapM (m.itemWithin n) _ >>= _) = _
  cases (m.list place).toList.mapM (m.itemWithin n) with
  | ok texts => rfl
  | error e => rfl

/-- Does it turn out what the text of a value is, with lists looked through so deep? -/
def Settles (m : Machine σ) (n : Nat) (v : Value) : Prop := m.textWithin n v ≠ .error .endless

theorem settles_list : m.Settles (n + 1) (.list place) ↔
    (m.list place).toList.mapM (m.itemWithin n) ≠ .error .endless := by
  rw [Settles, textWithin_list]
  cases (m.list place).toList.mapM (m.itemWithin n) with
  | ok texts => exact iff_of_true nofun nofun
  | error e => exact not_congr ⟨fun same => congrArg _ (Except.error.inj same),
      fun same => congrArg _ (Except.error.inj same)⟩

theorem Settles.textWithin_eq (settled : m.Settles n v) (le : n ≤ k) :
    m.textWithin k v = m.textWithin n v := by
  induction n generalizing k v with
  | zero =>
    cases v with
    | list place => exact absurd rfl settled
    | _ => cases k <;> rfl
  | succ n ih =>
    obtain ⟨d, rfl⟩ := Nat.exists_eq_add_of_lt le
    cases v with
    | list place =>
      rw [textWithin_list, textWithin_list]
      refine congrArg _ (mapM_of_settled (fun w _ other => ?_) (settles_list.mp settled))
      rw [itemWithin, itemWithin]
      split
      · rfl
      · next some =>
        rw [itemWithin, if_neg some] at other
        exact ih other (Nat.le_add_right n d)
    | _ => rfl

theorem Settles.mono (settled : m.Settles n v) (le : n ≤ k) : m.Settles k v := by
  rw [Settles, settled.textWithin_eq le]
  exact settled

/-- How deep one has to look through a list and no deeper. -/
def Height (m : Machine σ) (place n : Nat) : Prop :=
  m.Settles (n + 1) (.list place) ∧ ¬m.Settles n (.list place)

theorem Height.unique {n' : Nat} (h : m.Height place n) (h' : m.Height place n') : n = n' := by
  apply Nat.le_antisymm
  · exact Nat.le_of_not_lt fun below => h.2 (h'.1.mono below)
  · exact Nat.le_of_not_lt fun below => h'.2 (h.1.mono below)

theorem exists_height (settled : m.Settles (n + 1) v) (unsettled : ¬m.Settles n v) :
    ∃ place, v = .list place ∧ m.Height place n := by
  cases v with
  | list place => exact ⟨place, rfl, settled, unsettled⟩
  | _ =>
    refine absurd ?_ unsettled
    cases n <;> exact settled

theorem Height.exists_below (h : m.Height place (n + 1)) :
    place < m.lists.size ∧ ∃ below, m.Height below n := by
  obtain ⟨settled, unsettled⟩ := h
  rw [settles_list] at settled
  rw [settles_list, not_not] at unsettled
  have agree : ∀ v ∈ (m.list place).toList, m.itemWithin n v ≠ .error .endless →
      m.itemWithin (n + 1) v = m.itemWithin n v := by
    intro v _ other
    rw [itemWithin, itemWithin]
    split
    · rfl
    · next some =>
      rw [itemWithin, if_neg some] at other
      exact Settles.textWithin_eq other (Nat.le_succ n)
  obtain ⟨v, member, failed, found⟩ := exists_settled_of_mapM agree unsettled settled
  obtain ⟨some, endless⟩ := itemWithin_endless failed
  rw [itemWithin, some] at found
  obtain ⟨below, -, height⟩ := exists_height found (not_not.mpr endless)
  refine ⟨?_, below, height⟩
  by_contra beyond
  rw [Machine.list, Array.getElem?_eq_none (Nat.le_of_not_lt beyond)] at member
  cases member

theorem Height.exists_places (h : m.Height place n) :
    ∃ places : List Nat, places.length = n ∧ places.Nodup ∧
      ∀ p ∈ places, p < m.lists.size ∧ ∃ k ≤ n, m.Height p k := by
  -- Along the height: every list of the chain is higher than those behind it.
  induction n generalizing place with
  | zero => exact ⟨[], rfl, List.nodup_nil, List.forall_mem_nil _⟩
  | succ n ih =>
    obtain ⟨within, below, height⟩ := h.exists_below
    obtain ⟨places, length, nodup, all⟩ := ih height
    refine ⟨place :: places, congrArg Nat.succ length, List.nodup_cons.mpr ⟨fun again => ?_, nodup⟩,
      List.forall_mem_cons.mpr ⟨⟨within, n + 1, Nat.le_refl _, h⟩, fun p member => ?_⟩⟩
    · obtain ⟨-, k, le, height'⟩ := all place again
      have same := h.unique height'
      omega
    · obtain ⟨within', k, le, height'⟩ := all p member
      exact ⟨within', k, Nat.le_succ_of_le le, height'⟩

theorem Height.le_size (h : m.Height place n) : n ≤ m.lists.size := by
  obtain ⟨places, length, nodup, all⟩ := h.exists_places
  have inside : places ⊆ List.range m.lists.size := fun p member =>
    List.mem_range.mpr (all p member).1
  have bound := (nodup.subperm inside).length_le
  rwa [length, List.length_range] at bound

theorem Settles.textOf (settled : m.Settles n v) : m.Settles (m.lists.size + 1) v := by
  induction n with
  | zero => exact settled.mono (Nat.zero_le _)
  | succ n ih =>
    by_cases earlier : m.Settles n v
    · exact ih earlier
    · obtain ⟨place, rfl, height⟩ := exists_height settled earlier
      exact settled.mono (Nat.succ_le_succ height.le_size)

end Machine

/-- The depth to which texts are looked for is enough: a text that is not found has no end. -/
theorem textOf_endless_iff :
    m.textOf v = .error .endless ↔ ∀ n, m.textWithin n v = .error .endless := by
  constructor
  · intro endless n
    by_contra settled
    exact Machine.Settles.textOf settled endless
  · intro endless
    exact endless _

theorem textOf_eq (settled : m.textWithin n v ≠ .error .endless) : m.textOf v = m.textWithin n v := by
  have enough : m.Settles (m.lists.size + 1) v := Machine.Settles.textOf settled
  rcases Nat.le_total n (m.lists.size + 1) with le | le
  · exact Machine.Settles.textWithin_eq settled le
  · exact (enough.textWithin_eq le).symm

end Script

end EmitterLogic
