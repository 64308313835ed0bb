import EmitterLogic.Proofs.Script.Compatible
import EmitterLogic.Proofs.Script.Memory
import EmitterLogic.Proofs.Script.Overreach

namespace EmitterLogic.Script

open Event

variable {σ α β : Type}

def Value.InRange (v : Value) : Prop := ∃ x, v.toNumber = .ok x

def Interrupt.Fits (E : Prop) : Interrupt → Prop
  | .fault f => f = .infinite ∧ E
  | .returned v => v.InRange ∧ ¬E
  | .thrown v _ => v.InRange ∧ ¬E
  | _ => ¬E

def Ends (E : Prop) (Q : α → Prop) : Except Interrupt α → Prop
  | .ok a => Q a ∧ ¬E
  | .error i => i.Fits E

def Sound (H : σ → Prop) (E : Event σ) (Q : α → Prop) (r : Run σ α) : Prop :=
  ∀ m, m.Holds Value.InRange H → Ends (E m) Q (r m).1 ∧ (r m).2.Holds Value.InRange H

namespace Event

variable {E : Event σ} {x : Run σ α} {F : α → Event σ} {m last : Machine σ} {a : α} {i : Interrupt}

theorem after_of_ok (ran : x m = (.ok a, last)) : after x F m ↔ F a last := by
  constructor
  · rintro ⟨b, other, h, event⟩
    rw [ran] at h
    cases h
    exact event
  · intro event
    exact ⟨a, last, ran, event⟩

theorem after_of_error (ran : x m = (.error i, last)) : ¬after x F m := by
  rintro ⟨b, other, h, _⟩
  rw [ran] at h
  cases h

theorem orAfter_of_ok (ran : x m = (.ok a, last)) (none : ¬E m) :
    E.orAfter x F m ↔ F a last := by
  rw [orAfter, after_of_ok ran]
  exact or_iff_right none

theorem orAfter_of_error (ran : x m = (.error i, last)) : E.orAfter x F m ↔ E m :=
  or_iff_left (after_of_error ran)

theorem never_orAfter : never.orAfter x F m ↔ after x F m := by
  rw [orAfter]
  exact or_iff_right not_false

theorem orAfter_never : (E.orAfter x fun _ => never) m ↔ E m := by
  refine or_iff_left ?_
  rintro ⟨_, _, _, event⟩
  exact event

end Event

namespace Ends

variable {E F : Prop} {Q : α → Prop} {r : Except Interrupt α}

theorem congr (h : Ends E Q r) (same : E ↔ F) : Ends F Q r := propext same ▸ h

theorem error_cases {i : Interrupt} (h : i.Fits E) :
    (i = .fault .infinite ∧ E) ∨ ((∀ f, i ≠ .fault f) ∧ ¬E) := by
  cases i with
  | fault f => exact .inl ⟨congrArg Interrupt.fault h.1, h.2⟩
  | returned v => exact .inr ⟨nofun, h.2⟩
  | thrown v text => exact .inr ⟨nofun, h.2⟩
  | _ => exact .inr ⟨nofun, h⟩

theorem none_of_caught {i : Interrupt} {v : Value} (h : i.Fits E) (caught : i.caught? = some v) :
    v.InRange ∧ ¬E := by
  cases i with
  | thrown w text =>
    cases caught
    exact h
  | failed e =>
    cases e with
    | stackExhausted => cases caught
    | _ =>
      cases caught
      exact ⟨⟨_, rfl⟩, h⟩
  | _ => cases caught

end Ends

namespace Sound

variable {H : σ → Prop} {E : Event σ} {Q : α → Prop} {R : β → Prop} {x : Run σ α}
  {f : α → Run σ β} {F : α → Event σ}

theorem congr {E' : Event σ} (h : Sound H E Q x) (same : ∀ m, E m ↔ E' m) : Sound H E' Q x :=
  fun m held => ⟨(h m held).1.congr (same m), (h m held).2⟩

theorem value {a : α} (h : Q a) : Sound H never Q (pure a) := fun _ held => ⟨⟨h, not_false⟩, held⟩

theorem raise {i : Interrupt} (h : i.Fits False) : Sound H never Q (throw i) :=
  fun _ held => ⟨h, held⟩

theorem failed (e : RuntimeError) : Sound H never Q (fail e) := raise not_false

theorem ok {e : Except Fault α} {a : α} (h : e = .ok a) (ha : Q a) : Sound H never Q (orFault e) := by
  rw [h]
  exact value ha

theorem change {g : Machine σ → Machine σ}
    (h : ∀ m, m.Holds Value.InRange H → (g m).Holds Value.InRange H) :
    Sound H never (fun _ => True) (modify g) :=
  fun m held => ⟨⟨trivial, not_false⟩, h m held⟩

theorem look {g : Machine σ → Run σ α}
    (h : ∀ m, m.Holds Value.InRange H → Sound H E Q (g m)) : Sound H E Q (get >>= g) :=
  fun m held => h m held m held

theorem seq (hx : Sound H E Q x) (hf : ∀ a, Q a → Sound H (F a) R (f a)) :
    Sound H (E.orAfter x F) R (x >>= f) := by
  intro m held
  obtain ⟨ends, after⟩ := hx m held
  rcases ran : x m with ⟨result, last⟩
  rw [ran] at ends after
  cases result with
  | error i =>
    rw [seq_error ran]
    exact ⟨Ends.congr (r := .error i) ends (orAfter_of_error ran).symm, after⟩
  | ok a =>
    rw [seq_ok ran]
    obtain ⟨ends', after'⟩ := hf a ends.1 last after
    exact ⟨ends'.congr (orAfter_of_ok ran ends.2).symm, after'⟩

theorem next (hx : Sound H never Q x) (hf : ∀ a, Q a → Sound H (F a) R (f a)) :
    Sound H (after x F) R (x >>= f) :=
  (hx.seq hf).congr fun _ => never_orAfter

theorem close (hx : Sound H E Q x) (hf : ∀ a, Q a → Sound H never R (f a)) :
    Sound H E R (x >>= f) :=
  (hx.seq hf).congr fun _ => orAfter_never

theorem past {P : Prop} (h : Sound H (fun _ => P) Q x) :
    Sound H (fun _ => P) (fun a => Q a ∧ ¬P) x := by
  intro m held
  obtain ⟨ends, after⟩ := h m held
  refine ⟨?_, after⟩
  rcases ran : (x m).1 with i | a
  · rw [ran] at ends
    exact ends
  · rw [ran] at ends
    exact ⟨ends, ends.2⟩

theorem choose {E' : Event σ} {x' : Run σ α} (b : Bool) (h : Sound H E Q x)
    (h' : Sound H E' Q x') : Sound H (if b then E else E') Q (if b then x else x') := by
  cases b with
  | true => exact h
  | false => exact h'

theorem either {x' : Run σ α} (c : Prop) [Decidable c] (h : Sound H E Q x) (h' : Sound H E Q x') :
    Sound H E Q (if c then x else x') := by
  split
  · exact h
  · exact h'

theorem stepped (limit : Nat) : Sound H never (fun _ => True) (step limit) := by
  intro m held
  have kept : (step limit m).2.Holds Value.InRange H := held.of_memory rfl rfl rfl held.host
  refine ⟨?_, kept⟩
  simp only [step]
  split
  · exact not_false
  · exact ⟨trivial, not_false⟩

theorem exhausted (limit : Nat) :
    Sound H never Q (step limit >>= fun _ => throw .outOfFuel : Run σ α) :=
  (stepped limit).close fun _ _ => raise not_false

theorem deeper (h : Sound H E Q x) :
    Sound H (fun m => E { m with depth := m.depth + 1 }) Q (deeper x) := by
  intro m held
  obtain ⟨ends, after⟩ := h { m with depth := m.depth + 1 } (held.of_memory rfl rfl rfl held.host)
  exact ⟨ends, after.of_memory rfl rfl rfl after.host⟩

theorem ending {op : Run σ α → Run σ β} (hop : Ending op) (h : Sound H E Q x)
    (result : ∀ m, Ends (E m) Q (x m).1 → Ends (E m) R (op x m).1) : Sound H E R (op x) := by
  intro m held
  obtain ⟨ends, after⟩ := h m held
  rw [hop.keeps x m]
  exact ⟨result m ends, after⟩

theorem outside (h : Sound H E Q x) : Sound H E Q (outside x) := by
  intro m held
  obtain ⟨ends, after⟩ := h m held
  exact ⟨ends, held.of_memory rfl rfl rfl after.host⟩

section Bodies

variable {body : Run σ Unit} {B : Event σ} (h : Sound H B (fun _ => True) body)
include h

theorem goesOn : Sound H B (fun _ => True) (goesOn body) := by
  refine h.ending goesOn_ending fun m ends => ?_
  rcases ran : body m with ⟨result, last⟩
  rw [ran] at ends
  simp only [Script.goesOn, ran]
  cases result with
  | ok u => exact ends
  | error i =>
    cases i with
    | breaking => exact ⟨trivial, ends⟩
    | continuing => exact ⟨trivial, ends⟩
    | _ => exact ends

theorem bodyValue : Sound H B Value.InRange (bodyValue body) := by
  refine h.ending bodyValue_ending fun m ends => ?_
  rcases ran : body m with ⟨result, last⟩
  rw [ran] at ends
  simp only [Script.bodyValue, ran]
  cases result with
  | ok u => exact ⟨⟨_, rfl⟩, ends.2⟩
  | error i =>
    cases i with
    | returned v =>
      cases v with
      | null => exact ⟨⟨_, rfl⟩, ends.2⟩
      | _ => exact ends
    | _ => exact ends

theorem scriptValue : Sound H B Value.InRange (scriptValue body) := by
  refine h.ending scriptValue_ending fun m ends => ?_
  rcases ran : body m with ⟨result, last⟩
  rw [ran] at ends
  simp only [Script.scriptValue, ran]
  cases result with
  | ok u => exact ⟨⟨_, rfl⟩, ends.2⟩
  | error i => cases i <;> exact ends

theorem handled {handler : Value → Run σ Unit} {C : Value → Event σ}
    (hc : ∀ v, v.InRange → Sound H (C v) (fun _ => True) (handler v)) :
    Sound H (handledOverreaches body B C) (fun _ => True) (handled body (some handler)) := by
  intro m held
  obtain ⟨ends, after⟩ := h m held
  rcases ran : body m with ⟨result, last⟩
  rw [ran] at ends after
  have event : handledOverreaches body B C m ↔
      B m ∨ ∃ i v, result = .error i ∧ i.caught? = some v ∧ C v last := by
    rw [handledOverreaches, ran]
    refine or_congr_right ⟨?_, ?_⟩
    · rintro ⟨i, v, other, same, caught, late⟩
      cases same
      exact ⟨i, v, rfl, caught, late⟩
    · rintro ⟨i, v, rfl, caught, late⟩
      exact ⟨i, v, last, rfl, caught, late⟩
  cases result with
  | ok u =>
    simp only [Script.handled, ran]
    refine ⟨Ends.congr (r := .ok u) ends ?_, after⟩
    rw [event]
    refine (or_iff_left ?_).symm
    rintro ⟨i, v, same, _⟩
    cases same
  | error i =>
    cases caught : i.caught? with
    | none =>
      simp only [Script.handled, ran, caught]
      refine ⟨Ends.congr (r := .error i) ends ?_, after⟩
      rw [event]
      refine (or_iff_left ?_).symm
      rintro ⟨j, v, same, some, _⟩
      cases same
      rw [caught] at some
      cases some
    | some v =>
      simp only [Script.handled, ran, caught]
      obtain ⟨range, none⟩ := Ends.none_of_caught ends caught
      obtain ⟨ends', after'⟩ := hc v range last after
      refine ⟨ends'.congr ?_, after'⟩
      rw [event, or_iff_right none]
      constructor
      · intro late
        exact ⟨i, v, rfl, caught, late⟩
      · rintro ⟨j, w, same, some, late⟩
        cases same
        rw [caught] at some
        cases some
        exact late

theorem finalized {closing : Run σ Unit} {L : Event σ}
    (hl : Sound H L (fun _ => True) closing) :
    Sound H (finalizedOverreaches body B (some closing) L) (fun _ => True)
      (finalized body (some closing)) := by
  intro m held
  obtain ⟨ends, after⟩ := h m held
  rcases ran : body m with ⟨result, last⟩
  rw [ran] at ends after
  have event : finalizedOverreaches body B (some closing) L m ↔
      result ≠ .error .outOfFuel ∧ (L last ∨ B m ∧ (closing last).1 = .ok ()) := by
    simp only [finalizedOverreaches, ran]
    constructor
    · rintro ⟨other, end', same, rest⟩
      cases same
      exact rest
    · intro rest
      exact ⟨result, last, rfl, rest⟩
  by_cases spent : result = .error .outOfFuel
  · subst spent
    simp only [Script.finalized, ran]
    exact ⟨fun late => (event.mp late).1 rfl, after⟩
  obtain ⟨ends', after'⟩ := hl last after
  rcases closed : closing last with ⟨result', done⟩
  rw [closed] at ends' after' event
  cases result' with
  | ok u =>
    rw [finalized_ok ran spent closed]
    refine ⟨ends.congr ?_, after'⟩
    rw [event, or_iff_right ends'.2, and_iff_left rfl, and_iff_right spent]
  | error i =>
    have other : ¬(B m ∧ (Except.error i : Except Interrupt Unit) = .ok ()) := fun e => by
      cases e.2
    rw [finalized_error ran spent closed]
    refine ⟨Ends.congr (r := .error i) ends' ?_, after'⟩
    rw [event, or_iff_left other, and_iff_right spent]

end Bodies

end Sound

end EmitterLogic.Script
