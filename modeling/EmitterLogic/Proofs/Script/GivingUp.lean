import EmitterLogic.Proofs.Script.Compatible

namespace EmitterLogic.Script

variable {σ α β : Type}

/-- Ends a run for good. -/
def giveUp : Run σ α := throw .outOfFuel

/-- Does a run end for want of fuel? -/
def spent : Except Interrupt α → Bool
  | .error .outOfFuel => true
  | _ => false

theorem spent_iff {r : Except Interrupt α} : spent r = true ↔ r = .error .outOfFuel := by
  constructor
  · intro h
    cases r with
    | ok a => cases h
    | error i =>
      cases i with
      | outOfFuel => rfl
      | _ => cases h
  · rintro rfl
    rfl

def Abridges : RunRel σ := fun _ _ _ r r' => ∀ m, (r m).1 = .error .outOfFuel ∨ r' m = r m

namespace Abridges

variable {n : Nat} {s : Standing}

theorem refl (r : Run σ α) : Abridges n s r r := fun _ => .inr rfl

theorem givenUp (r : Run σ α) : Abridges n s giveUp r := fun _ => .inl rfl

theorem eq_of_not_spent {r r' : Run σ α} {m : Machine σ} (h : Abridges n s r r')
    (goes : spent (r m).1 = false) : r' m = r m := by
  rcases h m with out | same
  · rw [spent_iff.mpr out] at goes
    cases goes
  · exact same

theorem look {f f' : Machine σ → Run σ α} (h : ∀ m, Abridges n s (f m) (f' m)) :
    Abridges n s (get >>= f) (get >>= f') := fun m => h m m

theorem seq {x x' : Run σ α} {f f' : α → Run σ β} (hx : Abridges n s x x')
    (hf : ∀ a, Abridges n s (f a) (f' a)) : Abridges n s (x >>= f) (x' >>= f') := by
  intro m
  rcases h : x m with ⟨result, after⟩
  rcases hx m with out | same
  · rw [h] at out
    cases out
    exact .inl (congrArg Prod.fst (seq_error h))
  · rw [h] at same
    cases result with
    | error i => exact .inr ((seq_error same).trans (seq_error h).symm)
    | ok a =>
      rw [seq_ok h, seq_ok same]
      exact hf a after

theorem sequential : Sequential (Abridges : RunRel σ) where
  value _ := refl _
  raise _ _ _ _ := refl _
  seq := seq
  look _ := look

theorem ending {op : Run σ α → Run σ β} (hop : Ending op) {x x' : Run σ α}
    (h : Abridges n s x x') : Abridges n s (op x) (op x') := fun m =>
  (h m).imp (hop.fueled x m).mpr (hop.only x x' m)

theorem handled {x x' : Run σ Unit} {f f' : Value → Run σ Unit} (hx : Abridges n s x x')
    (hf : ∀ v, Abridges n s (f v) (f' v)) :
    Abridges n s (handled x (some f)) (handled x' (some f')) := by
  intro m
  rcases h : x m with ⟨result, after⟩
  rcases hx m with out | same
  · rw [h] at out
    cases out
    simp only [Script.handled, h]
    exact .inl rfl
  · rw [h] at same
    cases result with
    | ok u =>
      simp only [Script.handled, h, same]
      exact .inr trivial
    | error i =>
      cases caught : i.caught? with
      | none =>
        simp only [Script.handled, h, same, caught]
        exact .inr trivial
      | some v =>
        simp only [Script.handled, h, same, caught]
        exact hf v after

theorem finalized {x x' last last' : Run σ Unit} (hx : Abridges n s x x')
    (hlast : Abridges n s last last') :
    Abridges n s (finalized x (some last)) (finalized x' (some last')) := by
  intro m
  rcases h : x m with ⟨result, after⟩
  by_cases out : result = .error .outOfFuel
  · subst out
    simp only [Script.finalized, h]
    exact .inl trivial
  · have same : x' m = (result, after) := by
      rcases hx m with gone | same
      · rw [h] at gone
        exact absurd gone out
      · exact same.trans h
    rcases e : last after with ⟨result', done⟩
    rcases hlast after with gone | same'
    · rw [e] at gone
      cases gone
      exact .inl (congrArg Prod.fst (finalized_error h out e))
    · rw [e] at same'
      cases result' with
      | ok u => exact .inr ((finalized_ok same out same').trans (finalized_ok h out e).symm)
      | error i => exact .inr ((finalized_error same out same').trans (finalized_error h out e).symm)

theorem deeper {x x' : Run σ α} (h : Abridges n s x x') :
    Abridges n s (deeper x) (deeper x') := by
  intro m
  refine (h { m with depth := m.depth + 1 }).imp id fun same => ?_
  simp only [Script.deeper, same]

end Abridges

theorem abridges_compatible (host : Host σ) (limit k : Nat) :
    Compatible host host limit limit k (fun _ => True) Abridges where
  toSequential := Abridges.sequential
  has_eq := rfl
  count := .refl _
  list _ := .refl _
  object _ := .refl _
  closure _ := .refl _
  binds _ _ _ _ := .refl _
  reads _ := .refl _
  writes _ _ := .refl _
  writesMember _ _ _ := .refl _
  native _ _ _ := .refl _
  leaves _ _ _ := .refl _
  counted h := (Abridges.refl _).seq fun _ => h
  exhausted x' _ := (Abridges.refl _).seq fun _ => .givenUp x'
  lower h := h
  round h := h.ending goesOn_ending
  body h := h.ending bodyValue_ending
  handle := Abridges.handled
  finish hx hlast := hx.finalized ((Abridges.refl _).seq fun _ => hlast)
  scope h := (Abridges.refl _).seq h
  enters _ h := (Abridges.refl _).seq h
  inner h := h.deeper
  passes h := h
  known _ h := Abridges.look fun m => h m fun _ _ => trivial

theorem runWith_abridges (host : Host σ) (limit n k : Nat) (p : Program) :
    Abridges n { env := rootEnv } (runWith host limit n p) (runWith host limit (n + k) p) :=
  ((abridges_compatible host limit k).script n p.body).ending scriptValue_ending

theorem runWith_of_not_spent {host : Host σ} {limit n more : Nat} {p : Program} {m : Machine σ}
    (goes : spent (runWith host limit n p m).1 = false) (le : n ≤ more) :
    runWith host limit more p m = runWith host limit n p m := by
  obtain ⟨k, rfl⟩ := Nat.exists_eq_add_of_le le
  exact (runWith_abridges host limit n k p).eq_of_not_spent goes

end EmitterLogic.Script
