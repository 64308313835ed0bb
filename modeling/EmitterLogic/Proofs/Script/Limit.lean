import EmitterLogic.Proofs.Script.Fence

/-!
The limit of steps cannot be observed below it. Two runs under different limits differ in one test of
the counter; as long as both limits leave room for the steps that are taken, they do the same.
-/

namespace EmitterLogic.Script

variable {σ α β : Type}

/-- A limit that lets `B` steps be taken; zero is no limit. -/
def Allows (limit B : Nat) : Prop := limit = 0 ∨ B ≤ limit

def AlikeWithin (B : Nat) : RunRel σ := fun n _ _ r r' =>
  ∀ m, B < m.steps + n → m.steps ≤ (r m).2.steps ∧ ((r m).2.steps ≤ B → r' m = r m)

theorem step_steps (limit : Nat) (m : Machine σ) : (step limit m).2.steps = m.steps + 1 := rfl

theorem step_allowed {limit B : Nat} (h : Allows limit B) {m : Machine σ} (within : m.steps + 1 ≤ B) :
    step limit m = (.ok (), { m with steps := m.steps + 1 }) := by
  have stays : ¬((limit != 0 && decide (limit < m.steps + 1)) = true) := by
    rw [Bool.and_eq_true, bne_iff_ne, decide_eq_true_eq]
    rintro ⟨some, beyond⟩
    rcases h with none | room
    · exact some none
    · omega
  simp only [step]
  rw [if_neg stays]

namespace AlikeWithin

section Pieces

variable {B n : Nat} {s : Standing}

theorem of_steps {r : Run σ α} (h : ∀ m, (r m).2.steps = m.steps) : AlikeWithin B n s r r := by
  intro m _
  exact ⟨Nat.le_of_eq (h m).symm, fun _ => rfl⟩

theorem seq {x x' : Run σ α} {f f' : α → Run σ β} (hx : AlikeWithin B n s x x')
    (hf : ∀ a, AlikeWithin B n s (f a) (f' a)) : AlikeWithin B n s (x >>= f) (x' >>= f') := by
  intro m fuel
  obtain ⟨grows, same⟩ := hx m fuel
  rcases h : x m with ⟨result, after⟩
  rw [h] at grows same
  cases result with
  | error i =>
    rw [seq_error h]
    exact ⟨grows, fun within => seq_error (same within)⟩
  | ok a =>
    obtain ⟨grows', same'⟩ := hf a after (by simp only at grows; omega)
    rw [seq_ok h]
    refine ⟨Nat.le_trans grows grows', fun within => ?_⟩
    rw [seq_ok (same (Nat.le_trans grows' within))]
    exact same' within

theorem look {f f' : Machine σ → Run σ α} (h : ∀ m, AlikeWithin B n s (f m) (f' m)) :
    AlikeWithin B n s (get >>= f) (get >>= f') := by
  intro m fuel
  exact h m m fuel

theorem sequential : Sequential (AlikeWithin B : RunRel σ) where
  value _ := of_steps fun _ => rfl
  raise _ _ _ _ := of_steps fun _ => rfl
  seq := seq
  look _ := look

theorem lower {x x' : Run σ α} (h : AlikeWithin B (n + 1) s x x') : AlikeWithin B n s x x' := by
  intro m fuel
  exact h m (by omega)

theorem exhausted {limit : Nat} (x' : Run σ α) :
    AlikeWithin B 0 s (step limit >>= fun _ => throw .outOfFuel) x' := by
  intro m fuel
  have taken : (step limit m).2.steps = m.steps + 1 := step_steps limit m
  rcases h : step limit m with ⟨result, after⟩
  rw [h] at taken
  have ends : ((step limit >>= fun _ => throw .outOfFuel : Run σ α) m).2 = after := by
    cases result with
    | ok u => rw [seq_ok h]; rfl
    | error i => rw [seq_error h]
  rw [ends]
  simp only at taken
  exact ⟨by omega, fun within => by omega⟩

theorem deeper {x x' : Run σ α} (h : AlikeWithin B n s x x') :
    AlikeWithin B n s (deeper x) (deeper x') := by
  intro m fuel
  obtain ⟨grows, same⟩ := h { m with depth := m.depth + 1 } fuel
  refine ⟨grows, fun within => ?_⟩
  simp only [Script.deeper, same within]

theorem ending {op : Run σ α → Run σ β} (hop : Ending op) {x x' : Run σ α}
    (h : AlikeWithin B n s x x') : AlikeWithin B n s (op x) (op x') := by
  intro m fuel
  obtain ⟨grows, same⟩ := h m fuel
  rw [hop.keeps x m]
  exact ⟨grows, fun within => hop.only x x' m (same within)⟩

theorem handled {x x' : Run σ Unit} {f f' : Value → Run σ Unit} (hx : AlikeWithin B n s x x')
    (hf : ∀ v, AlikeWithin B n s (f v) (f' v)) :
    AlikeWithin B n s (handled x (some f)) (handled x' (some f')) := by
  intro m fuel
  obtain ⟨grows, same⟩ := hx m fuel
  rcases h : x m with ⟨result, after⟩
  rw [h] at grows same
  cases result with
  | ok u =>
    simp only [Script.handled, h]
    exact ⟨grows, fun within => by simp only [same within]⟩
  | error i =>
    cases caught : i.caught? with
    | none =>
      simp only [Script.handled, h, caught]
      exact ⟨grows, fun within => by simp only [same within, caught]⟩
    | some v =>
      obtain ⟨grows', same'⟩ := hf v after (by simp only at grows; omega)
      simp only [Script.handled, h, caught]
      refine ⟨Nat.le_trans grows grows', fun within => ?_⟩
      simp only [same (Nat.le_trans grows' within), caught]
      exact same' within

theorem finalized {x x' last last' : Run σ Unit} (hx : AlikeWithin B n s x x')
    (hlast : AlikeWithin B n s last last') :
    AlikeWithin B n s (finalized x (some last)) (finalized x' (some last')) := by
  intro m fuel
  obtain ⟨grows, same⟩ := hx m fuel
  rcases h : x m with ⟨result, after⟩
  rw [h] at grows same
  by_cases spent : result = .error .outOfFuel
  · subst spent
    simp only [Script.finalized, h]
    exact ⟨grows, fun within => by simp only [same within]⟩
  obtain ⟨grows', same'⟩ := hlast after (by simp only at grows; omega)
  rcases e : last after with ⟨result', done⟩
  rw [e] at grows' same'
  cases result' with
  | ok u =>
    rw [finalized_ok h spent e]
    exact ⟨Nat.le_trans grows grows', fun within =>
      finalized_ok (same (Nat.le_trans grows' within)) spent (same' within)⟩
  | error i =>
    rw [finalized_error h spent e]
    exact ⟨Nat.le_trans grows grows', fun within =>
      finalized_error (same (Nat.le_trans grows' within)) spent (same' within)⟩

end Pieces

section Counting

variable {limit limit' B n : Nat} {s : Standing} (h : Allows limit B) (h' : Allows limit' B)
include h h'

theorem count : AlikeWithin (σ := σ) B n s (step limit) (step limit') := by
  intro m _
  refine ⟨Nat.le_succ _, fun within => ?_⟩
  rw [step_allowed h within, step_allowed h' within]

theorem counted {x x' : Run σ α} (hx : AlikeWithin B n s x x') :
    AlikeWithin B (n + 1) s (step limit >>= fun _ => x) (step limit' >>= fun _ => x') := by
  intro m fuel
  by_cases room : m.steps + 1 ≤ B
  · obtain ⟨grows, same⟩ := hx { m with steps := m.steps + 1 } (by simp only; omega)
    rw [seq_ok (step_allowed h room), seq_ok (step_allowed h' room)]
    exact ⟨Nat.le_trans (Nat.le_succ _) grows, same⟩
  · -- the step alone goes beyond `B`, and what follows it only counts on
    have taken : (step limit m).2.steps = m.steps + 1 := step_steps limit m
    rcases ran : step limit m with ⟨result, after⟩
    rw [ran] at taken
    have further : m.steps + 1 ≤ ((step limit >>= fun _ => x) m).2.steps := by
      cases result with
      | error i =>
        rw [seq_error ran]
        exact Nat.le_of_eq taken.symm
      | ok u =>
        rw [seq_ok ran]
        have grows := (hx after (by simp only at taken; omega)).1
        simp only at taken
        omega
    exact ⟨by omega, fun within => by omega⟩

end Counting

end AlikeWithin

theorem alike_compatible {limit limit' B : Nat} (h : Allows limit B) (h' : Allows limit' B)
    (host : Host σ) (k : Nat) :
    Compatible host host limit limit' k (fun _ => True) (AlikeWithin B) where
  toSequential := AlikeWithin.sequential
  has_eq := rfl
  count := AlikeWithin.count h h'
  list _ := .of_steps fun _ => rfl
  object _ := .of_steps fun _ => rfl
  closure _ := .of_steps fun _ => rfl
  reads name := AlikeWithin.sequential.readName rfl _ name (.of_steps fun _ => rfl)
  writes name v := AlikeWithin.sequential.writeName (fun _ h => .of_steps fun m => (h m).1) rfl
    _ name v (.of_steps fun _ => rfl)
  writesMember := AlikeWithin.sequential.writeMember fun _ h => .of_steps fun m => (h m).1
  native callee f args := .of_steps fun m => Fenced.callNative_steps host callee f args m
  binds _ _ _ _ := .of_steps fun _ => rfl
  leaves _ _ _ := .of_steps fun _ => rfl
  counted := AlikeWithin.counted h h'
  exhausted _ _ := .exhausted _
  lower := AlikeWithin.lower
  round h := h.ending goesOn_ending
  body h := h.ending bodyValue_ending
  handle := AlikeWithin.handled
  finish hx hlast := hx.finalized ((AlikeWithin.count h h').seq fun _ => hlast)
  scope h := (AlikeWithin.of_steps fun _ => rfl).seq h
  enters _ h := (AlikeWithin.of_steps fun _ => rfl).seq h
  inner h := h.deeper
  passes h := h
  known _ h := AlikeWithin.look fun m => h m fun _ _ => trivial

theorem runWith_alike {limit limit' B : Nat} (h : Allows limit B) (h' : Allows limit' B)
    (host : Host σ) (n k : Nat) (p : Program) :
    AlikeWithin B n { env := rootEnv } (runWith host limit n p) (runWith host limit' (n + k) p) :=
  ((alike_compatible h h' host k).script n p.body).ending scriptValue_ending

/-- A run that a limit does not end is the same under every greater limit and under none: its outcome,
its host, its scopes and its count of steps. Without a limit any fuel for more than `N` steps gives it,
and so does the fuel that such runs are given, if it is that much. -/
theorem run_limit_unobserved {N : Nat} (hN : 0 < N) (host : Host σ) (p : Program) (m : Machine σ)
    (ends : (run host N p m).1 ≠ .error (.stepLimit N)) :
    (∀ M, N ≤ M → run host M p m = run host N p m) ∧
    (∀ M, Allows M N → ∀ fuel, N < fuel → runWith host M fuel p m.rewound = run host N p m) ∧
    (N < fuelFor 0 → run host 0 p m = run host N p m) := by
  have ran : run host N p m = runWith host N (N + 1) p m.rewound := by
    simp only [run, fuelFor_pos hN]
  have within : (runWith host N (N + 1) p m.rewound).2.steps ≤ N := by
    rw [← ran]
    exact (run_fenced hN host p m).2.1 ends
  have fuel : N < m.rewound.steps + (N + 1) := by omega
  have alike (M : Nat) (allowed : Allows M N) (given : Nat) (enough : N < given) :
      runWith host M given p m.rewound = run host N p m := by
    obtain ⟨k, rfl⟩ := Nat.exists_eq_add_of_lt enough
    have same := (runWith_alike (.inr (Nat.le_refl N)) allowed host (N + 1) k p m.rewound fuel).2 within
    rw [ran, ← same]
    congr 1
    omega
  refine ⟨fun M le => ?_, alike, fun enough => alike 0 (.inl rfl) _ enough⟩
  have positive : 0 < M := Nat.lt_of_lt_of_le hN le
  have given : run host M p m = runWith host M (M + 1) p m.rewound := by
    simp only [run, fuelFor_pos positive]
  rw [given]
  exact alike M (.inr le) (M + 1) (by omega)

/-- A loop of three rounds that counts in a variable of the host. -/
def threeRounds : Program :=
  ⟨[.whileLoop (.binary (.compare .lt) (.name "a" 0) (.number 3.0))
    (.block (.mk [.expr (.update .increment false (.name "a" 0))]))]⟩

def counter : Machine (Fields Value) := .start [("a", .float 0.0)]

theorem run_limit_unobserved_threeRounds :
    0 < 10 ∧ (run bindingsHost 10 threeRounds counter).1 ≠ .error (.stepLimit 10) ∧
      run bindingsHost 200000 threeRounds counter = run bindingsHost 10 threeRounds counter ∧
      run bindingsHost 0 threeRounds counter = run bindingsHost 10 threeRounds counter := by
  have ends : (run bindingsHost 10 threeRounds counter).1.isOk = true := by decide +kernel
  have other : (run bindingsHost 10 threeRounds counter).1 ≠ .error (.stepLimit 10) := by
    intro stopped
    rw [stopped] at ends
    cases ends
  have room : 10 < fuelFor 0 := by decide +kernel
  have same := run_limit_unobserved (by decide : 0 < 10) bindingsHost threeRounds counter other
  exact ⟨by decide, other, same.1 200000 (by decide), same.2.2 room⟩

end EmitterLogic.Script
