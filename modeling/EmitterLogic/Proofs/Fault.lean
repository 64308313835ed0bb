import EmitterLogic.Fault

namespace EmitterLogic

variable {α β ε : Type}

theorem bind_ok {x : Except ε α} {f : α → Except ε β} {b : β} (h : x >>= f = .ok b) :
    ∃ a, x = .ok a ∧ f a = .ok b := by
  cases x with
  | error e => cases h
  | ok a => exact ⟨a, rfl, h⟩

theorem bind_of_ok {x : Except ε α} {f : α → Except ε β} {a : α} (h : x = .ok a) :
    x >>= f = f a := by
  rw [h]
  rfl

theorem map_ok {x : Except ε α} {f : α → β} {b : β} (h : x.map f = .ok b) :
    ∃ a, x = .ok a ∧ f a = b := by
  cases x with
  | error e => cases h
  | ok a => exact ⟨a, rfl, Except.ok.inj h⟩

theorem ok_of_isOk {x : Except ε α} (h : x.isOk = true) : ∃ a, x = .ok a := by
  cases x with
  | ok a => exact ⟨a, rfl⟩
  | error e => cases h

theorem ok_of_toOption {x : Except ε α} {a : α} (h : x.toOption = some a) : x = .ok a := by
  cases x with
  | error e => cases h
  | ok b => exact congrArg Except.ok (Option.some.inj h)

theorem mapM_cons_ok {f : α → Except ε β} {a : α} {l : List α} {bs : List β}
    (h : (a :: l).mapM f = .ok bs) :
    ∃ b bs', f a = .ok b ∧ l.mapM f = .ok bs' ∧ bs = b :: bs' := by
  rw [List.mapM_cons] at h
  obtain ⟨b, first, h⟩ := bind_ok h
  obtain ⟨bs', rest, h⟩ := bind_ok h
  exact ⟨b, bs', first, rest, (Except.ok.inj h).symm⟩

theorem exists_mapM_ok {f : α → Except ε β} {l : List α} (h : ∀ a ∈ l, ∃ b, f a = .ok b) :
    ∃ bs, l.mapM f = .ok bs := by
  induction l with
  | nil => exact ⟨[], rfl⟩
  | cons a l ih =>
    rw [List.forall_mem_cons] at h
    obtain ⟨b, first⟩ := h.1
    obtain ⟨bs, rest⟩ := ih h.2
    refine ⟨b :: bs, ?_⟩
    rw [List.mapM_cons, first, rest]
    rfl

theorem exists_of_mapM_error {f : α → Except ε β} {l : List α} {e : ε} (h : l.mapM f = .error e) :
    ∃ a ∈ l, f a = .error e := by
  induction l with
  | nil => cases h
  | cons a l ih =>
    rw [List.mapM_cons] at h
    cases first : f a with
    | error e' =>
      rw [first] at h
      cases h
      exact ⟨a, List.mem_cons_self, first⟩
    | ok b =>
      rw [bind_of_ok first] at h
      cases rest : l.mapM f with
      | ok bs =>
        rw [rest] at h
        cases h
      | error e' =>
        rw [rest] at h
        cases h
        obtain ⟨c, member, failed⟩ := ih rest
        exact ⟨c, List.mem_cons_of_mem a member, failed⟩

theorem mapM_map_ok {f : α → Except ε β} {g : β → α} {l : List β} (h : ∀ b ∈ l, f (g b) = .ok b) :
    (l.map g).mapM f = .ok l := by
  induction l with
  | nil => rfl
  | cons b l ih =>
    rw [List.forall_mem_cons] at h
    rw [List.map_cons, List.mapM_cons, bind_of_ok h.1, bind_of_ok (ih h.2)]
    rfl

theorem forall_of_mapM_ok {f : α → Except ε β} {P : β → Prop} {l : List α} {bs : List β}
    (hf : ∀ a b, f a = .ok b → P b) (h : l.mapM f = .ok bs) : ∀ b ∈ bs, P b := by
  induction l generalizing bs with
  | nil =>
    cases h
    exact nofun
  | cons a l ih =>
    obtain ⟨b, bs', first, rest, rfl⟩ := mapM_cons_ok h
    intro c hc
    rcases List.mem_cons.mp hc with rfl | hc
    · exact hf a c first
    · exact ih rest c hc

def ReturnsIf (P : Prop) (e : Except ε α) : Prop := (∃ a, e = .ok a) ↔ P

namespace ReturnsIf

variable {e : Except ε α} {f : α → Except ε β} {P Q : Prop}

theorem ok (a : α) : ReturnsIf True (.ok a : Except ε α) := iff_of_true ⟨a, rfl⟩ trivial

theorem congr (h : ReturnsIf P e) (same : P ↔ Q) : ReturnsIf Q e := Iff.trans h same

theorem of_ok (h : ∃ a, e = .ok a) : ReturnsIf True e := iff_of_true h trivial

theorem bind (first : ReturnsIf P e) (second : ∀ a, e = .ok a → ReturnsIf Q (f a)) :
    ReturnsIf (P ∧ Q) (e >>= f) := by
  constructor
  · rintro ⟨b, returned⟩
    obtain ⟨a, here, there⟩ := bind_ok returned
    exact ⟨first.mp ⟨a, here⟩, (second a here).mp ⟨b, there⟩⟩
  · rintro ⟨hP, hQ⟩
    obtain ⟨a, here⟩ := first.mpr hP
    rw [bind_of_ok here]
    exact (second a here).mpr hQ

theorem after (first : ∃ a, e = .ok a) (second : ∀ a, e = .ok a → ReturnsIf Q (f a)) :
    ReturnsIf Q (e >>= f) := ((of_ok first).bind second).congr (iff_of_eq (true_and Q))

theorem before (first : ReturnsIf P e) (second : ∀ a, ∃ b, f a = .ok b) : ReturnsIf P (e >>= f) :=
  (first.bind fun a _ => of_ok (second a)).congr (iff_of_eq (and_true P))

theorem mapM {f : α → Except ε β} {P : α → Prop} {l : List α}
    (each : ∀ a ∈ l, ReturnsIf (P a) (f a)) : ReturnsIf (∀ a ∈ l, P a) (l.mapM f) := by
  induction l with
  | nil => exact (ok []).congr (by simp)
  | cons a l ih =>
    rw [List.forall_mem_cons] at each
    rw [List.mapM_cons, List.forall_mem_cons]
    exact each.1.bind fun _ _ => (ih each.2).before fun _ => ⟨_, rfl⟩

end ReturnsIf

end EmitterLogic
