import EmitterLogic.Proofs.Behavior.Variable
import EmitterLogic.Proofs.Datum.Fields
import EmitterLogic.Preview.Basic

namespace EmitterLogic

namespace Variable

/-- The last of the declarations of its name. -/
def LastIn (v : Variable) (vs : List Variable) : Prop :=
  ∃ l l', vs = l ++ v :: l' ∧ v.name ∉ l'.map (·.name)

theorem lastIn_cons {v w : Variable} {vs : List Variable} (h : v.LastIn (w :: vs)) :
    v.LastIn vs ∨ v = w ∧ v.name ∉ vs.map (·.name) := by
  obtain ⟨l, l', split, last⟩ := h
  cases l with
  | nil =>
    obtain ⟨rfl, rfl⟩ := List.cons.inj split
    exact .inr ⟨rfl, last⟩
  | cons u l => exact .inl ⟨l, l', (List.cons.inj split).2, last⟩

theorem LastIn.mem {v : Variable} {vs : List Variable} (h : v.LastIn vs) : v ∈ vs := by
  obtain ⟨l, l', rfl, _⟩ := h
  exact List.mem_append_right l List.mem_cons_self

theorem exists_lastIn {vs : List Variable} {key : String} (h : key ∈ vs.map (·.name)) :
    ∃ v : Variable, v.LastIn vs ∧ v.name = key := by
  induction vs with
  | nil => cases h
  | cons w vs ih =>
    by_cases later : key ∈ vs.map (·.name)
    · obtain ⟨v, ⟨l, l', split, last⟩, named⟩ := ih later
      exact ⟨v, ⟨w :: l, l', by rw [split, List.cons_append], last⟩, named⟩
    · rw [List.map_cons, List.mem_cons] at h
      rcases h with rfl | h
      · exact ⟨w, ⟨[], vs, rfl, later⟩, rfl⟩
      · exact absurd h later

end Variable

namespace Preview

theorem mem_stored {v : Variable} {vs : List Variable} :
    v ∈ stored vs ↔ v ∈ vs ∧ v.name ≠ "" := by
  rw [stored, List.mem_filter, bne_iff_ne]

theorem mem_names_stored {vs : List Variable} {key : String} :
    key ∈ (stored vs).map (·.name) ↔ key ≠ "" ∧ key ∈ vs.map (·.name) := by
  simp only [List.mem_map, mem_stored]
  constructor
  · rintro ⟨v, ⟨hv, named⟩, rfl⟩
    exact ⟨named, v, hv, rfl⟩
  · rintro ⟨named, v, hv, rfl⟩
    exact ⟨v, ⟨hv, named⟩, rfl⟩

theorem lastIn_stored {v : Variable} {vs : List Variable} (h : v.LastIn vs) (named : v.name ≠ "") :
    v.LastIn (stored vs) := by
  obtain ⟨l, l', rfl, last⟩ := h
  refine ⟨stored l, stored l', ?_, fun later => last (mem_names_stored.mp later).2⟩
  have kept : (v.name != "") = true := bne_iff_ne.mpr named
  simp only [stored, List.filter_append, List.filter_cons, kept, if_true]

def Floats (store : Fields Datum) : Prop := ∀ key d, store.get? key = some d → ∃ x, d = .float x

theorem floats_nil : Floats [] := fun _ _ h => nomatch h

theorem floats_put {store : Fields Datum} (h : Floats store) (key : String) (x : Float) :
    Floats (store.put key (.float x)) :=
  fun _ _ found => Fields.forall_get?_put h ⟨x, rfl⟩ found

theorem has_put_of_has {store : Fields Datum} {key : String} (h : store.has key = true) (d : Datum)
    (other : String) : (store.put key d).has other = store.has other := by
  rw [Fields.has_put]
  by_cases here : key = other
  · subst here
    rw [h, Bool.or_true]
  · rw [beq_eq_false_iff_ne.mpr here, Bool.false_or]

def Holds (store : Fields Datum) (v : Variable) : Prop :=
  ∃ x, store.get? v.name = some (.float x) ∧ v.Admits x

structure Rebounded (store store' : Fields Datum) (vs : List Variable) : Prop where
  floats : Floats store'
  has : ∀ key, store'.has key = store.has key
  others : ∀ key, key ∉ vs.map (·.name) → store'.get? key = store.get? key
  holds : ∀ v, v.LastIn vs → store.has v.name = true → Holds store' v

theorem lastIn_single {v w : Variable} (h : v.LastIn [w]) : v = w := by
  rcases Variable.lastIn_cons h with ⟨l, l', split, _⟩ | ⟨same, _⟩
  · exact absurd split (by simp)
  · exact same

theorem rebounded_put {v : Variable} {store : Fields Datum} (floats : Floats store)
    (present : store.has v.name = true) {x : Float} (admits : v.Admits x) :
    Rebounded store (store.put v.name (.float x)) [v] where
  floats := floats_put floats v.name x
  has := has_put_of_has present _
  others key other := by
    rw [Fields.get?_put, if_neg]
    simpa using other
  holds w last _ := by
    obtain rfl := lastIn_single last
    exact ⟨x, by rw [Fields.get?_put, beq_self_eq_true, if_pos rfl], admits⟩

theorem boundOne_ok {v : Variable} (hv : v.Sound) {store : Fields Datum} (floats : Floats store) :
    ∃ store', boundOne v store = .ok store' ∧ Rebounded store store' [v] := by
  rw [boundOne]
  cases found : store.get? v.name with
  | none =>
    refine ⟨store, rfl, floats, fun _ => rfl, fun _ _ => rfl, fun w last present => ?_⟩
    obtain rfl := lastIn_single last
    obtain ⟨d, found'⟩ := Fields.has_iff_get?.mp present
    exact nomatch found.symm.trans found'
  | some d =>
    have present : store.has v.name = true := Fields.has_iff_get?.mpr ⟨d, found⟩
    obtain ⟨x, rfl⟩ := floats v.name d found
    have number : (Datum.float x).finite? = .ok (finiteOnly x) := rfl
    simp only [number, bind, Except.bind, pure, Except.pure]
    cases only : finiteOnly x with
    | some y =>
      obtain ⟨z, bounded, admits⟩ := Variable.bound_admits hv (isFinite_of_finiteOnly only)
      simp only [bounded]
      exact ⟨_, rfl, rebounded_put floats present admits⟩
    | none =>
      obtain ⟨y, typed, finite, _⟩ := Variable.ofType_finite v.isInt hv.initial
      obtain ⟨z, bounded, admits⟩ := Variable.bound_admits hv finite
      simp only [typed, bounded]
      exact ⟨_, rfl, rebounded_put floats present admits⟩

theorem rebounded_cons {v : Variable} {vs : List Variable} {store store' store'' : Fields Datum}
    (first : Rebounded store store' [v]) (rest : Rebounded store' store'' vs) :
    Rebounded store store'' (v :: vs) where
  floats := rest.floats
  has key := (rest.has key).trans (first.has key)
  others key other := by
    rw [List.map_cons, List.mem_cons, not_or] at other
    rw [rest.others key other.2, first.others key (by simpa using other.1)]
  holds w last present := by
    rcases Variable.lastIn_cons last with later | ⟨rfl, alone⟩
    · exact rest.holds w later (by rw [first.has, present])
    · obtain ⟨x, found, admits⟩ := first.holds w ⟨[], [], rfl, nofun⟩ present
      exact ⟨x, (rest.others w.name alone).trans found, admits⟩

theorem boundEach_ok {vs : List Variable} (hvs : ∀ v ∈ vs, v.Sound) {p : Preview}
    (floats : Floats p.store) (s : Session) :
    ∃ store, boundEach vs p s = ((.ok (), { p with store }), s) ∧ Rebounded p.store store vs := by
  induction vs generalizing p with
  | nil =>
    refine ⟨p.store, rfl, floats, fun _ => rfl, fun _ _ => rfl, fun v last _ => ?_⟩
    obtain ⟨l, l', split, _⟩ := last
    exact absurd split (by simp)
  | cons v vs ih =>
    obtain ⟨store', bounded, first⟩ := boundOne_ok (hvs v List.mem_cons_self) floats
    have later := fun w hw => hvs w (List.mem_cons_of_mem v hw)
    obtain ⟨store'', run, rest⟩ := ih later (p := { p with store := store' }) first.floats
    refine ⟨store'', ?_, rebounded_cons first rest⟩
    have step : boundEach (v :: vs) p s = (Staged.lift (boundOne v p.store) >>= fun store => do
        modify fun p => { p with store }
        boundEach vs) p s := rfl
    rw [step, bounded]
    exact run

end Preview

end EmitterLogic
