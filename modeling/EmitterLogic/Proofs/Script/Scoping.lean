import EmitterLogic.Proofs.Script.Compatible
import EmitterLogic.Proofs.Datum.Fields
import EmitterLogic.Script.Bindings

/-!
The scopes that code leaves alone. Blocks, loops with a head, try statements and calls declare names in
scopes of their own, and what they do to the scopes around them is a series of assignments. Such a series
takes no name from those scopes and leaves their constants; only the root takes up names, which an
assignment has found bound nowhere.
-/

namespace EmitterLogic.Script

variable {σ α β : Type}

section Changes

variable {host : Host σ} {k : Nat} {G : Env → Prop} {m m' m'' : Machine σ}

section Assignments

theorem scope_of_modify {s : Nat} {f : Scope → Scope} (h : m'.scopes = m.scopes.modify s f)
    (place : Nat) : m'.scope place =
      if s = place ∧ place < m.scopes.size then f (m.scope place) else m.scope place := by
  rw [Machine.scope, Machine.scope, h, Array.getElem?_modify]
  by_cases here : s = place
  · subst here
    by_cases within : s < m.scopes.size
    · rw [if_pos rfl, if_pos ⟨rfl, within⟩, Array.getElem?_eq_getElem within]
      rfl
    · rw [if_pos rfl, if_neg fun both => within both.2, Array.getElem?_eq_none (Nat.le_of_not_lt within)]
      rfl
  · rw [if_neg here, if_neg fun both => here both.1]

theorem scope_of_placeOf {name : String} {env : Env} {s : Nat}
    (h : placeOf host m name env = .scope s) : (m.scope s).names.has name = true := by
  induction env with
  | nil =>
    rw [placeOf] at h
    split at h <;> cases h
  | cons here rest ih =>
    rw [placeOf] at h
    split at h
    · next bound =>
      cases h
      exact bound
    · exact ih h

theorem not_has_of_placeOf {name : String} {env : Env} (h : placeOf host m name env = .nowhere) :
    ∀ s ∈ env, (m.scope s).names.has name = false := by
  induction env with
  | nil => exact List.forall_mem_nil _
  | cons here rest ih =>
    rw [placeOf] at h
    split at h
    · cases h
    · next free => exact List.forall_mem_cons.mpr ⟨Bool.eq_false_iff.mpr free, ih h⟩

theorem writeName_eq (host : Host σ) (env : Env) (name : String) (v : Value) (m : Machine σ) :
    writeName host env name v m =
      (match placeOf host m name env with
        | .scope s => do
          if (m.scope s).constants.contains name then fail .constantAssigned
          modify fun m => { m with
            scopes := m.scopes.modify s fun c => { c with names := c.names.put name v } }
        | .host => outside (host.write name v)
        | .nowhere => modify fun m => { m with
            scopes := m.scopes.modify rootScope fun c => { c with names := c.names.put name v } }
        : Run σ Unit) m := rfl

theorem writeName_scopes (host : Host σ) (env : Env) (name : String) (v : Value) (m : Machine σ) :
    (writeName host env name v m).2.scopes = m.scopes ∨
    ∃ s, (writeName host env name v m).2.scopes =
        m.scopes.modify s (fun c => { c with names := c.names.put name v }) ∧
      ((m.scope s).names.has name = true ∧ (m.scope s).constants.contains name = false ∨
        s = rootScope ∧ placeOf host m name env = .nowhere) := by
  rw [writeName_eq]
  cases found : placeOf host m name env with
  | host => exact .inl rfl
  | nowhere => exact .inr ⟨rootScope, rfl, .inr ⟨rfl, rfl⟩⟩
  | scope s =>
    dsimp only
    cases constant : (m.scope s).constants.contains name with
    | true => exact .inl rfl
    | false => exact .inr ⟨s, rfl, .inl ⟨scope_of_placeOf found, constant⟩⟩

theorem writeName_closures (host : Host σ) (env : Env) (name : String) (v : Value) (m : Machine σ) :
    (writeName host env name v m).2.closures = m.closures := by
  rw [writeName_eq]
  cases placeOf host m name env with
  | host => rfl
  | nowhere => rfl
  | scope s =>
    dsimp only
    cases (m.scope s).constants.contains name with
    | true => rfl
    | false => rfl

end Assignments

/-- One change that code makes to a machine. The first `k` scopes are not its own, and `G` tells which
scopes it has in sight. -/
inductive Change (host : Host σ) (k : Nat) (G : Env → Prop) (m : Machine σ) : Machine σ → Prop where
  | memory {after : Machine σ} (scopes : after.scopes = m.scopes) (same : after.host = m.host) :
    Change host k G m after
  | scope : Change host k G m m.addScope.2
  | declaration {place : Nat} (own : k ≤ place) (name : String) (v : Value) (constant : Bool) :
    Change host k G m (declare place name v constant m).2
  | assignment {env : Env} (sight : G env) (name : String) (v : Value) :
    Change host k G m (writeName host env name v m).2
  | reading (name : String) : Change host k G m (outside (host.read name) m).2
  | calling (f : Native) (args : List Value) : Change host k G m (outside (host.call f args) m).2

/-- Changes one after the other. -/
inductive Changes (host : Host σ) (k : Nat) (G : Env → Prop) (m : Machine σ) : Machine σ → Prop where
  | refl : Changes host k G m m
  | step {between after : Machine σ} (before : Changes host k G m between)
    (last : Change host k G between after) : Changes host k G m after

theorem Changes.trans (h : Changes host k G m m') (h' : Changes host k G m' m'') :
    Changes host k G m m'' := by
  induction h' with
  | refl => exact h
  | step _ last ih => exact .step ih last

theorem Change.size_le (h : Change host k G m m') : m.scopes.size ≤ m'.scopes.size := by
  cases h with
  | memory scopes => exact Nat.le_of_eq (congrArg Array.size scopes.symm)
  | scope =>
    show m.scopes.size ≤ (m.scopes.push {}).size
    rw [Array.size_push]
    exact Nat.le_succ _
  | declaration own name v constant => exact Nat.le_of_eq Array.size_modify.symm
  | assignment sight name v =>
    rcases writeName_scopes host _ name v m with same | ⟨s, put, -⟩
    · exact Nat.le_of_eq (congrArg Array.size same.symm)
    · exact Nat.le_of_eq (by rw [put, Array.size_modify])
  | reading name => exact Nat.le_refl _
  | calling f args => exact Nat.le_refl _

theorem Changes.size_le (h : Changes host k G m m') : m.scopes.size ≤ m'.scopes.size := by
  induction h with
  | refl => exact Nat.le_refl _
  | step _ last ih => exact Nat.le_trans ih last.size_le

theorem Change.scope_cases (h : Change host k G m m') (within : k ≤ m.scopes.size) {place : Nat}
    (old : place < k) :
    m'.scope place = m.scope place ∨
    ∃ env name v, G env ∧ m' = (writeName host env name v m).2 ∧
      m'.scope place = { m.scope place with names := (m.scope place).names.put name v } ∧
      ((m.scope place).names.has name = true ∧ (m.scope place).constants.contains name = false ∨
        place = rootScope ∧ placeOf host m name env = .nowhere) := by
  cases h with
  | memory scopes =>
    rw [Machine.scope, scopes]
    exact .inl rfl
  | scope =>
    refine .inl ?_
    show ((m.scopes.push {})[place]?).getD {} = _
    rw [Array.getElem?_push_lt (Nat.lt_of_lt_of_le old within), Machine.scope,
      Array.getElem?_eq_getElem (Nat.lt_of_lt_of_le old within)]
  | @declaration s own name v constant =>
    have made : (declare s name v constant m).2.scopes = m.scopes.modify s fun c =>
        { names := c.names.put name v
          constants := if constant then name :: c.constants else c.constants.filter (· != name) } :=
      rfl
    have other : s ≠ place := Nat.ne_of_gt (Nat.lt_of_lt_of_le old own)
    have changed := scope_of_modify made place
    rw [if_neg fun both => other both.1] at changed
    exact .inl changed
  | @assignment env sight name v =>
    rcases writeName_scopes host env name v m with same | ⟨s, put, fits⟩
    · rw [Machine.scope, same]
      exact .inl rfl
    · have changed := scope_of_modify put place
      by_cases here : s = place
      · subst here
        rw [if_pos ⟨rfl, Nat.lt_of_lt_of_le old within⟩] at changed
        exact .inr ⟨env, name, v, sight, rfl, changed, fits⟩
      · rw [if_neg fun both => here both.1] at changed
        exact .inl changed
  | reading name => exact .inl rfl
  | calling f args => exact .inl rfl

/-- What holds of the first `k` scopes before and after code that they are not the own scopes of: they
keep their names, and their constants with their values. Only the root takes up names; where it does,
an assignment has found the name bound nowhere in sight. -/
structure Frames (host : Host σ) (k : Nat) (G : Env → Prop) (before after : Machine σ) : Prop where
  kept {place : Nat} (old : place < k) (name : String) :
    (before.scope place).names.has name = true → (after.scope place).names.has name = true
  gained {place : Nat} (old : place < k) (name : String) :
    (after.scope place).names.has name = true → (before.scope place).names.has name = true ∨
      place = rootScope ∧ ∃ between env v, G env ∧ Changes host k G before between ∧
        placeOf host between name env = .nowhere ∧
        Changes host k G (writeName host env name v between).2 after
  constants {place : Nat} (old : place < k) :
    (after.scope place).constants = (before.scope place).constants
  values {place : Nat} (old : place < k) (name : String) :
    (before.scope place).names.has name = true →
    (before.scope place).constants.contains name = true →
      (after.scope place).names.get? name = (before.scope place).names.get? name

theorem Changes.frames (h : Changes host k G m m') (within : k ≤ m.scopes.size)
    (rooted : ∀ env, G env → rootScope ∈ env) : Frames host k G m m' := by
  -- Along the changes; the number of scopes only grows, so the bound on `k` stays true.
  induction h with
  | refl => exact ⟨fun _ _ has => has, fun _ _ has => .inl has, fun _ => rfl, fun _ _ _ _ => rfl⟩
  | @step between after before last ih =>
    have within' : k ≤ between.scopes.size := Nat.le_trans within before.size_le
    refine ⟨fun {place} old name has => ?_, fun {place} old name has => ?_, fun {place} old => ?_,
      fun {place} old name has constant => ?_⟩
    · have here := ih.kept old name has
      rcases last.scope_cases within' old with same | ⟨env, other, v, -, -, put, -⟩
      · rw [same]
        exact here
      · rw [put, Fields.has_put, here, Bool.or_true]
    · have earlier (here : (between.scope place).names.has name = true) :
          (m.scope place).names.has name = true ∨
          place = rootScope ∧ ∃ between env v, G env ∧ Changes host k G m between ∧
            placeOf host between name env = .nowhere ∧
            Changes host k G (writeName host env name v between).2 after := by
        rcases ih.gained old name here with old | ⟨root, b, env, v, sight, first, nowhere, rest⟩
        · exact .inl old
        · exact .inr ⟨root, b, env, v, sight, first, nowhere, .step rest last⟩
      rcases last.scope_cases within' old with same | ⟨env, other, v, sight, written, put, fits⟩
      · exact earlier (same ▸ has)
      · rw [put, Fields.has_put, Bool.or_eq_true, beq_iff_eq] at has
        rcases has with rfl | here
        · rcases fits with ⟨here, -⟩ | ⟨root, nowhere⟩
          · exact earlier here
          · exact .inr ⟨root, between, env, v, sight, before, nowhere, written ▸ .refl⟩
        · exact earlier here
    · rcases last.scope_cases within' old with same | ⟨env, other, v, -, -, put, -⟩
      · rw [same, ih.constants old]
      · rw [put, ← ih.constants old]
    · have value := ih.values old name has constant
      rcases last.scope_cases within' old with same | ⟨env, other, v, sight, -, put, fits⟩
      · rw [same, value]
      · rw [put, Fields.get?_put]
        split
        · next here =>
          obtain rfl := beq_iff_eq.mp here
          rcases fits with ⟨-, variable'⟩ | ⟨rfl, nowhere⟩
          · rw [ih.constants old, constant] at variable'
            cases variable'
          · have free := not_has_of_placeOf nowhere rootScope (rooted env sight)
            rw [ih.kept old name has] at free
            cases free
        · exact value

end Changes

structure Machine.Sights (k : Nat) (G : Env → Prop) (m : Machine σ) : Prop where
  scopes : k ≤ m.scopes.size
  closures : ∀ c ∈ m.closures, G c.env

def Confining (host : Host σ) (k : Nat) (G : Env → Prop) (before after : Machine σ) : Prop :=
  before.Sights k G → after.Sights k G ∧ Changes host k G before after

abbrev Confined (host : Host σ) (k : Nat) (G : Env → Prop) (r : Run σ α) : Prop :=
  Goes (Confining host k G) r

def IsConfined (host : Host σ) (k : Nat) (G : Env → Prop) : RunRel σ := fun _ s _ r _ =>
  G s.env → (s.declares = true → k ≤ s.env.head) → Confined host k G r

namespace Confined

variable {host : Host σ} {k : Nat} {G : Env → Prop}

theorem stepwise (host : Host σ) (k : Nat) (G : Env → Prop) : Stepwise (Confining host k G) where
  refl _ sights := ⟨sights, .refl⟩
  trans h h' sights := by
    obtain ⟨between, before⟩ := h sights
    obtain ⟨last, more⟩ := h' between
    exact ⟨last, before.trans more⟩

theorem of_change {r : Run σ α} (closures : ∀ m, (r m).2.closures = m.closures)
    (change : ∀ m, Change host k G m (r m).2) : Confined host k G r := by
  intro m sights
  refine ⟨⟨Nat.le_trans sights.scopes (change m).size_le, ?_⟩, .step .refl (change m)⟩
  rw [closures m]
  exact sights.closures

theorem of_memory {r : Run σ α} (closures : ∀ m, (r m).2.closures = m.closures)
    (scopes : ∀ m, (r m).2.scopes = m.scopes) (same : ∀ m, (r m).2.host = m.host) :
    Confined host k G r :=
  of_change closures fun m => .memory (scopes m) (same m)

theorem raise (i : Interrupt) : Confined host k G (throw i : Run σ α) :=
  (stepwise host k G).refl

theorem step (limit : Nat) : Confined host k G (step limit) :=
  of_memory (fun _ => rfl) (fun _ => rfl) fun _ => rfl

theorem seq {x : Run σ α} {f : α → Run σ β} (hx : Confined host k G x)
    (hf : ∀ a, Confined host k G (f a)) : Confined host k G (x >>= f) :=
  Goes.seq (stepwise host k G) hx hf

theorem deeper {x : Run σ α} (h : Confined host k G x) : Confined host k G (deeper x) := by
  intro m sights
  have entered : Change host k G m { m with depth := m.depth + 1 } := .memory rfl rfl
  obtain ⟨sights', changes⟩ := h { m with depth := m.depth + 1 } ⟨sights.scopes, sights.closures⟩
  refine ⟨⟨sights'.scopes, sights'.closures⟩, ?_⟩
  exact .step (Changes.trans (.step .refl entered) changes) (.memory rfl rfl)

theorem inScope {f : Nat → Run σ α} (h : ∀ place, k ≤ place → Confined host k G (f place)) :
    Confined host k G (newScope >>= f) := by
  intro m sights
  have opened : Change host k G m m.addScope.2 := .scope
  have sights' : m.addScope.2.Sights k G :=
    ⟨Nat.le_trans sights.scopes opened.size_le, sights.closures⟩
  obtain ⟨last, more⟩ := h m.scopes.size sights.scopes m.addScope.2 sights'
  exact ⟨last, Changes.trans (.step .refl opened) more⟩

theorem declared {place : Nat} (own : k ≤ place) (name : String) (v : Value) (constant : Bool) :
    Confined host k G (declare place name v constant) :=
  of_change (fun _ => rfl) fun _ => .declaration own name v constant

theorem newClosure {c : Closure} (sight : G c.env) : Confined host k G (newClosure c) := by
  intro m sights
  refine ⟨⟨sights.scopes, fun c' member => ?_⟩, .step .refl (.memory rfl rfl)⟩
  rcases Array.mem_push.mp member with old | rfl
  · exact sights.closures c' old
  · exact sight

theorem readName (env : Env) (name : String) : Confined host k G (readName host env name) :=
  (stepwise host k G).sequential.readName (n := 0) (s := { env }) rfl env name
    (of_change (fun _ => rfl) fun _ => .reading name)

theorem writeName {env : Env} (sight : G env) (name : String) (v : Value) :
    Confined host k G (writeName host env name v) :=
  of_change (writeName_closures host env name v) fun _ => .assignment sight name v

theorem writeMember (holder property v : Value) :
    Confined host k G (writeMember holder property v : Run σ Unit) := by
  refine (stepwise host k G).sequential.writeMember (n := 0) (s := { env := rootEnv })
    (fun f kept => ?_) holder property v
  exact of_memory (fun m => (kept m).2.2.2.2) (fun m => (kept m).2.2.2.1) fun m => (kept m).2.2.1

theorem callNative (callee : String) (f : Native) (args : List Value) :
    Confined host k G (callNative host callee f args) := by
  refine of_change (fun m => ?_) fun m => ?_
  · rcases h : host.call f args m with ⟨result, after⟩
    cases result <;> simp only [Script.callNative, outside, h]
  · have asked : Change host k G m (outside (host.call f args) m).2 := .calling f args
    rcases h : outside (host.call f args) m with ⟨result, after⟩
    rw [h] at asked
    cases result <;> simp only [Script.callNative, h] <;> exact asked

theorem newList (items : List Value) : Confined host k G (newList items) :=
  of_memory (fun _ => rfl) (fun _ => rfl) fun _ => rfl

theorem newObject (fields : Fields Value) : Confined host k G (newObject fields) :=
  of_memory (fun _ => rfl) (fun _ => rfl) fun _ => rfl

theorem sequential : Sequential (IsConfined host k G) where
  value _ _ _ := (stepwise host k G).refl
  raise i _ _ _ _ _ := raise i
  seq hx hf sight own := (hx sight own).seq fun a => hf a sight own
  look _ h sight own m := h m sight own m

theorem compatible (host : Host σ) (limit : Nat)
    (grows : ∀ {env : Env} {place : Nat}, k ≤ place → G env → G (place :: env)) :
    Compatible host host limit limit 0 G (IsConfined host k G) where
  toSequential := sequential
  has_eq := rfl
  count _ _ := step limit
  list items _ _ := newList items
  object fields _ _ := newObject fields
  closure _ sight _ := newClosure sight
  binds name v constant declares _ own := declared (own declares) name v constant
  reads name _ _ := readName _ name
  writes name v sight _ := writeName sight name v
  writesMember holder property v _ _ := writeMember holder property v
  native callee f args _ _ := callNative callee f args
  leaves i _ _ _ _ := raise i
  counted h sight own := (step limit).seq fun _ => h sight own
  exhausted _ _ _ _ := (step limit).seq fun _ => raise _
  lower h := h
  round h sight own := (h sight own).ending goesOn_ending
  body h sight own := (h sight own).ending bodyValue_ending
  handle hx hf sight own := (hx sight own).handled (stepwise host k G) fun v => hf v sight own
  finish hx hlast sight own := (hx sight own).finalized (stepwise host k G)
    ((step limit).seq fun _ => hlast sight own)
  scope h sight _ := inScope fun place new => h place (grows new sight) fun _ => new
  enters seen h _ _ := inScope fun place new => h place (grows new seen) fun _ => new
  inner h sight own := (h sight own).deeper
  passes h := h
  known _ h sight own m sights := h m sights.closures sight own m sights

end Confined

section Rooted

variable {host : Host σ} {limit fuel : Nat} {env : Env} {m : Machine σ}

/-- All functions of a machine have the root in sight. -/
def Machine.Rooted (m : Machine σ) : Prop := ∀ c ∈ m.closures, rootScope ∈ c.env

theorem rooted_start (h : σ) (draws : Draws) : (Machine.start h draws).Rooted :=
  fun _ member => absurd member (Array.not_mem_empty _)

theorem Confined.rooted {r : Run σ α} (h : Confined host 0 (rootScope ∈ ·) r) (roots : m.Rooted) :
    (r m).2.Rooted :=
  (h m ⟨Nat.zero_le _, roots⟩).1.closures

theorem rooted_compatible (host : Host σ) (limit : Nat) :
    Compatible host host limit limit 0 (rootScope ∈ ·) (IsConfined host 0 (rootScope ∈ ·)) :=
  Confined.compatible host limit fun _ root => List.mem_cons_of_mem _ root

theorem code_rooted (root : rootScope ∈ env) (roots : m.Rooted) :
    let call := invoke host limit fuel
    (∀ e, (evalExpr host limit call env e m).2.Rooted) ∧
    (∀ statement, (exec host limit fuel call env statement m).2.Rooted) ∧
    (∀ body, (execBody host limit fuel call env body m).2.Rooted) ∧
    ∀ place args, (call place args m).2.Rooted := by
  intro call
  have hR := rooted_compatible host limit
  have calls := hR.invoke fuel
  let s : Standing := { env }
  have own : s.declares = true → 0 ≤ s.env.head := fun _ => Nat.zero_le _
  refine ⟨fun e => ?_, fun statement => ?_, fun body => ?_, fun place args => ?_⟩
  · exact Confined.rooted (hR.evalExpr calls (s := s) e root own) roots
  · exact Confined.rooted (hR.exec calls (s := s) statement (.inl rfl) (.inl rfl) root own) roots
  · exact Confined.rooted (hR.execBody calls (s := s) rfl body (.inl rfl) root own) roots
  · exact Confined.rooted (calls s place args root own) roots

theorem run_rooted (roots : m.Rooted) (p : Program) : (run host limit p m).2.Rooted := by
  have root : rootScope ∈ rootEnv := List.mem_singleton.mpr rfl
  have script := (rooted_compatible host limit).script (fuelFor limit) p.body root
    fun _ => Nat.zero_le _
  exact Confined.rooted (m := m.rewound) (script.ending scriptValue_ending) roots

theorem start_run_rooted (host : Host σ) (limit : Nat) (p : Program) (h : σ) (draws : Draws) :
    (run host limit p (.start h draws)).2.Rooted :=
  run_rooted (rooted_start h draws) p

end Rooted

/-- What code has in sight: scopes of its own, none of the first `k`, in front of a chain of scopes that
was there before it. -/
def InSight (k : Nat) (chains : Env → Prop) (env : Env) : Prop :=
  ∃ own chain, env = own ++ chain ∧ (∀ s ∈ own, k ≤ s) ∧ chains chain

theorem InSight.grows {k : Nat} {chains : Env → Prop} {env : Env} {place : Nat} (new : k ≤ place)
    (h : InSight k chains env) : InSight k chains (place :: env) := by
  obtain ⟨own, chain, rfl, news, old⟩ := h
  exact ⟨place :: own, chain, rfl, List.forall_mem_cons.mpr ⟨new, news⟩, old⟩

/-- The chains of scopes that are there before code: the one around it and those of the functions. -/
def Machine.Chain (m : Machine σ) (env chain : Env) : Prop :=
  chain = env ∨ ∃ c ∈ m.closures, c.env = chain

/-- What code that stands among the scopes of `env` leaves of the scopes that are there before it. A
name that the root takes up was bound nowhere along the chain in which it was assigned to. -/
structure Contained (host : Host σ) (env : Env) (before after : Machine σ) : Prop
    extends Frames host before.scopes.size (InSight before.scopes.size (before.Chain env)) before
      after where
  undeclared (old : rootScope < before.scopes.size) (name : String) :
    (after.scope rootScope).names.has name = true →
      (before.scope rootScope).names.has name = true ∨
        ∃ chain, before.Chain env chain ∧
          ∀ s ∈ chain, s < before.scopes.size → (before.scope s).names.has name = false
  rooted : ∀ c ∈ after.closures, rootScope ∈ c.env

theorem Confined.contained {host : Host σ} {env : Env} {m : Machine σ} {r : Run σ α}
    (root : rootScope ∈ env) (roots : ∀ c ∈ m.closures, rootScope ∈ c.env)
    (h : Confined host m.scopes.size (InSight m.scopes.size (m.Chain env)) r) :
    Contained host env m (r m).2 := by
  have rooted : ∀ env', InSight m.scopes.size (m.Chain env) env' → rootScope ∈ env' := by
    rintro _ ⟨own, chain, rfl, -, rfl | ⟨c, member, rfl⟩⟩
    · exact List.mem_append_right own root
    · exact List.mem_append_right own (roots c member)
  have sights : m.Sights m.scopes.size (InSight m.scopes.size (m.Chain env)) :=
    ⟨Nat.le_refl _, fun c member =>
      ⟨[], c.env, rfl, List.forall_mem_nil _, .inr ⟨c, member, rfl⟩⟩⟩
  obtain ⟨sights', changes⟩ := h m sights
  have frames := changes.frames (Nat.le_refl _) rooted
  refine ⟨frames, fun old name has => ?_, fun c member => rooted c.env (sights'.closures c member)⟩
  refine (frames.gained old name has).imp_right ?_
  rintro ⟨-, between, _, v, ⟨own, chain, rfl, -, there⟩, before, nowhere, -⟩
  refine ⟨chain, there, fun s member old => ?_⟩
  -- What is bound before the run is bound all along it.
  have free := not_has_of_placeOf nowhere s (List.mem_append_right own member)
  rw [Bool.eq_false_iff]
  intro bound
  rw [(before.frames (Nat.le_refl _) rooted).kept old name bound] at free
  cases free

/-- A block, a loop with a head, a try statement and a call, whatever it does and however it ends, takes
no name from a scope that was there before and adds none, but for names that the root takes up where
they are bound nowhere; the constants of those scopes stay, and keep their values. -/
theorem run_frames_scopes (host : Host σ) (limit fuel : Nat) {env : Env} {m : Machine σ}
    (root : rootScope ∈ env) (roots : ∀ c ∈ m.closures, rootScope ∈ c.env) :
    let call := invoke host limit fuel
    (∀ statement, statement.OpensScope →
      Contained host env m (exec host limit fuel call env statement m).2) ∧
    (∀ callee args, Contained host env m (evalExpr host limit call env (.call callee args) m).2) ∧
    ∀ place args, Contained host env m (call place args m).2 := by
  intro call
  have sight : InSight m.scopes.size (m.Chain env) env :=
    ⟨[], env, rfl, List.forall_mem_nil _, .inl rfl⟩
  have hR := Confined.compatible host limit (k := m.scopes.size)
    (G := InSight m.scopes.size (m.Chain env)) InSight.grows
  have calls := hR.invoke fuel
  -- The scope around the code is not its own: no declaration may go there.
  let s : Standing := { env, declares := false }
  refine ⟨fun statement opens => ?_, fun callee args => ?_, fun place args => ?_⟩
  · have confined := hR.exec calls (s := s) statement (.inl rfl) (.inr opens)
    exact (confined sight nofun).contained root roots
  · have confined := hR.evalExpr calls (s := s) (.call callee args)
    exact (confined sight nofun).contained root roots
  · exact (calls s place args sight nofun).contained root roots

/-- A machine with a constant and a function in the root. -/
def declaredConstant : Machine (Fields Value) :=
  (execBody bindingsHost 0 9 (invoke bindingsHost 0 9) rootEnv
    [.declare .constDecl [.mk "c" (some (.number 1.0))],
      .func (.mk "f" [] (.concise (.name "c" 0)))] (.start [])).2

/-- A block that declares a name, assigns to one that is bound nowhere, and to the constant. -/
def assigningBlock : Stmt :=
  .block (.mk [.declare .letDecl [.mk "y" (some (.call (.name "f" 0) []))],
    .expr (.assign .plain (.name "z" 0) (.name "y" 0)),
    .expr (.assign .plain (.name "c" 0) (.number 2.0))])

/-- The machine after the block. -/
def assigned : Machine (Fields Value) :=
  (exec bindingsHost 0 9 (invoke bindingsHost 0 9) rootEnv assigningBlock declaredConstant).2

theorem run_frames_scopes_assigning :
    rootScope ∈ rootEnv ∧ (∀ c ∈ declaredConstant.closures, rootScope ∈ c.env) ∧
    assigningBlock.OpensScope ∧
    (declaredConstant.scope rootScope).names.keys = ["f", "c"] ∧
    (assigned.scope rootScope).names.keys = ["f", "c", "z"] ∧
    (assigned.scope rootScope).constants = (declaredConstant.scope rootScope).constants ∧
    (assigned.scope rootScope).names.get? "c" =
      (declaredConstant.scope rootScope).names.get? "c" := by
  have root : rootScope ∈ rootEnv := List.mem_singleton.mpr rfl
  have roots : declaredConstant.Rooted := (code_rooted root (rooted_start [] {})).2.2.1 _
  have contained : Contained bindingsHost rootEnv declaredConstant assigned :=
    (run_frames_scopes bindingsHost 0 9 root roots).1 assigningBlock trivial
  have old : rootScope < declaredConstant.scopes.size := by decide +kernel
  exact ⟨root, roots, trivial, by decide +kernel, by decide +kernel, contained.constants old,
    contained.values old "c" (by decide +kernel) (by decide +kernel)⟩

end EmitterLogic.Script
