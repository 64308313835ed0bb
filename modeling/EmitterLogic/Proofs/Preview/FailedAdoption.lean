import EmitterLogic.Proofs.Preview.Recompilation
import EmitterLogic.Proofs.Tick.Verdict

/-!
What an adoption that faults leaves behind. A document that cannot be read changes nothing; a script
that cannot be compiled is met only after the behavior has been put in the place of the one before,
while the script of that one stays in use.
-/

namespace EmitterLogic.Preview

open Staged Tick

theorem startingValues_ok {vs : List Variable} (h : ∀ v ∈ vs, v.Sound) :
    ∃ values, startingValues vs = .ok values := by
  refine exists_mapM_ok fun v stored => ?_
  obtain ⟨x, typed, _⟩ := Variable.ofType_finite v.isInt (h v (mem_stored.mp stored).1).initial
  exact ⟨(v.name, .float x), bind_of_ok typed⟩

/-- The preview in the middle of an adoption: the behavior and its store are in place, its script is
not yet. -/
def halfAdopted (p : Preview) (b : Behavior) (values : Fields Datum) : Preview :=
  { p with signature := signatureOf b.vars, store := adoptedStore p b.vars values, behavior := some b }

theorem adopt_unread {document : Datum} {f : Fault} (unread : Behavior.ofDatum document = .error f)
    (p : Preview) (s : Session) : adopt document p s = ((.error f, p), s) := by
  rw [adopt, unread]
  rfl

theorem adopt_read {document : Datum} {b : Behavior} {values : Fields Datum}
    (read : Behavior.ofDatum document = .ok b) (starting : startingValues b.vars = .ok values)
    (p : Preview) (s : Session) :
    adopt document p s = (recompile b >>= fun _ => applyBounds) (halfAdopted p b values) s := by
  rw [adopt, read]
  have first : (Staged.lift (Except.ok b) : Staged Behavior) p s = ((.ok b, p), s) := rfl
  rw [seq_ok first, starting]
  rfl

theorem recompile_run (b : Behavior) (p : Preview) (s : Session) :
    recompile b p s = match recompiled p.compiled b with
      | .error f => ((.error f, p), s)
      | .ok compiled => ((.ok (), { p with compiled }), s) := by
  have looked : recompile b p s =
      (if p.compiled.map (·.source) != some b.script then
        Staged.lift (compiledScript b) >>= fun compiled => modify fun p => { p with compiled }
      else pure ()) p s := rfl
  rw [looked, recompiled]
  split
  · cases compiledScript b <;> rfl
  · rfl

theorem sound_halfAdopted {p : Preview} (h : p.Sound) {document : Datum} {b : Behavior}
    (read : Behavior.ofDatum document = .ok b) {values : Fields Datum}
    (starting : startingValues b.vars = .ok values) : (halfAdopted p b values).Sound :=
  sound_adopted h (Behavior.ofDatum_sound read) starting

theorem adopt_error {document : Datum} {b : Behavior} (read : Behavior.ofDatum document = .ok b)
    {values : Fields Datum} (starting : startingValues b.vars = .ok values) {p q : Preview}
    (h : p.Sound) {s s' : Session} {f : Fault}
    (faulted : adopt document p s = ((.error f, q), s')) :
    recompiled p.compiled b = .error f ∧ q = halfAdopted p b values ∧ s' = s := by
  rw [adopt_read read starting] at faulted
  have compiling := recompile_run b (halfAdopted p b values) s
  have inUse : (halfAdopted p b values).compiled = p.compiled := rfl
  rw [inUse] at compiling
  cases new : recompiled p.compiled b with
  | error g =>
    simp only [new] at compiling
    rw [seq_error compiling] at faulted
    cases faulted
    exact ⟨rfl, rfl, rfl⟩
  | ok compiled =>
    simp only [new] at compiling
    rw [seq_ok compiling] at faulted
    have sound : Sound { halfAdopted p b values with compiled } :=
      (sound_halfAdopted h read starting).values rfl rfl (sound_halfAdopted h read starting).floats
        fun _ => rfl
    obtain ⟨store, bounded, _⟩ := applyBounds_ok sound s
    rw [bounded] at faulted
    cases faulted

theorem recompiled_error {c : Option Tick.Compiled} {b : Behavior} {f : Fault}
    (h : recompiled c b = .error f) :
    c.map (·.source) ≠ some b.script ∧ b.script.isEmpty = false ∧
      Script.MeetsFault (cleanSource b.script).toList f := by
  rw [recompiled] at h
  split at h
  · next stale =>
    rw [compiledScript] at h
    split at h
    · cases h
    · next visible =>
      refine ⟨bne_iff_ne.mp stale, by simpa using visible, ?_⟩
      cases compiled : Tick.Compiled.ofText b.script b.variableNames with
      | ok c =>
        rw [compiled] at h
        cases h
      | error g =>
        rw [compiled] at h
        cases h
        exact ofText_error_iff.mp compiled
  · cases h

theorem completed_of_has {store values : Fields Datum}
    (h : ∀ key, values.has key = true → store.has key = true) : completed store values = store := by
  induction values with
  | nil => rfl
  | cons value values ih =>
    have step : completed store (value :: values) =
        completed (if store.has value.1 then store else store.put value.1 value.2) values := rfl
    have here : store.has value.1 = true := h value.1 (by simp [Fields.has_cons])
    rw [step, if_pos here]
    exact ih fun key later => h key (by simp [Fields.has_cons, later])

theorem halfAdopted_same {p : Preview} (h : p.Sound) {b : Behavior} (adopted : p.behavior = some b)
    {values : Fields Datum} (starting : startingValues b.vars = .ok values) :
    halfAdopted p b values = p := by
  have signature : signatureOf b.vars = p.signature := by
    rw [h.signature, adopted]
    rfl
  have vars : p.vars = b.vars := by
    rw [Preview.vars, adopted]
    rfl
  have store : adoptedStore p b.vars values = p.store := by
    rw [adoptedStore, if_pos (beq_iff_eq.mpr signature)]
    refine completed_of_has fun key starts => ?_
    rw [h.keys key, vars, ← startingValues_names starting]
    exact Fields.has_iff_mem.mp starts
  rw [halfAdopted, signature, store, ← adopted]

/-- An adoption that faults changes nothing in the session, and in the preview neither its tick nor
the script in use nor its draws. Where the document cannot be read, nothing at all is changed. Otherwise
the fault is the script's: it is not the script in use and cannot be scanned, and its behavior and the
store for it are already in place. So the preview is as before just if the document cannot be read or
is that of the behavior in place. -/
theorem adopt_faulted {bs : List Behavior} {p q : Preview} (reached : Reached True bs p)
    {document : Datum} {f : Fault} {s s' : Session}
    (faulted : adopt document p s = ((.error f, q), s')) :
    (s' = s ∧ q.tick = p.tick ∧ q.compiled = p.compiled ∧ q.draws = p.draws) ∧
    (Behavior.ofDatum document = .error f ∧ q = p ∨
      ∃ b values, Behavior.ofDatum document = .ok b ∧ startingValues b.vars = .ok values ∧
        q = halfAdopted p b values ∧ p.compiled.map (·.source) ≠ some b.script ∧
        b.script.isEmpty = false ∧ Script.MeetsFault (cleanSource b.script).toList f) ∧
    (q = p ↔ ∀ b, Behavior.ofDatum document = .ok b → p.behavior = some b) := by
  have sound := reached.compiledFor.1
  cases read : Behavior.ofDatum document with
  | error g =>
    rw [adopt_unread read] at faulted
    cases faulted
    refine ⟨⟨rfl, rfl, rfl, rfl⟩, .inl ⟨rfl, rfl⟩, fun _ b other => ?_, fun _ => rfl⟩
    cases other
  | ok b =>
    obtain ⟨values, starting⟩ := startingValues_ok (Behavior.ofDatum_sound read)
    obtain ⟨failed, rfl, rfl⟩ := adopt_error read starting sound faulted
    refine ⟨⟨rfl, rfl, rfl, rfl⟩, .inr ⟨b, values, rfl, starting, rfl, recompiled_error failed⟩, ?_⟩
    constructor
    · intro same b' read'
      cases read'
      rw [← same]
      rfl
    · intro adopted
      exact halfAdopted_same sound (adopted b rfl) starting

/-- A document with one variable, its start, and a script. -/
def scripted (start : Int) (script : String) : Datum := .object [
  ("emitterVars", .list [.object [("name", .text "a"), ("defaultValue", .int start)]]),
  ("tickExpression", .text script)]

/-- A script that runs, and one with a digit that no number can be read from. -/
def running : Datum := scripted 0 "a = a + 1"

def unreadable : Datum := scripted 5 "a = \u00b2"

/-- The preview that runs the first script, and what the adoption of the other document makes of it. -/
def begun : Preview := ((Call.adopt running).run {} {}).1.2

def interrupted : Preview := (adopt unreadable begun {}).1.2

/-- Has the preview this number for a variable? -/
def shows (p : Preview) (name : String) (x : Float) : Bool :=
  match p.store.get? name with
  | some (.number (.float y)) => y == x
  | _ => false

theorem interrupted_course :
    ((Call.adopt running).run {} {}).1.1.isOk = true ∧
    (adopt unreadable begun {}).1.1.isOk = false ∧
    (Behavior.ofDatum unreadable).isOk = true ∧
    begun.behavior.map (·.script) = some "a = a + 1" ∧
    interrupted.behavior.map (·.script) = some "a = \u00b2" ∧
    interrupted.compiled.map (·.source) = some "a = a + 1" ∧
    shows begun "a" 0.0 = true ∧ shows interrupted "a" 5.0 = true ∧
    shows (runTick interrupted {}).1.2 "a" 6.0 = true := by
  decide +kernel

theorem begun_reached : ∃ bs, Reached True bs begun :=
  ⟨_, (Reached.fresh {}).next (.adopt running) {} interrupted_course.1⟩

theorem interrupted_faulted : ∃ f s', adopt unreadable begun {} = ((.error f, interrupted), s') := by
  have failed := interrupted_course.2.1
  rw [interrupted]
  rcases ran : adopt unreadable begun {} with ⟨⟨result, q⟩, s'⟩
  rw [ran] at failed
  cases result with
  | ok u => cases failed
  | error f => exact ⟨f, s', rfl⟩

theorem adopt_faulted_unreadable : (∃ bs, Reached True bs begun) ∧
    interrupted.compiled = begun.compiled ∧
    ∃ b values, Behavior.ofDatum unreadable = .ok b ∧ interrupted = halfAdopted begun b values := by
  obtain ⟨bs, reached⟩ := begun_reached
  obtain ⟨f, s', faulted⟩ := interrupted_faulted
  obtain ⟨⟨_, _, inUse, _⟩, changed, _⟩ := adopt_faulted reached faulted
  refine ⟨⟨bs, reached⟩, inUse, ?_⟩
  rcases changed with ⟨unread, _⟩ | ⟨b, values, read, _, same, _⟩
  · have readable := interrupted_course.2.2.1
    rw [unread] at readable
    cases readable
  · exact ⟨b, values, read, same⟩

/-- After the adoption that faults, a tick runs the script of the first document on the store of the
second one. -/
theorem interrupted_mixed : (∃ bs, Reached True bs begun) ∧
    (∃ f s', adopt unreadable begun {} = ((.error f, interrupted), s')) ∧
    interrupted ≠ begun ∧
    begun.behavior.map (·.script) = some "a = a + 1" ∧
    interrupted.behavior.map (·.script) = some "a = \u00b2" ∧
    interrupted.compiled.map (·.source) = some "a = a + 1" ∧
    shows begun "a" 0.0 = true ∧ shows interrupted "a" 5.0 = true ∧
    shows (runTick interrupted {}).1.2 "a" 6.0 = true := by
  obtain ⟨_, _, _, old, new, course⟩ := interrupted_course
  refine ⟨begun_reached, interrupted_faulted, ?_, old, new, course⟩
  intro same
  rw [same, old] at new
  exact absurd new (by decide)

end EmitterLogic.Preview
