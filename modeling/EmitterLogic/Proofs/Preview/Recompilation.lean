import EmitterLogic.Proofs.Tick.Verdict
import EmitterLogic.Proofs.Preview.Adoption

/-!
When the compiled script of a preview is that of the adopted behavior. A script is compiled again
only when its text changes, so that its verdict may be on the names of an earlier behavior.
-/

namespace EmitterLogic.Preview

open Staged Tick

/-- The behavior that the script in use was compiled for. -/
def origin : List Behavior → Option Behavior
  | [] => none
  | b :: bs =>
    if (origin bs).map (cleanSource ·.script) = some b.script then origin bs
    else if b.script.isEmpty then none
    else some b

def CompiledFor : Option Behavior → Option Tick.Compiled → Prop
  | none, c? => c? = none
  | some o, c? => ∃ c, c? = some c ∧ Tick.Compiled.ofText o.script o.variableNames = .ok c ∧
      cleanSource o.script ≠ ""

theorem CompiledFor.source {o? : Option Behavior} {c? : Option Tick.Compiled}
    (h : CompiledFor o? c?) : c?.map (·.source) = o?.map (cleanSource ·.script) := by
  cases o? with
  | none => rw [h]; rfl
  | some o =>
    obtain ⟨c, rfl, compiled, _⟩ := h
    exact congrArg some (of_ofText_ok compiled).1

theorem script_clean {d : Datum} {b : Behavior} (h : Behavior.ofDatum d = .ok b) :
    ∃ text, b.script = cleanSource text := by
  rw [Behavior.ofDatum] at h
  split at h
  · obtain ⟨vs, _, h⟩ := bind_ok h
    obtain ⟨actions, _, h⟩ := bind_ok h
    obtain ⟨death, _, h⟩ := bind_ok h
    cases h
    exact ⟨_, rfl⟩
  · obtain ⟨death, _, h⟩ := bind_ok h
    cases h
    exact ⟨"", rfl⟩

theorem compiledFor_recompiled {bs : List Behavior} {b : Behavior} {c c' : Option Tick.Compiled}
    (h : CompiledFor (origin bs) c) (clean : ∃ text, b.script = cleanSource text)
    (new : recompiled c b = .ok c') : CompiledFor (origin (b :: bs)) c' := by
  rw [recompiled, h.source] at new
  rw [origin]
  by_cases kept : (origin bs).map (cleanSource ·.script) = some b.script
  · rw [kept, if_neg (by simp)] at new
    cases new
    rw [if_pos kept]
    exact h
  · rw [if_pos (bne_iff_ne.mpr kept), compiledScript] at new
    rw [if_neg kept]
    split at new
    · next empty =>
      cases new
      rw [if_pos empty]
      rfl
    · next visible =>
      rw [if_neg visible]
      obtain ⟨text, clean⟩ := clean
      cases compiled : Tick.Compiled.ofText b.script b.variableNames with
      | error f =>
        rw [compiled] at new
        cases new
      | ok c =>
        rw [compiled] at new
        cases new
        refine ⟨c, rfl, compiled, ?_⟩
        rw [clean] at visible ⊢
        exact cleanSource_ne_empty (by simpa using visible)

def Call.Recompiles (c c' : Option Tick.Compiled) : Call → Prop
  | adopt document => ∃ b, Behavior.ofDatum document = .ok b ∧ recompiled c b = .ok c'
  | tick => c' = c
  | death _ _ => c' = c

theorem Call.run_having (c : Option Tick.Compiled) (call : Call) :
    Leads (Having fun _ c' => c' = c) call.run (fun p => p.Sound ∧ call.Recompiles c p.compiled)
      (Having fun _ c' => c' = c) := by
  cases call with
  | adopt document =>
    refine (adopt_having c document).weaken (fun _ h => h) fun p h => ?_
    obtain ⟨settled, b, read, _, new⟩ := h
    exact ⟨settled.toSound, b, read, new⟩
  | tick => exact runTick_having.weaken (fun _ h => h) fun _ h => ⟨h.1.sound, h.1.script⟩
  | death particle reason =>
    have kept : Leads (Having fun _ c' => c' = c) (runDeath particle reason)
        (Having fun _ c' => c' = c) (Having fun _ c' => c' = c) :=
      runDeath_keeps (fun _ h => h) (fun _ h _ => h) particle reason
    exact kept.discarded.weaken (fun _ h => h) fun _ h => ⟨h.sound, h.script⟩

theorem compiledFor_call {bs : List Behavior} {c c' : Option Tick.Compiled} {call : Call}
    (h : CompiledFor (origin bs) c) (new : call.Recompiles c c') :
    CompiledFor (origin (call.history bs)) c' := by
  cases call with
  | adopt document =>
    obtain ⟨b, read, new⟩ := new
    rw [Call.history, read]
    exact compiledFor_recompiled h (script_clean read) new
  | tick =>
    cases new
    exact h
  | death particle reason =>
    cases new
    exact h

theorem Reached.compiledFor {faults : Prop} {bs : List Behavior} {p : Preview}
    (h : Reached faults bs p) : p.Sound ∧ CompiledFor (origin bs) p.compiled := by
  induction h with
  | fresh draws => exact ⟨sound_fresh draws, rfl⟩
  | @returned bs p q s s' call _ ran ih =>
    obtain ⟨sound, new⟩ := (call.run_having p.compiled).of_ok ran ⟨ih.1, rfl⟩
    exact ⟨sound, compiledFor_call ih.2 new⟩
  | @faulted bs p q s s' f call _ _ ran ih =>
    obtain ⟨sound, same⟩ := (call.run_having p.compiled).of_error ran ⟨ih.1, rfl⟩
    rw [same]
    exact ⟨sound, ih.2⟩

/-- The verdict for one behavior is that for another one: on one text, either it does not parse or
its first unknown name is the same; on two texts, by the reports themselves. -/
def Serves (o b : Behavior) : Prop :=
  cleanSource o.script = cleanSource b.script ∧
      ((∀ program, Script.parseProgram (cleanSource b.script) ≠ .ok program) ∨
        unknownName? o.variableNames (cleanSource b.script).toList =
          unknownName? b.variableNames (cleanSource b.script).toList) ∨
    cleanSource o.script ≠ cleanSource b.script ∧
      ∃ c c', Tick.Compiled.ofText o.script o.variableNames = .ok c ∧
        Tick.Compiled.ofText b.script b.variableNames = .ok c' ∧ c'.report = c.report

theorem serves_iff {o b : Behavior} {c : Tick.Compiled} (visible : cleanSource o.script ≠ "")
    (h : Tick.Compiled.ofText o.script o.variableNames = .ok c) :
    Serves o b ↔ ∃ c', Tick.Compiled.ofText b.script b.variableNames = .ok c' ∧
      c'.report = c.report := by
  rw [Serves]
  by_cases same : cleanSource o.script = cleanSource b.script
  · obtain ⟨_, found⟩ := of_ofText_ok h
    rw [same] at visible found
    rw [← exists_report_iff visible found]
    constructor
    · rintro (⟨_, v, found', reports⟩ | ⟨other, _⟩)
      · exact ⟨_, ofText_ok found', reports⟩
      · exact absurd same other
    · rintro ⟨c', compiled, reports⟩
      exact .inl ⟨same, c'.verdict, (of_ofText_ok compiled).2, reports⟩
  · constructor
    · rintro (⟨same', _⟩ | ⟨_, c, c', compiled, compiled', reports⟩)
      · exact absurd same' same
      · cases h.symm.trans compiled
        exact ⟨c', compiled', reports⟩
    · rintro ⟨c', compiled', reports⟩
      exact .inr ⟨same, c, c', h, compiled', reports⟩

theorem script_of_origin {b : Behavior} {bs : List Behavior} (h : origin (b :: bs) = none) :
    b.script = "" := by
  rw [origin] at h
  split at h
  · next kept =>
    rw [h] at kept
    cases kept
  · split at h
    · next empty => exact String.isEmpty_iff.mp empty
    · cases h

theorem visible_of_origin {b o : Behavior} {bs : List Behavior} (h : origin (b :: bs) = some o)
    (visible : cleanSource o.script ≠ "") : b.script.isEmpty = false := by
  rw [origin] at h
  split at h
  · next kept =>
    rw [h] at kept
    rw [← Option.some.inj kept]
    simpa using visible
  · split at h
    · cases h
    · next some => simpa using some

theorem compiled_report_iff {faults : Prop} {b : Behavior} {bs : List Behavior} {p : Preview}
    (h : Reached faults (b :: bs) p) :
    (∃ c, compiledScript b = .ok c ∧ c.map (·.report) = p.compiled.map (·.report)) ↔
      ∀ o, origin (b :: bs) = some o → Serves o b := by
  have compiled := h.compiledFor.2
  cases found : origin (b :: bs) with
  | none =>
    rw [found] at compiled
    have compiled : p.compiled = none := compiled
    have empty : b.script.isEmpty = true := by rw [script_of_origin found]; rfl
    rw [compiled, compiledScript, if_pos empty]
    constructor
    · intro _ o other
      cases other
    · intro _
      exact ⟨none, rfl, rfl⟩
  | some o =>
    rw [found] at compiled
    obtain ⟨c, inUse, own, visible⟩ := compiled
    rw [inUse, compiledScript, visible_of_origin found visible, if_neg Bool.false_ne_true]
    have needed : (∀ o', some o = some o' → Serves o' b) ↔ Serves o b :=
      ⟨fun all => all o rfl, fun serves o' same => Option.some.inj same ▸ serves⟩
    rw [needed, serves_iff visible own]
    constructor
    · rintro ⟨c?, new, reports⟩
      cases compiled : Tick.Compiled.ofText b.script b.variableNames with
      | error f =>
        rw [compiled] at new
        cases new
      | ok c' =>
        rw [compiled] at new
        cases new
        exact ⟨c', rfl, Option.some.inj reports⟩
    · rintro ⟨c', new, reports⟩
      exact ⟨some c', by rw [new]; rfl, congrArg some reports⟩

/-- A behavior whose script sets `b`, with some variables. -/
def setting (names : List String) : Datum := .object [
  ("emitterVars", .list (names.map fun name => .object [("name", .text name)])),
  ("tickExpression", .text "b = 1")]

/-- Here `b` is declared only after the script has been compiled. -/
def redeclared : Preview :=
  ((Call.adopt (setting ["a", "b"])).run ((Call.adopt (setting ["a"])).run {} {}).1.2 {}).1.2

def compilesWell (document : Datum) : Bool :=
  match Behavior.ofDatum document with
  | .error _ => false
  | .ok b =>
    match compiledScript b with
    | .error _ => false
    | .ok c => c.any (·.report.isOk)

theorem of_compilesWell {document : Datum} (h : compilesWell document = true) :
    ∃ b c, Behavior.ofDatum document = .ok b ∧ compiledScript b = .ok c ∧
      c.any (·.report.isOk) = true := by
  rw [compilesWell] at h
  cases read : Behavior.ofDatum document with
  | error f =>
    rw [read] at h
    cases h
  | ok b =>
    simp only [read] at h
    cases compiled : compiledScript b with
    | error f =>
      rw [compiled] at h
      cases h
    | ok c =>
      rw [compiled] at h
      exact ⟨b, c, rfl, compiled, h⟩

theorem redeclared_course :
    compilesWell (setting ["a", "b"]) = true ∧
    ((Call.adopt (setting ["a"])).run {} {}).1.1.isOk = true ∧
    ((Call.adopt (setting ["a", "b"])).run
      ((Call.adopt (setting ["a"])).run {} {}).1.2 {}).1.1.isOk = true ∧
    redeclared.compiled.any (·.report.isOk) = false := by
  decide +kernel

theorem redeclared_reached {b : Behavior} (read : Behavior.ofDatum (setting ["a", "b"]) = .ok b) :
    ∃ bs, Reached False (b :: bs) redeclared := by
  obtain ⟨_, first, second, _⟩ := redeclared_course
  have start : Reached False [] {} := .fresh {}
  have second := (start.next (.adopt (setting ["a"])) {} first).next
    (.adopt (setting ["a", "b"])) {} second
  rw [Call.history, read] at second
  exact ⟨_, second⟩

theorem compiled_report_iff_redeclared : ∃ b bs, Reached False (b :: bs) redeclared ∧
    ((∃ c, compiledScript b = .ok c ∧ c.map (·.report) = redeclared.compiled.map (·.report)) ↔
      ∀ o, origin (b :: bs) = some o → Serves o b) := by
  obtain ⟨b, _, read, _⟩ := of_compilesWell redeclared_course.1
  obtain ⟨bs, reached⟩ := redeclared_reached read
  exact ⟨b, bs, reached, compiled_report_iff reached⟩

theorem redeclared_stale : ∃ b bs, Behavior.ofDatum (setting ["a", "b"]) = .ok b ∧
    Reached False (b :: bs) redeclared ∧
      ¬∃ c, compiledScript b = .ok c ∧ c.map (·.report) = redeclared.compiled.map (·.report) := by
  obtain ⟨b, c, read, compiled, good⟩ := of_compilesWell redeclared_course.1
  obtain ⟨bs, reached⟩ := redeclared_reached read
  have bad := redeclared_course.2.2.2
  refine ⟨b, bs, read, reached, ?_⟩
  rintro ⟨c', compiled', reports⟩
  cases compiled.symm.trans compiled'
  have same := congrArg (·.any Report.isOk) reports
  simp only [Option.any_map] at same
  exact absurd (good.symm.trans (same.trans bad)) (by decide)

end EmitterLogic.Preview
