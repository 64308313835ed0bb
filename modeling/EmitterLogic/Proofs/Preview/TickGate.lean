import EmitterLogic.Proofs.Preview.TickSight

namespace EmitterLogic

open Binary64 Session Script

namespace Preview

open Staged

section Reached

def Adopted : Option Behavior → Option Tick.Compiled → Prop := fun b? _ => ∀ b ∈ b?, b.Settled

theorem recompile_adopted (b : Behavior) :
    Leads (Having Adopted) (recompile b) (Having Adopted) (Having Adopted) := by
  refine .look fun p h => Leads.here ?_ h
  split
  · refine .lifted (fun _ h => h) fun compiled _ => .change fun q hq => ?_
    exact ⟨hq.sound.values rfl rfl hq.sound.floats fun _ => rfl, hq.script⟩
  · exact .value fun _ h => h

theorem adopt_adopted (document : Datum) :
    Leads (Having Adopted) (adopt document) (Having Adopted) (Having Adopted) := by
  refine .lifted (fun _ h => h) fun b read => .lifted (fun _ h => h) fun values starting => ?_
  refine .seq (M := Having Adopted) (.change fun p h => ?_) fun _ => ?_
  · refine ⟨sound_adopted h.sound (Behavior.ofDatum_sound read) starting, ?_⟩
    rintro _ ⟨⟩
    exact Behavior.ofDatum_settled read
  · exact (recompile_adopted b).seq fun _ => applyBounds_having.weaken (fun _ h => h) fun _ h => h.1

theorem Call.run_adopted (call : Call) :
    Leads (Having Adopted) call.run (Having Adopted) (Having Adopted) := by
  cases call with
  | adopt document => exact adopt_adopted document
  | tick => exact runTick_having.weaken (fun _ h => h) fun _ h => h.1
  | death particle reason =>
    have kept : Leads (Having Adopted) (runDeath particle reason) (Having Adopted)
        (Having Adopted) := runDeath_keeps (fun _ h => h) (fun _ h _ => h) particle reason
    exact kept.discarded

theorem Reached.adopted {faults : Prop} {bs : List Behavior} {p : Preview}
    (h : Reached faults bs p) : Having Adopted p := by
  induction h with
  | fresh draws => exact ⟨sound_fresh draws, fun b h => absurd h (Option.not_mem_none b)⟩
  | returned call _ ran ih => exact call.run_adopted.of_ok ran ih
  | faulted call _ _ ran ih => exact call.run_adopted.of_error ran ih

end Reached

section Gate

/-- A tick action with an enabled condition of plain comparisons, whose variables are declared and
may be read by scripts. -/
structure Gated (vs : List Variable) (t : TickAction) : Prop where
  enabled : t.condition.enabled = true
  plain : ∀ r ∈ t.condition.rules, r.usesComputed = false
  declared : ∀ w ∈ t.condition.varNames, w ∈ vs.map (·.name) ∧ isReserved w = false

/-- No variable of a condition has the name of a particle value, their values are finite, and its
numbers are as they are written. -/
structure Undivided (store : Fields Datum) (f : Filter) : Prop where
  names : ∀ w ∈ f.varNames, w ∉ particleNames ∧ (storedNumber store w).isFinite = true
  literals : ∀ x ∈ f.literals, (written x == x) = true

variable {p q : Preview} {t : TickAction} {n : Nat} {x : Float}

theorem runTick_split {b : Behavior} (adopted : p.behavior = some b)
    (unscripted : b.script.isEmpty = true) {done rest : List TickAction}
    (actions : b.tickActions = done ++ t :: rest) {s s' : Session}
    (before : done.forM (carryOutAtTick (tickContext (p.tick + 1))) { p with tick := p.tick + 1 } s =
      ((.ok (), q), s')) :
    runTick p s = (carryOutAtTick (tickContext (p.tick + 1)) t >>= fun _ =>
      rest.forM (carryOutAtTick (tickContext (p.tick + 1))) >>= fun _ => applyBounds) q s' := by
  let act := carryOutAtTick (tickContext (p.tick + 1))
  have each : ∀ before after : List TickAction, (before ++ after).forM act =
      before.forM act >>= fun _ => after.forM act := by
    intro before after
    exact List.forM_append
  have started : runTick p s = (do
      if b.script.isEmpty then b.tickActions.forM act else runScript
      applyBounds : Staged Unit) { p with tick := p.tick + 1 } s := by
    cases p
    cases adopted
    rfl
  have unfolded : runTick p s =
      (b.tickActions.forM act >>= fun _ => applyBounds) { p with tick := p.tick + 1 } s := by
    rw [started, if_pos unscripted]
  have first : (t :: rest).forM act = act t >>= fun _ => rest.forM act := rfl
  rw [unfolded, actions, each, bind_assoc, first]
  exact (seq_ok before).trans (by rw [bind_assoc])

theorem carryOutAtTick_of_holds {context : Fields Datum} {decided : Bool}
    (holds : t.condition.holds ⟨context, q.store⟩ = pure decided) (s : Session) :
    carryOutAtTick context t q s = (if decided then carryOut context t.action else pure ()) q s := by
  let act : Bool → Staged Unit := fun ok => if ok then carryOut context t.action else pure ()
  have looked : (get : Staged Preview) q s = ((.ok q, q), s) := rfl
  have decides : live (pure decided : Live Bool) q s = ((.ok decided, q), s) := rfl
  have unfolded : carryOutAtTick context t =
      get >>= fun p => live (t.condition.holds ⟨context, p.store⟩) >>= act := rfl
  rw [unfolded, seq_ok looked, holds]
  exact seq_ok decides

theorem comparable_named {store : Fields Datum} {w : String} (finite : x.isFinite = true)
    (names : w ∉ particleNames ∧ (storedNumber store w).isFinite = true) :
    Comparable ((previewWorth store x).named w) ((codeWorth store x).named w) := by
  obtain ⟨particle, number⟩ := names
  have only : finiteOnly (storedNumber store w) = some (storedNumber store w) := if_pos number
  rw [previewWorth, codeWorth]
  by_cases tick : w = "tick"
  · simp only [if_pos tick]
    exact .refl finite
  · simp only [if_neg tick, if_neg particle, only]
    exact .refl number

theorem comparable_number {store : Fields Datum} {y : Float} (finite : y.isFinite = true)
    (same : (written y == y) = true) :
    Comparable ((previewWorth store x).number y) ((codeWorth store x).number y) :=
  ⟨finite, isFinite_written finite, ((beq_iff (isFinite_written finite) finite).mp same).symm⟩

theorem decisions_agree {store : Fields Datum} {f : Filter} (settled : f.Settled false)
    (finite : x.isFinite = true) (h : Undivided store f) :
    f.comesTo (previewWorth store x) = f.comesTo (codeWorth store x) := by
  refine Filter.comesTo_congr (List.forall₂_same.mpr fun r hr => ⟨rfl, ?_⟩)
  refine Rule.comesTo_congr ?_ ?_
  · cases side : r.left with
    | builtin b => exact .refl (isFinite_builtinWorth finite b)
    | named w =>
      have here := Rule.left_mem_varNames side
      exact comparable_named finite (h.names w (Filter.mem_varNames hr here))
    | reason => exact .refl zero_isFinite
  · cases side : r.right with
    | builtin b => exact .refl (isFinite_builtinWorth finite b)
    | named w =>
      have here := Rule.right_mem_varNames side
      exact comparable_named finite (h.names w (Filter.mem_varNames hr here))
    | number y =>
      have here := Filter.mem_literals hr side
      exact comparable_number ((settled.rules r hr).sides.right.number y side) (h.literals y here)
    | reason why => exact .refl zero_isFinite

theorem Gated.holds {vs : List Variable} (gated : Gated vs t)
    (settled : t.condition.Settled false) (count : (Number.int n).toFloat = .ok x)
    {store : Fields Datum} (h : Furnished (vs.map (·.name)) store) :
    t.condition.holds ⟨tickContext n, store⟩ =
      pure (t.condition.comesTo (previewWorth store x)) :=
  Filter.holds_seenAs gated.enabled fun r hr =>
    seenAs (settled.rules r hr) (gated.plain r hr) count h fun w hw =>
      (gated.declared w (Filter.mem_varNames hr hw)).1

theorem Gated.code {vs : List Variable} (gated : Gated vs t) (settled : t.condition.Settled false)
    (count : (Number.int n).toFloat = .ok x) {store : Fields Datum}
    (h : Furnished (vs.map (·.name)) store) (limit : Nat) (draws : Draws) :
    ∃ code e, t.condition.toKotlin TickAction.conditionMap .literal = pure code ∧
      parseExpression code = .ok e ∧
      (evaluate bindingsHost limit e (tickMachine n store draws)).1 =
        .ok (.bool (t.condition.comesTo (codeWorth store x))) := by
  have written : Gates (tickMachine n store draws).rewound
      (t.condition.toKotlin TickAction.conditionMap .literal)
      (t.condition.comesTo (codeWorth store x)) :=
    Filter.gates gated.enabled settled.normal.nonempty fun r hr =>
      writtenAs (settled.rules r hr) (gated.plain r hr) count h fun w hw =>
        gated.declared w (Filter.mem_varNames hr hw)
  exact written.evaluates limit

/-- A tick carries out an action just if its condition comes to true with the worths of the preview,
the code of the condition is true just if it does with the worths of the code, and the two agree on
undivided conditions. -/
theorem runTick_gates {faults : Prop} {bs : List Behavior} (reached : Reached faults bs p)
    {b : Behavior} (adopted : p.behavior = some b) (unscripted : b.script.isEmpty = true)
    {done rest : List TickAction} (actions : b.tickActions = done ++ t :: rest)
    (gated : Gated b.vars t) {s s' : Session}
    (before : done.forM (carryOutAtTick (tickContext (p.tick + 1))) { p with tick := p.tick + 1 } s =
      ((.ok (), q), s'))
    (count : (Number.int (p.tick + 1 : Nat)).toFloat = .ok x) (limit : Nat) (draws : Draws) :
    Filter.ofDatum t.condition.toDatum = .ok t.condition ∧
    (∃ code e, t.condition.toKotlin TickAction.conditionMap .literal = pure code ∧
      parseExpression code = .ok e ∧
      (evaluate bindingsHost limit e (tickMachine (p.tick + 1) q.store draws)).1 =
        .ok (.bool (t.condition.comesTo (codeWorth q.store x)))) ∧
    runTick p s = ((if t.condition.comesTo (previewWorth q.store x)
        then carryOut (tickContext (p.tick + 1)) t.action else pure ()) >>= fun _ =>
      rest.forM (carryOutAtTick (tickContext (p.tick + 1))) >>= fun _ => applyBounds) q s' ∧
    (Undivided q.store t.condition →
      t.condition.comesTo (previewWorth q.store x) = t.condition.comesTo (codeWorth q.store x)) := by
  have start := reached.adopted
  have settled : t.condition.Settled false := by
    have mem : t ∈ b.tickActions := by
      rw [actions]
      exact List.mem_append_right _ List.mem_cons_self
    exact ((start.script b adopted).tickActions t mem).condition
  have having : Having (fun b' _ => b' = some b) q := by
    have each : Leads (Having fun b' _ => b' = some b)
        (done.forM (carryOutAtTick (tickContext (p.tick + 1)))) (Having fun b' _ => b' = some b)
        (Having fun b' _ => b' = some b) := .each fun t _ => carryOutAtTick_having _ t
    exact each.of_ok before ⟨start.sound.values rfl rfl start.sound.floats fun _ => rfl, adopted⟩
  have furnished := having.sound.furnished having.script
  refine ⟨Filter.ofDatum_reread settled, gated.code settled count furnished limit draws, ?_,
    decisions_agree settled (isFinite_of_toFloat count)⟩
  rw [runTick_split adopted unscripted actions before]
  exact seq_congr (carryOutAtTick_of_holds (gated.holds settled count furnished) s')

end Gate

section Watching

/-- A variable of value five, and an action where it is above one and a half. -/
def watching (w : String) : Datum := .object [
  ("emitterVars", .list [
    .object [("name", .text w), ("defaultValue", .int 5)], .object [("name", .text "hit")]]),
  ("tickActions", .list [.object [("varName", .text "hit"), ("op", .text "inc"),
    ("condition", .object [("enabled", .bool true), ("rules", .list [.object [
      ("left", .text "var"), ("leftVar", .text w), ("op", .text ">"), ("right", .text "number"),
      ("rightValue", .float 1.5)]])])]])]

def watched (w : String) : Preview := ((Call.adopt (watching w)).run {} {}).1.2

def lone (p : Preview) (check : List Variable → TickAction → Bool) : Bool :=
  match p.behavior with
  | some ⟨vs, script, [t], _⟩ => script.isEmpty && check vs t
  | _ => false

theorem exists_lone {p : Preview} {check : List Variable → TickAction → Bool}
    (h : lone p check = true) : ∃ b t, p.behavior = some b ∧ b.script.isEmpty = true ∧
      b.tickActions = [t] ∧ check b.vars t = true := by
  rw [lone] at h
  split at h
  · next vs script t death adopted =>
    rw [Bool.and_eq_true] at h
    exact ⟨_, t, adopted, h.1, rfl, h.2⟩
  · cases h

instance (vs : List Variable) (t : TickAction) : Decidable (Gated vs t) :=
  decidable_of_iff (t.condition.enabled = true ∧ (∀ r ∈ t.condition.rules, r.usesComputed = false) ∧
      ∀ w ∈ t.condition.varNames, w ∈ vs.map (·.name) ∧ isReserved w = false)
    ⟨fun h => ⟨h.1, h.2.1, h.2.2⟩, fun h => ⟨h.enabled, h.plain, h.declared⟩⟩

instance (store : Fields Datum) (f : Filter) : Decidable (Undivided store f) :=
  decidable_of_iff ((∀ w ∈ f.varNames, w ∉ particleNames ∧ (storedNumber store w).isFinite = true) ∧
      ∀ x ∈ f.literals, (written x == x) = true)
    ⟨fun h => ⟨h.1, h.2⟩, fun h => ⟨h.names, h.literals⟩⟩

theorem runTick_gates_hp : ∃ b t code e, (watched "hp").behavior = some b ∧ b.tickActions = [t] ∧
    Undivided (watched "hp").store t.condition ∧
    t.condition.toKotlin TickAction.conditionMap .literal = pure code ∧
    parseExpression code = .ok e ∧
    (evaluate bindingsHost 0 e (tickMachine 1 (watched "hp").store {})).1 = .ok (.bool true) ∧
    runTick (watched "hp") {} =
      (carryOut (tickContext 1) t.action >>= fun _ => pure () >>= fun _ => applyBounds)
        { watched "hp" with tick := 1 } {} := by
  obtain ⟨returns, fresh, shape⟩ : ((Call.adopt (watching "hp")).run {} {}).1.1.isOk = true ∧
      (watched "hp").tick = 0 ∧ lone (watched "hp") (fun vs t => decide (Gated vs t) &&
        decide (Undivided (watched "hp").store t.condition) &&
          t.condition.comesTo (codeWorth (watched "hp").store 1.0)) = true := by decide +kernel
  have reached : Reached False _ (watched "hp") :=
    Reached.next (.fresh {}) (.adopt (watching "hp")) {} returns
  generalize watched "hp" = p at shape reached fresh ⊢
  obtain ⟨b, t, adopted, unscripted, actions, shape⟩ := exists_lone shape
  simp only [Bool.and_eq_true, decide_eq_true_eq] at shape
  obtain ⟨⟨gated, undivided⟩, coded⟩ := shape
  have count : (Number.int (p.tick + 1 : Nat)).toFloat = .ok 1.0 := by
    rw [fresh]
    rfl
  have alone : b.tickActions = [] ++ t :: [] := actions
  obtain ⟨_, ⟨code, e, written, parsed, value⟩, run, agree⟩ :=
    runTick_gates (s := {}) reached adopted unscripted alone gated rfl count 0 {}
  rw [agree undivided, coded, if_pos rfl] at run
  rw [coded] at value
  rw [fresh] at run value
  exact ⟨b, t, code, e, adopted, actions, undivided, written, parsed, value, run⟩

/-- A variable that is called `age` is zero to the preview, and itself in the code. -/
theorem runTick_gates_age : ∃ b t code e, (∃ bs, Reached False bs (watched "age")) ∧
    (watched "age").behavior = some b ∧ b.script.isEmpty = true ∧ b.tickActions = [t] ∧
    Gated b.vars t ∧
    t.condition.toKotlin TickAction.conditionMap .literal = pure code ∧
    parseExpression code = .ok e ∧
    (evaluate bindingsHost 0 e (tickMachine 1 (watched "age").store {})).1 = .ok (.bool true) ∧
    runTick (watched "age") {} = applyBounds { watched "age" with tick := 1 } {} ∧
    (storedNumber (runTick (watched "age") {}).1.2.store "hit" == 0.0) = true := by
  obtain ⟨returns, fresh, missed, shape⟩ :
      ((Call.adopt (watching "age")).run {} {}).1.1.isOk = true ∧ (watched "age").tick = 0 ∧
      (storedNumber (runTick (watched "age") {}).1.2.store "hit" == 0.0) = true ∧
      lone (watched "age") (fun vs t => decide (Gated vs t) &&
        !t.condition.comesTo (previewWorth (watched "age").store 1.0) &&
          t.condition.comesTo (codeWorth (watched "age").store 1.0)) = true := by decide +kernel
  have reached : Reached False _ (watched "age") :=
    Reached.next (.fresh {}) (.adopt (watching "age")) {} returns
  generalize watched "age" = p at shape missed reached fresh ⊢
  obtain ⟨b, t, adopted, unscripted, actions, shape⟩ := exists_lone shape
  simp only [Bool.and_eq_true, Bool.not_eq_true', decide_eq_true_eq] at shape
  obtain ⟨⟨gated, seen⟩, coded⟩ := shape
  have count : (Number.int (1 : Nat)).toFloat = .ok 1.0 := rfl
  have start := reached.adopted
  have settled := ((start.script b adopted).tickActions t
    (by rw [actions]; exact List.mem_cons_self)).condition
  have furnished := start.sound.furnished adopted
  obtain ⟨code, e, written, parsed, value⟩ := gated.code settled count furnished 0 {}
  rw [coded] at value
  have alone : b.tickActions = [] ++ t :: [] := actions
  have run := runTick_split (s := {}) adopted unscripted alone rfl
  have holds := gated.holds settled count furnished
  rw [seen] at holds
  rw [fresh] at run
  have skipped := carryOutAtTick_of_holds (q := { p with tick := 1 }) holds {}
  exact ⟨b, t, code, e, ⟨_, reached⟩, adopted, unscripted, actions, gated, written, parsed, value,
    run.trans (seq_congr skipped), missed⟩

end Watching

end Preview

end EmitterLogic
