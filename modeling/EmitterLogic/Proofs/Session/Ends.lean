import Mathlib.Data.List.Induction
import Mathlib.Data.List.Nodup
import EmitterLogic.Proofs.Predicate.Termination
import EmitterLogic.Proofs.Predicate.Members
import EmitterLogic.Proofs.Session.History

namespace EmitterLogic

open Script (evaluate bindingsHost)

theorem Predicate.request_log {text : String} {p : Predicate} (h : compile text = .ok p)
    (c : Cache (Option Predicate)) (log : Log) : (request c log text).2.2 = log := by
  rw [request]
  cases c.hit? text with
  | some found => rfl
  | none =>
    rw [h]

namespace Session

variable {σ : Session} {text : String}

theorem evalPredicate_of_error (sight : Sight) (fallback : Bool) (h : σ.Consistent) {e : Predicate.Error}
    (compiled : Predicate.compile (trimmed text) = .error e) :
    (evalPredicate sight text fallback σ).1 = .ok fallback := by
  obtain ⟨asked, _⟩ := Predicate.request_holds h.predicates σ.log (trimmed text)
  rw [compiled] at asked
  have none : (predicate? (trimmed text) σ).1 = .ok Option.none := congrArg Except.ok asked
  simp only [evalPredicate]
  split
  · rfl
  · rcases ran : predicate? (trimmed text) σ with ⟨result, after⟩
    rw [ran] at none
    cases none
    simp only [bind, ExceptT.bind, ExceptT.mk, StateT.bind, ran]
    rfl

def conclusion (text : String) (fallback : Bool) (log : Log) :
    Except Script.Interrupt Bool → Except Fault Bool × Log
  | .ok b => (.ok b, log)
  | .error (.fault f) => (.error f, log)
  | .error i => (.ok fallback, log.writeOnce "bool" ("eval:" ++ text)
      ("evaluation failed for " ++ quoted text ++ ": " ++ i.message))

theorem conclusion_of_error (text : String) (fallback : Bool) {i : Script.Interrupt}
    (other : ∀ f, i ≠ .fault f) (log : Log) :
    conclusion text fallback log (.error i) =
      (.ok fallback, log.writeOnce "bool" ("eval:" ++ text)
        ("evaluation failed for " ++ quoted text ++ ": " ++ i.message)) := by
  cases i with
  | fault f => exact absurd rfl (other f)
  | _ => rfl

theorem evalPredicate_of_found (sight : Sight) (fallback : Bool) {p : Predicate} {σ' : Session}
    (visible : ¬(trimmed text).isEmpty = true)
    (found : predicate? (trimmed text) σ = (.ok (some p), σ')) :
    evalPredicate sight text fallback σ = (do
      let (result, draws) := p.eval sight.context sight.vars σ'.draws
      modify fun s : Session => { s with draws }
      match result with
      | .ok b => return b
      | .error (.fault f) => throw f
      | .error i =>
        report "bool" ("eval:" ++ trimmed text)
          ("evaluation failed for " ++ quoted (trimmed text) ++ ": " ++ i.message)
        return fallback : Live Bool) σ' := by
  simp only [evalPredicate, if_neg visible, bind, ExceptT.bind, ExceptT.mk, StateT.bind, found]
  rfl

theorem evalPredicate_of_ok (sight : Sight) (fallback : Bool) (h : σ.Consistent) {p : Predicate}
    (compiled : Predicate.compile (trimmed text) = .ok p) :
    ∃ after, evalPredicate sight text fallback σ = ((conclusion (trimmed text) fallback σ.log
        (p.eval sight.context sight.vars σ.draws).1).1, after) ∧
      after.log = (conclusion (trimmed text) fallback σ.log
        (p.eval sight.context sight.vars σ.draws).1).2 := by
  have visible : ¬(trimmed text).isEmpty = true := by
    intro empty
    rw [Predicate.compile, if_pos empty] at compiled
    cases compiled
  obtain ⟨asked, _⟩ := Predicate.request_holds h.predicates σ.log (trimmed text)
  have quiet := Predicate.request_log compiled σ.predicates σ.log
  rw [compiled] at asked
  let σ' : Session := { σ with
    predicates := (Predicate.request σ.predicates σ.log (trimmed text)).2.1 }
  have found : predicate? (trimmed text) σ = (.ok (some p), σ') := by
    have unfolded : predicate? (trimmed text) σ =
        (.ok (Predicate.request σ.predicates σ.log (trimmed text)).1,
          { σ' with log := (Predicate.request σ.predicates σ.log (trimmed text)).2.2 }) := rfl
    rw [unfolded, asked, quiet]
    rfl
  rw [evalPredicate_of_found sight fallback visible found]
  rcases p.eval sight.context sight.vars σ.draws with ⟨result, draws⟩
  cases result with
  | ok b => exact ⟨_, rfl, rfl⟩
  | error i => cases i <;> exact ⟨_, rfl, rfl⟩

section Flat

variable (sight : Sight) (hcontext : ∀ e ∈ sight.context, e.2.IsFlat ∧ e.2.InRange)
  (hvars : ∀ e ∈ sight.vars, e.2.IsFlat ∧ e.2.InRange)
include hcontext hvars

theorem evalPredicate_cases (fallback : Bool) (h : σ.Consistent) {p : Predicate}
    (compiled : Predicate.compile (trimmed text) = .ok p) {m : Script.Machine (Fields Script.Value)}
    (start : Predicate.machineFor sight.context sight.vars σ.draws = m) :
    ∃ result after, evalPredicate sight text fallback σ = (result, after) ∧
      ((p.expr.Overreaches bindingsHost 0 m ∧ result = .error .infinite ∧ after.log = σ.log) ∨
        (¬p.expr.Overreaches bindingsHost 0 m ∧ ∃ v b, (evaluate bindingsHost 0 p.expr m).1 = .ok v ∧
          v.truthy = .ok b ∧ result = .ok b ∧ after.log = σ.log) ∨
        (¬p.expr.Overreaches bindingsHost 0 m ∧ ∃ i, (evaluate bindingsHost 0 p.expr m).1 = .error i ∧
          i ≠ .outOfFuel ∧ result = .ok fallback ∧
          after.log = σ.log.writeOnce "bool" ("eval:" ++ trimmed text)
            ("evaluation failed for " ++ quoted (trimmed text) ++ ": " ++ i.message))) := by
  obtain ⟨after, answered, log⟩ := evalPredicate_of_ok sight fallback h compiled
  refine ⟨_, after, answered, ?_⟩
  subst start
  have ends := (Script.Sound.evaluate Predicate.bindingsHost_numeric 0 p.expr _
    (Predicate.machineFor_holds hcontext hvars σ.draws)).1
  cases ran : (evaluate bindingsHost 0 p.expr
      (Predicate.machineFor sight.context sight.vars σ.draws)).1 with
  | ok v =>
    rw [ran] at ends
    obtain ⟨b, counts⟩ := ends.1.truthy
    rw [Predicate.eval_of_ok ran counts] at log ⊢
    exact .inr (.inl ⟨ends.2, v, b, rfl, counts, rfl, log⟩)
  | error i =>
    rw [ran] at ends
    have ended := Predicate.eval_of_error ran
    rw [ended] at log ⊢
    rcases Script.Ends.error_cases ends with ⟨rfl, beyond⟩ | ⟨other, within⟩
    · exact .inl ⟨beyond, rfl, log⟩
    · have fueled : i ≠ .outOfFuel := by
        rintro rfl
        exact Predicate.eval_ends compiled sight.context sight.vars σ.draws ended
      rw [conclusion_of_error _ _ other] at log ⊢
      exact .inr (.inr ⟨within, i, rfl, fueled, rfl, log⟩)

/-- After any requests a text has a truth value or, with its error in the log, the fallback, unless its
evaluation comes to an element at an infinite position; then that fault passes through. Only a text in
which the name of a member spells an infinity can come to one. -/
theorem evalPredicate_returns (config : Config) (formulas predicates : Option Int) (draws : Draws)
    (earlier : List Request) (text : String) (fallback : Bool) :
    let σ := (opened config formulas predicates draws).after earlier
    let answer := evalPredicate sight text fallback σ
    let m := Predicate.machineFor sight.context sight.vars σ.draws
    (∀ e, Predicate.compile (trimmed text) = .error e → answer.1 = .ok fallback) ∧
    ∀ p, Predicate.compile (trimmed text) = .ok p →
      ((p.expr.Overreaches bindingsHost 0 m ∧ answer.1 = .error .infinite ∧ answer.2.log = σ.log) ∨
        (¬p.expr.Overreaches bindingsHost 0 m ∧ ∃ v b, (evaluate bindingsHost 0 p.expr m).1 = .ok v ∧
          v.truthy = .ok b ∧ answer.1 = .ok b ∧ answer.2.log = σ.log) ∨
        (¬p.expr.Overreaches bindingsHost 0 m ∧ ∃ i, (evaluate bindingsHost 0 p.expr m).1 = .error i ∧
          i ≠ .outOfFuel ∧ answer.1 = .ok fallback ∧
          answer.2.log = σ.log.writeOnce "bool" ("eval:" ++ trimmed text)
            ("evaluation failed for " ++ quoted (trimmed text) ++ ": " ++ i.message))) ∧
      (Predicate.SpellFinite (Predicate.memberNames p.expr) →
        ¬p.expr.Overreaches bindingsHost 0 m) := by
  intro σ answer m
  have consistent : σ.Consistent := after_consistent (opened_consistent ..) earlier
  refine ⟨fun e compiled => evalPredicate_of_error sight fallback consistent compiled, ?_⟩
  intro p compiled
  constructor
  · obtain ⟨result, after, answered, cases⟩ := evalPredicate_cases sight hcontext hvars fallback
      consistent compiled (m := m) rfl
    have same : answer = (result, after) := answered
    rw [same]
    exact cases
  · have sealed := Predicate.machineFor_seals (fun e member => (hcontext e member).1)
      (fun e member => (hvars e member).1) σ.draws
    exact fun names => Predicate.overreaches_avoids compiled names sealed

end Flat

theorem evalPredicate_returns_infinity :
    let context : Fields Datum := [("reason", .text "AGE")]
    let σ := (opened {} none none {}).after []
    (∀ e ∈ context, e.2.IsFlat ∧ e.2.InRange) ∧
      ∃ p, Predicate.compile (trimmed "reason.Infinity == 1") = .ok p ∧
        p.expr.Overreaches bindingsHost 0 (Predicate.machineFor context [] σ.draws) ∧
        (evalPredicate { context } "reason.Infinity == 1" false σ).1 = .error .infinite := by
  intro context σ
  have flat : ∀ e ∈ context, e.2.IsFlat ∧ e.2.InRange := by
    rw [List.forall_mem_singleton]
    exact ⟨trivial, .text "AGE"⟩
  have accepted : (Predicate.compile (trimmed "reason.Infinity == 1")).isOk = true := by
    decide +kernel
  have fails : (evalPredicate { context } "reason.Infinity == 1" false σ).1.isOk = false := by
    decide +kernel
  obtain ⟨_, returns⟩ := evalPredicate_returns { context } flat (List.forall_mem_nil _) {} none none {}
    [] "reason.Infinity == 1" false
  cases compiled : Predicate.compile (trimmed "reason.Infinity == 1") with
  | error e =>
    rw [compiled] at accepted
    cases accepted
  | ok p =>
    refine ⟨flat, p, rfl, ?_⟩
    rcases (returns p compiled).1 with ⟨beyond, faults, _⟩ | ⟨_, _, _, _, _, ok, _⟩ | ⟨_, _, _, _, ok, _⟩
    · exact ⟨beyond, faults⟩
    · rw [ok] at fails
      cases fails
    · rw [ok] at fails
      cases fails

theorem evalPredicate_faults : ¬∃ b,
    (evalPredicate { context := [("reason", .text "AGE")] } "reason.Infinity == 1" false {}).1 =
      .ok b := by
  have fails : (evalPredicate { context := [("reason", .text "AGE")] } "reason.Infinity == 1" false
      {}).1.isOk = false := by decide +kernel
  rintro ⟨b, ok⟩
  rw [ok] at fails
  cases fails

end Session

end EmitterLogic
