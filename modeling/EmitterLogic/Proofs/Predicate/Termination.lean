import EmitterLogic.Predicate.Basic
import EmitterLogic.Proofs.Datum.InRange
import EmitterLogic.Proofs.Predicate.Memory
import EmitterLogic.Proofs.Predicate.Plain
import EmitterLogic.Proofs.Script.FunctionFree
import EmitterLogic.Proofs.Script.Sound
import EmitterLogic.Proofs.Script.Walk

/-!
The evaluation of predicates. A plain tree holds no function, so that over bindings without functions no call
leads into a script; what is left is one walk over the tree. Over values that stand for numbers the bindings of a
predicate hold such values only, and the one fault is that of an element at an infinite position.
-/

namespace EmitterLogic.Predicate

open Script

section Evaluation

variable {call call' : Nat → List Value → Run (Fields Value) Value}

mutual

theorem evalExpr_agree (env : Env) {e : Expr} (h : PlainExpr e) :
    Agree (evalExpr bindingsHost 0 call env e) (evalExpr bindingsHost 0 call' env e)
      Value.IsFree := by
  cases e with
  | number x => exact .value trivial
  | text s => cases h
  | literal l =>
    simp only [evalExpr]
    cases l <;> exact .value trivial
  | name id position => exact readName_stays env id
  | member holder property =>
    simp only [evalExpr]
    exact (evalExpr_agree env h.1).seq fun v _ => readMember_stays _
  | index holder property => cases h
  | call callee args =>
    simp only [evalExpr]
    -- The callee is read from the bindings, so that it is no function of the script.
    exact (evalExpr_agree env h.1).seq fun f hf => (evalArgs_agree env h.2.2).seq fun vs _ =>
      callValue_agree _ _ _ hf vs
  | unary op arg =>
    simp only [evalExpr]
    have operand : PlainExpr arg := h
    split
    · exact Agree.get.seq fun m _ => .choose (.value trivial)
        ((readName_stays env _).seq fun v _ => unary_stays .typeOf v)
    · exact (evalExpr_agree env operand).seq fun v _ => unary_stays _ v
  | update op before target =>
    simp only [evalExpr]
    refine (evalTarget_agree env h).seq fun spot _ => (readSpot_stays env spot).seq fun v _ => ?_
    exact (Agree.faults _).seq fun old _ =>
      (writeSpot_stays env spot (v := .float _) trivial).seq fun _ _ => .value trivial
  | binary op left right =>
    simp only [evalExpr]
    exact (evalExpr_agree env h.2.1).seq fun a _ => (evalExpr_agree env h.2.2).seq fun b hb =>
      binary_stays op hb
  | logical op left right =>
    simp only [evalExpr]
    refine (evalExpr_agree env h.1).seq fun a ha => (Agree.faults _).seq fun b _ => ?_
    have second := evalExpr_agree env h.2
    cases op <;> cases b
    · exact .value ha
    · exact second
    · exact second
    · exact .value ha
  | conditional test yes no =>
    simp only [evalExpr]
    exact (evalExpr_agree env h.1).seq fun v _ => (Agree.faults _).seq fun b _ =>
      .choose (evalExpr_agree env h.2.1) (evalExpr_agree env h.2.2)
  | assign op target value =>
    simp only [evalExpr]
    refine (evalTarget_agree env h.1).seq fun spot _ => ?_
    have stored {v : Value} (hv : v.IsFree) :
        Stays (do spot.write bindingsHost env v; return v) Value.IsFree :=
      (writeSpot_stays env spot hv).seq fun _ _ => .value hv
    have value := evalExpr_agree env h.2
    cases op with
    | plain => exact value.seq fun v hv => stored hv
    | compound o =>
      refine (readSpot_stays env spot).seq fun old _ => value.seq fun v _ => ?_
      exact (applyArith_stays o old v).seq fun w hw => stored hw
  | list items => cases h
  | object entries => cases h
  | func f => cases h

theorem evalArgs_agree (env : Env) {args : List Expr} (h : PlainArgs args) :
    Agree (evalArgs bindingsHost 0 call env args) (evalArgs bindingsHost 0 call' env args)
      fun _ => True := by
  cases args with
  | nil => exact .value trivial
  | cons e rest =>
    simp only [evalArgs]
    exact (evalExpr_agree env h.1).seq fun v _ => (evalArgs_agree env h.2).seq fun vs _ =>
      .value trivial

theorem evalTarget_agree (env : Env) {target : Target} (h : PlainTarget target) :
    Agree (evalTarget bindingsHost 0 call env target) (evalTarget bindingsHost 0 call' env target)
      fun _ => True := by
  cases target with
  | name id position => exact .value trivial
  | member holder property =>
    simp only [evalTarget]
    exact (evalExpr_agree env h.1).seq fun v _ => .value trivial
  | index holder property => cases h

end

end Evaluation

/-- The place of calls of functions in a run without such calls. -/
def uncalled {σ : Type} (_ : Nat) (_ : List Value) : Run σ Value := throw .outOfFuel

theorem machineFor_free (context vars : Fields Datum) (draws : Draws) :
    (machineFor context vars draws).IsFree :=
  (bindMath_free (ofBindings_free _ draws) true).putHost "abs" trivial

/-- A predicate is made of plain nodes. Over bindings without functions, its value is that of a walk
over its tree that calls no function and comes to each node at most once, whatever the fuel is. -/
theorem compile_walked_once {source : String} {p : Predicate} (h : compile source = .ok p) :
    PlainExpr p.expr ∧ ∀ m : Machine (Fields Value), m.IsFree → ∃ result after visited,
      walkExpr bindingsHost 0 uncalled rootEnv 0 p.expr (m, []) = (result, (after, visited)) ∧
      visited.Sublist (List.range p.expr.size) ∧ result ≠ .error .outOfFuel ∧
      ∀ fuel, evaluateWith bindingsHost 0 fuel p.expr m = (result, after) := by
  have plain := compile_plain h
  have same (call : Nat → List Value → Run (Fields Value) Value) :
      Agree (evalExpr bindingsHost 0 uncalled rootEnv p.expr)
        (evalExpr bindingsHost 0 call rootEnv p.expr) Value.IsFree := evalExpr_agree rootEnv plain
  refine ⟨plain, fun m free => ?_⟩
  obtain ⟨visited, once, walk⟩ := walkExpr_follows bindingsHost 0 uncalled rootEnv 0 p.expr m []
  rw [List.nil_append] at walk
  rw [← List.range_eq_range'] at once
  exact ⟨_, _, visited, walk, once, (same uncalled m free).2.fueled,
    fun fuel => (same (invoke bindingsHost 0 fuel) m free).1⟩

theorem compile_walked_once_call : ∃ p, compile "Math.abs(age) == abs(tick)" = .ok p ∧
    PlainExpr p.expr ∧ ∃ result after visited,
      walkExpr bindingsHost 0 uncalled rootEnv 0 p.expr
        (machineFor [("age", .int (-2)), ("tick", .int 2)] [] {}, []) =
          (result, (after, visited)) ∧
      visited.Sublist (List.range p.expr.size) ∧ result ≠ .error .outOfFuel ∧
      ∀ fuel, evaluateWith bindingsHost 0 fuel p.expr
        (machineFor [("age", .int (-2)), ("tick", .int 2)] [] {}) = (result, after) := by
  have accepted : (compile "Math.abs(age) == abs(tick)").isOk = true := by decide +kernel
  cases read : compile "Math.abs(age) == abs(tick)" with
  | error e =>
    rw [read] at accepted
    cases accepted
  | ok p =>
    obtain ⟨plain, walk⟩ := compile_walked_once read
    exact ⟨p, rfl, plain, walk _ (machineFor_free _ _ _)⟩

theorem eval_ends {source : String} {p : Predicate} (h : compile source = .ok p)
    (context vars : Fields Datum) (draws : Draws) :
    (p.eval context vars draws).1 ≠ .error .outOfFuel := by
  have value : Stays (evaluate bindingsHost 0 p.expr) Value.IsFree := fun m free =>
    evalExpr_agree rootEnv (compile_plain h) m.rewound
      ⟨free.scopes, free.lists, free.objects, free.host⟩
  have truth := value.seq fun v _ => Agree.faults v.truthy
  exact (truth _ (machineFor_free context vars draws)).2.fueled

end EmitterLogic.Predicate

namespace EmitterLogic.Predicate

open Script

section Bindings

theorem bindingsHost_numeric : bindingsHost.Numeric (FieldsHold Value.InRange) where
  read name := by
    have found : Sound (FieldsHold Value.InRange) Event.never Value.InRange
        (bindingsHost.read name) :=
      Sound.look fun m held => Sound.value (held.host.getD Value.inRange_undefined name)
    exact found.outside
  write name v hv := by
    have written : Sound (FieldsHold Value.InRange) Event.never (fun _ => True)
        (bindingsHost.write name v) :=
      Sound.change fun m held => held.setHost (held.host.put hv name)
    exact written.outside
  call f args m held := by
    cases f with
    | random =>
      refine ⟨fun v answer => ?_, held.host⟩
      cases answer
      exact Value.inRange_float _
    | helper h =>
      refine ⟨fun v answer => ?_, held.host⟩
      cases answer
      exact Value.inRange_undefined
    | math f =>
      have called : bindingsHost.call (.math f) args m = (orRefuse (callMath f args) :
          ExceptT Refusal (StateM (Machine (Fields Value))) Value) m := rfl
      rw [called]
      cases result : callMath f args with
      | error fault => exact ⟨nofun, held.host⟩
      | ok w =>
        obtain ⟨xs, _, made⟩ := bind_ok result
        cases made
        refine ⟨fun v answer => ?_, held.host⟩
        cases answer
        exact Value.inRange_float _

theorem load_inRange {m : Machine (Fields Value)} {d : Datum} (flat : d.IsFlat) (h : d.InRange) :
    (m.load d).1.InRange := by
  cases h with
  | number h => exact h
  | list _ => cases flat
  | object _ => cases flat
  | _ => exact ⟨_, rfl⟩

theorem loadEntries_inRange {m : Machine (Fields Value)} {entries : Fields Datum}
    (h : ∀ e ∈ entries, e.2.IsFlat ∧ e.2.InRange) :
    FieldsHold Value.InRange (m.loadEntries entries).1 := by
  induction entries generalizing m with
  | nil => exact .nil
  | cons e rest ih =>
    rw [List.forall_mem_cons] at h
    exact (ih h.2).cons (load_inRange h.1.1 h.1.2) e.1

theorem machineFor_holds {context vars : Fields Datum}
    (hcontext : ∀ e ∈ context, e.2.IsFlat ∧ e.2.InRange)
    (hvars : ∀ e ∈ vars, e.2.IsFlat ∧ e.2.InRange) (draws : Draws) :
    (machineFor context vars draws).Holds Value.InRange (FieldsHold Value.InRange) := by
  have bindings := Fields.forall_merge (P := fun d : Datum => d.IsFlat ∧ d.InRange) hcontext hvars
  have started : (Machine.start ([] : Fields Value) draws).Holds Value.InRange
      (FieldsHold Value.InRange) := start_holds .nil draws
  have fields := loadEntries_inRange (m := Machine.start ([] : Fields Value) draws) bindings
  have loaded := loadEntries_flat (m := Machine.start ([] : Fields Value) draws)
    fun e member => (bindings e member).1
  rw [← loaded] at started
  have mathematics : FieldsHold Value.InRange mathCell.fields :=
    mathFields_hold (fun f => ⟨_, rfl⟩) Value.inRange_float
  have bound := (started.setHost fields).addObject mathematics
  exact bound.setHost ((fields.put ⟨_, rfl⟩ "Math").put ⟨_, rfl⟩ "abs")

end Bindings

section Truth

variable {p : Predicate} {context vars : Fields Datum} {draws : Draws}

theorem eval_of_ok {v : Value} {b : Bool}
    (ran : (evaluate bindingsHost 0 p.expr (machineFor context vars draws)).1 = .ok v)
    (truth : v.truthy = .ok b) : (p.eval context vars draws).1 = .ok b := by
  rcases result : evaluate bindingsHost 0 p.expr (machineFor context vars draws) with ⟨e, last⟩
  rw [result] at ran
  cases ran
  simp only [Predicate.eval, seq_ok result, truth]
  rfl

theorem eval_of_error {i : Interrupt}
    (ran : (evaluate bindingsHost 0 p.expr (machineFor context vars draws)).1 = .error i) :
    (p.eval context vars draws).1 = .error i := by
  rcases result : evaluate bindingsHost 0 p.expr (machineFor context vars draws) with ⟨e, last⟩
  rw [result] at ran
  cases ran
  simp only [Predicate.eval, seq_error result]

end Truth

end EmitterLogic.Predicate
