import EmitterLogic.Predicate.Basic
import EmitterLogic.Proofs.Datum.Fields
import EmitterLogic.Proofs.Predicate.Plain
import EmitterLogic.Proofs.Script.Compatible

namespace EmitterLogic

def Datum.IsFlat : Datum → Prop
  | .list _ => False
  | .object _ => False
  | _ => True

namespace Predicate

open Script

variable {α β : Type}

/-- Memory without lists and functions of a script, whose objects are some that cannot be
written. -/
structure Seals (cells : Array ObjectCell) (m : Machine (Fields Value)) : Prop where
  lists : m.lists = #[]
  closures : m.closures = #[]
  objects : m.objects = cells
  readOnly : ∀ i (h : i < cells.size), cells[i].readOnly = true

theorem modify_missing {γ : Type} (cells : Array γ) (f : γ → γ) {place : Nat}
    (missing : ¬place < cells.size) : cells.modify place f = cells := by
  refine Array.ext_getElem? fun i => ?_
  rw [Array.getElem?_modify]
  split
  · next here =>
    subst here
    rw [Array.getElem?_eq_none (Nat.le_of_not_lt missing)]
    rfl
  · rfl

def Keeps (cells : Array ObjectCell) : RunRel (Fields Value) :=
  RunRel.going fun before after => Seals cells before → Seals cells after

namespace Keeps

variable {cells : Array ObjectCell} {n : Nat} {s : Standing}

theorem of_memory {r r' : Run (Fields Value) α} (lists : ∀ m, (r m).2.lists = m.lists)
    (closures : ∀ m, (r m).2.closures = m.closures) (objects : ∀ m, (r m).2.objects = m.objects) :
    Keeps cells n s r r' := by
  intro m h
  exact ⟨(lists m).trans h.lists, (closures m).trans h.closures, (objects m).trans h.objects,
    h.readOnly⟩

theorem sequential : Sequential (Keeps cells) :=
  Stepwise.sequential ⟨fun _ => id, fun before after => after ∘ before⟩

theorem seq {x x' : Run (Fields Value) α} {f f' : α → Run (Fields Value) β}
    (hx : Keeps cells n s x x') (hf : ∀ a, Keeps cells n s (f a) (f' a)) :
    Keeps cells n s (x >>= f) (x' >>= f') := sequential.seq hx hf

theorem outside (r : Run (Fields Value) α) :
    Keeps cells n s (outside r) (Script.outside r) :=
  of_memory (fun _ => rfl) (fun _ => rfl) (fun _ => rfl)

theorem count (limit : Nat) : Keeps cells n s (step limit) (step limit) :=
  of_memory (fun _ => rfl) (fun _ => rfl) (fun _ => rfl)

theorem writeName (env : Env) (name : String) (v : Value) :
    Keeps cells n s (writeName bindingsHost env name v) (writeName bindingsHost env name v) := by
  have put (place : Nat) : Keeps cells n s
      (modify fun m : Machine (Fields Value) => { m with
        scopes := m.scopes.modify place fun c => { c with names := c.names.put name v } })
      (pure ()) :=
    of_memory (fun _ => rfl) (fun _ => rfl) (fun _ => rfl)
  refine sequential.look (fun m k => by rw [placeOf_clocked]; rfl) fun m => ?_
  cases placeOf bindingsHost m name env with
  | host => exact outside _
  | nowhere => exact put rootScope
  | scope place => exact RunRel.choose _ (seq (sequential.raise _) fun _ => put place) (put place)

theorem writeMember (holder property v : Value) :
    Keeps cells n s (writeMember holder property v) (writeMember holder property v) := by
  have refused : Keeps cells n s (refuseWrite holder property : Run (Fields Value) Unit)
      (refuseWrite holder property) :=
    seq (sequential.textOf property) fun _ => seq (sequential.textOf holder) fun _ =>
      sequential.raise _
  cases holder with
  | object place =>
    refine seq (sequential.textOf property) fun key m h => ?_
    change Seals cells ((if (m.object place).readOnly = true then _ else _ :
      Run (Fields Value) Unit) m).2
    by_cases there : place < cells.size
    · have readOnly : (m.object place).readOnly = true := by
        rw [Machine.object, h.objects, Array.getElem?_eq_getElem there]
        exact h.readOnly place there
      rw [if_pos readOnly]
      exact h
    · have missing : (m.object place).readOnly = false := by
        rw [Machine.object, h.objects, Array.getElem?_eq_none (Nat.le_of_not_lt there)]
        rfl
      have same : (m.objects.modify place fun c => { c with fields := c.fields.put key v }) =
          cells := by
        rw [h.objects]
        exact modify_missing cells _ there
      rw [missing, if_neg Bool.false_ne_true]
      exact ⟨h.lists, h.closures, same, h.readOnly⟩
  | list place =>
    refine seq (sequential.orFault _) fun position => ?_
    split
    · next i =>
      intro m h
      refine ⟨?_, h.closures, h.objects, h.readOnly⟩
      have none : (m.lists.modify place fun items => putItem items i v) = #[] := by
        rw [h.lists]
        rfl
      exact none
    · exact refused
  | _ => exact refused

theorem callNative (callee : String) (f : Native) (args : List Value) :
    Keeps cells n s (callNative bindingsHost callee f args)
      (callNative bindingsHost callee f args) := by
  intro m h
  rcases answer : bindingsHost.call f args m with ⟨result, after⟩
  cases result with
  | ok v =>
    simp only [Script.callNative, Script.outside, answer]
    exact ⟨h.lists, h.closures, h.objects, h.readOnly⟩
  | error why =>
    simp only [Script.callNative, Script.outside, answer]
    exact ⟨h.lists, h.closures, h.objects, h.readOnly⟩

theorem invoke (limit fuel place : Nat) (args : List Value) :
    Keeps cells n s (invoke bindingsHost limit fuel place args)
      (invoke bindingsHost limit fuel place args) := by
  cases fuel with
  | zero =>
    exact seq (count limit) fun _ => of_memory (fun _ => rfl) (fun _ => rfl) (fun _ => rfl)
  | succ fuel =>
    refine seq (count limit) fun _ m h => ?_
    have none : m.closures[place]? = none := by
      rw [h.closures]
      rfl
    change Seals cells ((if maxCallDepth ≤ m.depth then _ else _ : Run (Fields Value) Value) m).2
    rw [none]
    split
    · exact h
    · exact h

end Keeps

section Evaluation

variable {cells : Array ObjectCell} {n fuel : Nat} {s : Standing}

theorem callValue_keeps (callee : String) (f : Value) (args : List Value) :
    Keeps cells n s (callValue bindingsHost 0 (invoke bindingsHost 0 fuel) callee f args)
      (callValue bindingsHost 0 (invoke bindingsHost 0 fuel) callee f args) := by
  cases f with
  | func place => exact Keeps.invoke 0 fuel place args
  | native f => exact Keeps.seq (Keeps.count 0) fun _ => Keeps.callNative callee f args
  | _ => exact Keeps.sequential.raise _

theorem readName_keeps (env : Env) (name : String) :
    Keeps cells n s (readName bindingsHost env name) (readName bindingsHost env name) :=
  Keeps.sequential.readName rfl env name (Keeps.outside _)

theorem readSpot_keeps (env : Env) (spot : Spot) :
    Keeps cells n s (spot.read bindingsHost env) (spot.read bindingsHost env) := by
  cases spot with
  | name id => exact readName_keeps env id
  | member holder property => exact Keeps.sequential.readMember holder property

theorem writeSpot_keeps (env : Env) (v : Value) (spot : Spot) :
    Keeps cells n s (spot.write bindingsHost env v) (spot.write bindingsHost env v) := by
  cases spot with
  | name id => exact Keeps.writeName env id v
  | member holder property => exact Keeps.writeMember holder property v

mutual

theorem evalExpr_keeps (env : Env) {e : Expr} (h : PlainExpr e) :
    Keeps cells n s (evalExpr bindingsHost 0 (invoke bindingsHost 0 fuel) env e)
      (evalExpr bindingsHost 0 (invoke bindingsHost 0 fuel) env e) := by
  have hK : Sequential (Keeps cells) := Keeps.sequential
  cases e with
  | number x => exact hK.value _
  | text t => cases h
  | literal l => exact hK.value _
  | name id position => exact readName_keeps env id
  | member holder property =>
    simp only [evalExpr]
    exact hK.seq (evalExpr_keeps env h.1) fun v => hK.readMember v _
  | index holder property => cases h
  | call callee args =>
    simp only [evalExpr]
    refine hK.seq (evalExpr_keeps env h.1) fun f => ?_
    exact hK.seq (evalArgs_keeps env h.2.2) fun vs => callValue_keeps _ f vs
  | unary op arg =>
    simp only [evalExpr]
    have operand : PlainExpr arg := h
    split
    · refine hK.look (fun m k => by rw [placeOf_clocked]) fun m =>
        RunRel.choose _ (hK.value _) ?_
      exact hK.seq (readName_keeps env _) fun v => hK.applyUnary .typeOf v
    · exact hK.seq (evalExpr_keeps env operand) fun v => hK.applyUnary _ v
  | update op before target =>
    simp only [evalExpr]
    refine hK.seq (evalTarget_keeps env h) fun spot => ?_
    refine hK.seq (readSpot_keeps env spot) fun v => ?_
    refine hK.seq (hK.orFault _) fun old => ?_
    exact hK.seq (writeSpot_keeps env _ spot) fun _ => hK.value _
  | binary op left right =>
    simp only [evalExpr]
    refine hK.seq (evalExpr_keeps env h.2.1) fun a => ?_
    exact hK.seq (evalExpr_keeps env h.2.2) fun b => hK.applyBinary op a b
  | logical op left right =>
    simp only [evalExpr]
    refine hK.seq (evalExpr_keeps env h.1) fun a => ?_
    refine hK.seq (hK.orFault _) fun b => ?_
    split
    · exact evalExpr_keeps env h.2
    · exact evalExpr_keeps env h.2
    · exact hK.value a
  | conditional test yes no =>
    simp only [evalExpr]
    refine hK.seq (evalExpr_keeps env h.1) fun v => ?_
    refine hK.seq (hK.orFault _) fun b => ?_
    exact RunRel.choose _ (evalExpr_keeps env h.2.1) (evalExpr_keeps env h.2.2)
  | assign op target value =>
    simp only [evalExpr]
    refine hK.seq (evalTarget_keeps env h.1) fun spot => ?_
    have stored (v : Value) : Keeps cells n s
        (spot.write bindingsHost env v >>= fun _ => pure v)
        (spot.write bindingsHost env v >>= fun _ => pure v) :=
      hK.seq (writeSpot_keeps env v spot) fun _ => hK.value v
    cases op with
    | plain => exact hK.seq (evalExpr_keeps env h.2) stored
    | compound o =>
      refine hK.seq (readSpot_keeps env spot) fun old => ?_
      refine hK.seq (evalExpr_keeps env h.2) fun v => ?_
      exact hK.seq (hK.applyArith o old v) stored
  | list items => cases h
  | object entries => cases h
  | func f => cases h

theorem evalArgs_keeps (env : Env) {args : List Expr} (h : PlainArgs args) :
    Keeps cells n s (evalArgs bindingsHost 0 (invoke bindingsHost 0 fuel) env args)
      (evalArgs bindingsHost 0 (invoke bindingsHost 0 fuel) env args) := by
  cases args with
  | nil => exact Keeps.sequential.value _
  | cons e rest =>
    simp only [evalArgs]
    exact Keeps.seq (evalExpr_keeps env h.1) fun v => Keeps.seq (evalArgs_keeps env h.2) fun vs =>
      Keeps.sequential.value _

theorem evalTarget_keeps (env : Env) {target : Target} (h : PlainTarget target) :
    Keeps cells n s (evalTarget bindingsHost 0 (invoke bindingsHost 0 fuel) env target)
      (evalTarget bindingsHost 0 (invoke bindingsHost 0 fuel) env target) := by
  cases target with
  | name id position => exact Keeps.sequential.value _
  | member holder property =>
    simp only [evalTarget]
    exact Keeps.seq (evalExpr_keeps env h.1) fun v => Keeps.sequential.value _
  | index holder property => cases h

end

theorem evaluate_seals {source : String} {p : Predicate} (h : compile source = .ok p)
    {m : Machine (Fields Value)} (before : Seals cells m) :
    Seals cells (evaluate bindingsHost 0 p.expr m).2 :=
  evalExpr_keeps (n := 0) (s := { env := rootEnv }) rootEnv (compile_plain h) m.rewound
    ⟨before.lists, before.closures, before.objects, before.readOnly⟩

end Evaluation

section Documents

def mathCell : ObjectCell := { fields := mathFields, readOnly := true }

theorem load_flat {m : Machine (Fields Value)} {d : Datum} (h : d.IsFlat) : (m.load d).2 = m := by
  cases d with
  | list items => cases h
  | object entries => cases h
  | _ => rfl

theorem loadEntries_flat {m : Machine (Fields Value)} {entries : Fields Datum}
    (h : ∀ e ∈ entries, e.2.IsFlat) : (m.loadEntries entries).2 = m := by
  induction entries generalizing m with
  | nil => rfl
  | cons e rest ih =>
    rw [List.forall_mem_cons] at h
    have loaded : (m.loadEntries (e :: rest)).2 = ((m.load e.2).2.loadEntries rest).2 := rfl
    rw [loaded, load_flat h.1]
    exact ih h.2

theorem machineFor_seals {context vars : Fields Datum} (hcontext : ∀ e ∈ context, e.2.IsFlat)
    (hvars : ∀ e ∈ vars, e.2.IsFlat) (draws : Draws) :
    Seals #[mathCell] (machineFor context vars draws) := by
  have flat := loadEntries_flat (m := Machine.start ([] : Fields Value) draws)
    (Fields.forall_merge hcontext hvars)
  have lists : (machineFor context vars draws).lists =
      ((Machine.start ([] : Fields Value) draws).loadEntries (context.merge vars)).2.lists := rfl
  have closures : (machineFor context vars draws).closures =
      ((Machine.start ([] : Fields Value) draws).loadEntries (context.merge vars)).2.closures := rfl
  have objects : (machineFor context vars draws).objects =
      ((Machine.start ([] : Fields Value) draws).loadEntries (context.merge vars)).2.objects.push
        mathCell := rfl
  rw [flat] at lists closures objects
  refine ⟨lists, closures, objects, fun i inside => ?_⟩
  have only : i = 0 := by
    rw [List.size_toArray, List.length_singleton] at inside
    omega
  subst only
  rfl

end Documents

end Predicate

end EmitterLogic
