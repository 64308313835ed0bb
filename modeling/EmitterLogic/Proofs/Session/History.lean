import EmitterLogic.Proofs.Predicate.Memory
import EmitterLogic.Proofs.Session.Answers

/-!
Sessions that have answered before. A session keeps its tables of compiled texts and its random
numbers from one request to the next; of all that happened before, an answer shows nothing but how many
random numbers were drawn.
-/

namespace EmitterLogic

theorem Predicate.request_table (c : Cache (Option Predicate)) (log : Log) (text : String) :
    ((request c log text).1, (request c log text).2.1) =
      c.getOrCompile text fun text => (compile text).toOption := by
  rw [request, Cache.getOrCompile]
  cases c.hit? text with
  | some r => rfl
  | none =>
    cases compile text with
    | ok p => rfl
    | error e => rfl

theorem Predicate.request_holds {c : Cache (Option Predicate)}
    (h : c.Holds fun text => (compile text).toOption) (log : Log) (text : String) :
    (request c log text).1 = (compile text).toOption ∧
      (request c log text).2.1.Holds fun text => (compile text).toOption := by
  have held := h.getOrCompile text
  rwa [← request_table c log] at held

namespace Session

variable {α β : Type}

structure Consistent (σ : Session) : Prop where
  formulas : σ.formulas.Holds fun text => (Formula.compile text).toOption
  predicates : σ.predicates.Holds fun text => (Predicate.compile text).toOption

structure Alike (σ τ : Session) : Prop where
  first : σ.Consistent
  second : τ.Consistent
  draws : σ.draws = τ.draws

def Independent (x : Live α) : Prop :=
  ∀ σ τ, Alike σ τ → (x σ).1 = (x τ).1 ∧ Alike (x σ).2 (x τ).2

namespace Independent

variable {x : Live α} {f : α → Live β}

theorem value (a : α) : Independent (pure a) := fun _ _ h => ⟨rfl, h⟩

theorem raise (e : Fault) : Independent (throw e : Live α) := fun _ _ h => ⟨rfl, h⟩

theorem lifted (e : Except Fault α) : Independent (lift e) := by
  cases e with
  | ok a => exact value a
  | error f => exact raise f

theorem seq (hx : Independent x) (hf : ∀ a, Independent (f a)) : Independent (x >>= f) := by
  intro σ τ h
  obtain ⟨same, alike⟩ := hx σ τ h
  rcases ran : x σ with ⟨result, σ'⟩
  rcases ran' : x τ with ⟨result', τ'⟩
  rw [ran, ran'] at same alike
  cases same
  simp only [bind, ExceptT.bind, ExceptT.mk, StateT.bind, ran, ran']
  cases result with
  | ok a => exact hf a σ' τ' alike
  | error e => exact ⟨rfl, alike⟩

theorem look {f : Session → Live α} (same : ∀ σ τ : Session, σ.draws = τ.draws → f σ = f τ)
    (h : ∀ σ, Independent (f σ)) : Independent (get >>= f) := by
  intro σ τ alike
  have looked : (get >>= f) τ = f σ τ := by
    rw [same σ τ alike.draws]
    rfl
  rw [looked]
  exact h σ σ τ alike

theorem reported (area key message : String) : Independent (report area key message) :=
  fun _ _ h => ⟨rfl, ⟨h.first.formulas, h.first.predicates⟩,
    ⟨h.second.formulas, h.second.predicates⟩, h.draws⟩

theorem setDraws (draws : Draws) : Independent (modify fun s : Session => { s with draws }) :=
  fun _ _ h => ⟨rfl, ⟨h.first.formulas, h.first.predicates⟩,
    ⟨h.second.formulas, h.second.predicates⟩, rfl⟩

theorem asksFormula (text : String) : Independent (formula? text) := by
  intro σ τ h
  obtain ⟨asked, kept⟩ := Formula.request_holds h.first.formulas σ.log text
  obtain ⟨asked', kept'⟩ := Formula.request_holds h.second.formulas τ.log text
  refine ⟨congrArg Except.ok (asked.trans asked'.symm), ?_⟩
  exact ⟨⟨kept, h.first.predicates⟩, ⟨kept', h.second.predicates⟩, h.draws⟩

theorem asksPredicate (text : String) : Independent (predicate? text) := by
  intro σ τ h
  obtain ⟨asked, kept⟩ := Predicate.request_holds h.first.predicates σ.log text
  obtain ⟨asked', kept'⟩ := Predicate.request_holds h.second.predicates τ.log text
  refine ⟨congrArg Except.ok (asked.trans asked'.symm), ?_⟩
  exact ⟨⟨h.first.formulas, kept⟩, ⟨h.second.formulas, kept'⟩, h.draws⟩

theorem choose {c : Prop} [Decidable c] {x y : Live α} (hx : Independent x) (hy : Independent y) :
    Independent (if c then x else y) := by
  split
  · exact hx
  · exact hy

end Independent

section Requests

open Independent

theorem evalFormula_independent (sight : Sight) (text : String) (fallback : Number) :
    Independent (evalFormula sight text fallback) := by
  simp only [evalFormula]
  refine choose (value fallback) (seq (asksFormula _) fun f? => ?_)
  cases f? with
  | some f => exact seq (lifted _) fun _ => value _
  | none =>
    refine seq (lifted _) fun x? => ?_
    cases x? with
    | some x => exact value _
    | none => exact seq (lifted _) fun _ => value _

theorem formulaToKotlin_independent (map : Kotlin.NameMap) (style : Kotlin.NumberStyle)
    (text : String) : Independent (formulaToKotlin map style text) := by
  simp only [formulaToKotlin]
  refine choose (lifted _) (seq (asksFormula _) fun f? => ?_)
  cases f? with
  | some f => exact choose (lifted _) (lifted _)
  | none => exact lifted _

theorem predicateError?_independent (text : String) : Independent (predicateError? text) := by
  simp only [predicateError?]
  refine choose (value _) ?_
  refine choose (value _) ?_
  refine seq (asksPredicate _) fun p? => ?_
  cases p? with
  | some p => exact value none
  | none =>
    cases Predicate.compile (trimmed text) with
    | ok p => exact value none
    | error e => exact value (some e)

theorem predicateToKotlin_independent (map : Kotlin.NameMap) (text : String) :
    Independent (predicateToKotlin map text) := by
  simp only [predicateToKotlin]
  refine choose (value _) (seq (predicateError?_independent _) fun e? => ?_)
  cases e? with
  | none => exact value _
  | some e => exact value _

theorem evalPredicate_independent (sight : Sight) (text : String) (fallback : Bool) :
    Independent (evalPredicate sight text fallback) := by
  simp only [evalPredicate]
  refine choose (value fallback) (seq (asksPredicate _) fun p? => ?_)
  cases p? with
  | none => exact value fallback
  | some p =>
    -- Of the session itself the evaluation sees the random numbers only.
    refine look (fun σ τ draws => by rw [draws]) fun σ => ?_
    refine seq (setDraws _) fun _ => ?_
    split
    · exact value _
    · exact raise _
    · exact seq (reported _ _ _) fun _ => value fallback

end Requests

end Session

section Histories

open Script (Machine evaluate bindingsHost)

/-- Calls of the functions that share the tables of compiled texts. -/
inductive Request where
  | evalFormula (sight : Sight) (text : String) (fallback : Number)
  | formulaToKotlin (map : Kotlin.NameMap) (style : Kotlin.NumberStyle) (text : String)
  | evalPredicate (sight : Sight) (text : String) (fallback : Bool)
  | predicateError (text : String)
  | predicateToKotlin (map : Kotlin.NameMap) (text : String)

inductive Response where
  | number (x : Number)
  | code (text : String)
  | truth (b : Bool)
  | verdict (e? : Option Predicate.Error)

namespace Request

def perform : Request → Live Response
  | evalFormula sight text fallback => do
    return .number (← Session.evalFormula sight text fallback)
  | formulaToKotlin map style text => do
    return .code (← Session.formulaToKotlin map style text)
  | evalPredicate sight text fallback => do
    return .truth (← Session.evalPredicate sight text fallback)
  | predicateError text => do return .verdict (← Session.predicateError? text)
  | predicateToKotlin map text => do return .code (← Session.predicateToKotlin map text)

/-- Over flat values a request finds nothing in memory but the mathematics namespace, and leaves it as
it was: the values in sight are copied into the bindings of the one evaluation. -/
def KeepsMemory (draws : Draws) : Request → Prop
  | evalPredicate sight text _ =>
    (∀ e ∈ sight.context, e.2.IsFlat) → (∀ e ∈ sight.vars, e.2.IsFlat) →
      ∀ p, Predicate.compile (trimmed text) = .ok p →
        let m := Predicate.machineFor sight.context sight.vars draws
        Predicate.Seals #[Predicate.mathCell] m ∧
          Predicate.Seals #[Predicate.mathCell] (evaluate bindingsHost 0 p.expr m).2
  | _ => True

theorem perform_independent (q : Request) : Session.Independent q.perform := by
  cases q with
  | evalFormula sight text fallback =>
    exact .seq (Session.evalFormula_independent sight text fallback) fun _ => .value _
  | formulaToKotlin map style text =>
    exact .seq (Session.formulaToKotlin_independent map style text) fun _ => .value _
  | evalPredicate sight text fallback =>
    exact .seq (Session.evalPredicate_independent sight text fallback) fun _ => .value _
  | predicateError text => exact .seq (Session.predicateError?_independent text) fun _ => .value _
  | predicateToKotlin map text =>
    exact .seq (Session.predicateToKotlin_independent map text) fun _ => .value _

theorem keepsMemory (draws : Draws) (q : Request) : q.KeepsMemory draws := by
  cases q with
  | evalPredicate sight text fallback =>
    intro context vars p compiled
    have sealed := Predicate.machineFor_seals context vars draws
    exact ⟨sealed, Predicate.evaluate_seals compiled sealed⟩
  | _ => trivial

end Request

namespace Session

/-- A session without compiled texts; a limit is that of a table, none or one that is not positive
sets no bound. -/
def opened (config : Config) (formulas predicates : Option Int) (draws : Draws) : Session :=
  { config, draws, formulas := .empty "math" formulas, predicates := .empty "bool" predicates }

/-- The session after some requests, whatever was answered. -/
def after (σ : Session) (requests : List Request) : Session :=
  requests.foldl (fun σ q => (q.perform σ).2) σ

theorem opened_consistent (config : Config) (formulas predicates : Option Int) (draws : Draws) :
    (opened config formulas predicates draws).Consistent :=
  ⟨.empty _ _, .empty _ _⟩

theorem after_consistent {σ : Session} (h : σ.Consistent) (requests : List Request) :
    (σ.after requests).Consistent := by
  induction requests generalizing σ with
  | nil => exact h
  | cons q rest ih =>
    obtain ⟨_, alike⟩ := q.perform_independent σ σ ⟨h, h, rfl⟩
    exact ih alike.first

/-- After any requests, with tables of any size, a request is answered as it is in a session that has
answered none and has the same random numbers left; and it changes no memory that is shared. -/
theorem perform_after (config config' : Config) (formulas predicates formulas' predicates' : Option Int)
    (draws : Draws) (earlier : List Request) (q : Request) :
    let σ := (opened config formulas predicates draws).after earlier
    let fresh := opened config' formulas' predicates' σ.draws
    (q.perform σ).1 = (q.perform fresh).1 ∧
      (q.perform σ).2.draws = (q.perform fresh).2.draws ∧ q.KeepsMemory σ.draws := by
  intro σ fresh
  have alike : Alike σ fresh :=
    ⟨after_consistent (opened_consistent ..) earlier, opened_consistent .., rfl⟩
  obtain ⟨same, left⟩ := q.perform_independent σ fresh alike
  exact ⟨same, left.draws, q.keepsMemory σ.draws⟩

theorem perform_after_assignment :
    ∃ p, Predicate.compile "(Math.PI = age) == age" = .ok p ∧
      let q := Request.evalPredicate { context := [("age", .int 3)] } "(Math.PI = age) == age" false
      let σ := (opened {} (some 1) (some 1) {}).after [q, .predicateError "age >"]
      (q.perform σ).1 = (q.perform (opened {} none none σ.draws)).1 ∧
        Predicate.Seals #[Predicate.mathCell]
          (evaluate bindingsHost 0 p.expr
            (Predicate.machineFor [("age", .int 3)] [] σ.draws)).2 := by
  have accepted : (Predicate.compile "(Math.PI = age) == age").isOk = true := by decide +kernel
  have bare : trimmed "(Math.PI = age) == age" = "(Math.PI = age) == age" := by decide +kernel
  cases compiled : Predicate.compile "(Math.PI = age) == age" with
  | error e =>
    rw [compiled] at accepted
    cases accepted
  | ok p =>
    let q := Request.evalPredicate { context := [("age", .int 3)] } "(Math.PI = age) == age" false
    obtain ⟨same, _, kept⟩ := perform_after {} {} (some 1) (some 1) none none {}
      [q, .predicateError "age >"] q
    have flat : ∀ e ∈ [("age", Datum.int 3)], e.2.IsFlat := by
      rw [List.forall_mem_singleton]
      trivial
    exact ⟨p, rfl, same, (kept flat (List.forall_mem_nil _) p (by rw [bare, compiled])).2⟩

end Session

end Histories

end EmitterLogic
