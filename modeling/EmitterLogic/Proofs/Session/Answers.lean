import EmitterLogic.Session
import EmitterLogic.Proofs.Cache
import EmitterLogic.Proofs.Fault

namespace EmitterLogic

theorem Formula.request_table (c : Cache (Option Formula)) (log : Log) (text : String) :
    ((request c log text).1, (request c log text).2.1) =
      c.getOrCompile text fun text => (compile text).toOption := by
  rw [request, Cache.getOrCompile]
  cases c.hit? text with
  | some r => rfl
  | none =>
    cases compile text with
    | ok f => rfl
    | error e => rfl

theorem Formula.request_holds {c : Cache (Option Formula)}
    (h : c.Holds fun text => (compile text).toOption) (log : Log) (text : String) :
    (request c log text).1 = (compile text).toOption ∧
      (request c log text).2.1.Holds fun text => (compile text).toOption := by
  have held := h.getOrCompile text
  rwa [← request_table c log] at held

namespace Session

/-- Each entry of the table of formulas is what compiling its text gives. -/
def Sound (σ : Session) : Prop := ∀ e ∈ σ.formulas.entries, e.2 = (Formula.compile e.1).toOption

theorem sound_start (config : Config) (draws : Draws) : (start config draws).Sound := nofun

/-- In every sound session a computation has one and the same result, and leaves the session sound. -/
def Answers {α : Type} (x : Live α) (r : Except Fault α) : Prop :=
  ∀ σ : Session, σ.Sound → ∃ σ', x σ = (r, σ') ∧ σ'.Sound

namespace Answers

variable {α β : Type} {x : Live α} {f : α → Live β} {a : α} {r : Except Fault β}

theorem value : Answers (pure a) (.ok a) := fun σ h => ⟨σ, rfl, h⟩

theorem raised (e : Except Fault α) : Answers (lift e) e := by
  intro σ h
  cases e with
  | ok a => exact ⟨σ, rfl, h⟩
  | error f => exact ⟨σ, rfl, h⟩

theorem seq (first : Answers x (.ok a)) (second : Answers (f a) r) : Answers (x >>= f) r := by
  intro σ h
  obtain ⟨σ', run, h'⟩ := first σ h
  obtain ⟨σ'', run', h''⟩ := second σ' h'
  refine ⟨σ'', ?_, h''⟩
  simp only [bind, ExceptT.bind, ExceptT.mk, StateT.bind, run]
  exact run'

theorem seq_error {e : Fault} (first : Answers x (.error e)) : Answers (x >>= f) (.error e) := by
  intro σ h
  obtain ⟨σ', run, h'⟩ := first σ h
  refine ⟨σ', ?_, h'⟩
  simp only [bind, ExceptT.bind, ExceptT.mk, StateT.bind, run]
  rfl

theorem andThen {e : Except Fault α} {g : α → Except Fault β} (first : Answers x e)
    (second : ∀ a, e = .ok a → Answers (f a) (g a)) : Answers (x >>= f) (e >>= g) := by
  cases e with
  | ok a => exact first.seq (second a rfl)
  | error f => exact first.seq_error

end Answers

theorem formula?_answers (text : String) :
    Answers (formula? text) (.ok (Formula.compile text).toOption) := by
  intro σ h
  let σ' : Session := { σ with
    formulas := (Formula.request σ.formulas σ.log text).2.1
    log := (Formula.request σ.formulas σ.log text).2.2 }
  have unfolded : formula? text σ = (.ok (Formula.request σ.formulas σ.log text).1, σ') := rfl
  obtain ⟨asked, kept⟩ := Formula.request_holds h σ.log text
  exact ⟨σ', by rw [unfolded, asked], kept⟩

theorem evalFormula_answers (s : Sight) {text : String} {f : Formula} (fallback : Number)
    (some : (trimmed text).isEmpty = false) (compiled : Formula.compile (trimmed text) = .ok f) :
    Answers (evalFormula s text fallback) ((f.eval s).map .float) := by
  have formula := formula?_answers (trimmed text)
  rw [compiled] at formula
  simp only [evalFormula, some]
  refine formula.seq ?_
  have mapped : (f.eval s).map Number.float = f.eval s >>= fun x => .ok (.float x) := by
    cases f.eval s <;> rfl
  rw [mapped]
  exact (Answers.raised _).andThen fun _ _ => .value

def codeOf (map : Kotlin.NameMap) (style : Kotlin.NumberStyle) (f : Formula) :
    Except Fault String :=
  if f.program.isEmpty then Formula.textToKotlin map style f.source else f.toKotlin map style

theorem source_of_compile {text : String} {f : Formula} (compiled : Formula.compile text = .ok f) :
    f.source = text := by
  obtain ⟨ts, tokens, programmed⟩ := bind_ok compiled
  obtain ⟨program, _, made⟩ := bind_ok programmed
  cases made
  rfl

theorem formulaToKotlin_answers (map : Kotlin.NameMap) (style : Kotlin.NumberStyle) {text : String}
    {f : Formula} (some : (trimmed text).isEmpty = false)
    (compiled : Formula.compile (trimmed text) = .ok f) :
    Answers (formulaToKotlin map style text) (codeOf map style f) := by
  have formula := formula?_answers (trimmed text)
  rw [compiled] at formula
  simp only [formulaToKotlin, some]
  refine formula.seq ?_
  have found : (Except.ok f : Except Formula.Error Formula).toOption = Option.some f := rfl
  rw [codeOf, source_of_compile compiled, found]
  by_cases empty : f.program.isEmpty = true
  · simp only [empty, if_true]
    exact .raised _
  · simp only [empty]
    exact .raised _

section

variable {α β : Type}

def ReturnsIf (P : Prop) (x : Live α) : Prop := ∀ σ, EmitterLogic.ReturnsIf P (x σ).1

def Returns (x : Live α) : Prop := ∀ σ, ∃ a, (x σ).1 = .ok a

namespace ReturnsIf

variable {x : Live α} {f : α → Live β} {P Q : Prop}

theorem congr (h : ReturnsIf P x) (same : P ↔ Q) : ReturnsIf Q x := fun σ => (h σ).congr same

theorem lift {e : Except Fault α} (h : EmitterLogic.ReturnsIf P e) :
    ReturnsIf P (Session.lift e) := by
  intro σ
  cases e with
  | ok a => exact h
  | error fault => exact h

theorem bind (first : ReturnsIf P x) (second : ∀ a, ReturnsIf Q (f a)) :
    ReturnsIf (P ∧ Q) (x >>= f) := by
  intro σ
  have here := first σ
  rcases ran : x σ with ⟨result, σ'⟩
  rw [ran] at here
  have step : (x >>= f) σ = ExceptT.bindCont f result σ' := by
    simp only [Bind.bind, ExceptT.bind, ExceptT.mk, StateT.bind, ran]
  rw [step]
  cases result with
  | ok a => exact (second a σ').congr (iff_and_self.mpr fun _ => here.mp ⟨a, rfl⟩)
  | error fault =>
    refine iff_of_false ?_ fun both => ?_
    · rintro ⟨b, ⟨⟩⟩
    · obtain ⟨a, ⟨⟩⟩ := here.mpr both.1

end ReturnsIf

namespace Returns

variable {x : Live α} {f : α → Live β} {Q : Prop}

theorem iff (h : Returns x) : ReturnsIf True x := fun σ => .of_ok (h σ)

theorem of_iff (h : ReturnsIf True x) : Returns x := fun σ => (h σ).mpr trivial

theorem value (a : α) : Returns (pure a) := fun _ => ⟨a, rfl⟩

theorem lift {e : Except Fault α} (h : ∃ a, e = .ok a) : Returns (Session.lift e) :=
  of_iff (.lift (.of_ok h))

theorem after (first : Returns x) (second : ∀ a, ReturnsIf Q (f a)) : ReturnsIf Q (x >>= f) :=
  (first.iff.bind second).congr (iff_of_eq (true_and Q))

theorem bind (first : Returns x) (second : ∀ a, Returns (f a)) : Returns (x >>= f) :=
  of_iff (first.after fun a => (second a).iff)

theorem mapM {f : α → Live β} {l : List α} (each : ∀ a ∈ l, Returns (f a)) :
    Returns (l.mapM f) := by
  induction l with
  | nil => exact value []
  | cons a l ih =>
    rw [List.forall_mem_cons] at each
    rw [List.mapM_cons]
    exact each.1.bind fun _ => (ih each.2).bind fun _ => value _

end Returns

theorem ReturnsIf.before {x : Live α} {f : α → Live β} {P : Prop} (first : ReturnsIf P x)
    (second : ∀ a, Returns (f a)) : ReturnsIf P (x >>= f) :=
  (first.bind fun a => (second a).iff).congr (iff_of_eq (and_true P))

end

end Session

end EmitterLogic
