import EmitterLogic.Proofs.Predicate.Memory
import EmitterLogic.Proofs.Script.Sound

namespace EmitterLogic.Predicate

open Script Event

mutual

/-- The names of members in an expression, those in functions apart. -/
def memberNames : Expr → List String
  | .member holder property => property :: memberNames holder
  | .index holder property => memberNames holder ++ memberNames property
  | .call callee args => memberNames callee ++ argsMemberNames args
  | .unary _ arg => memberNames arg
  | .update _ _ target => targetMemberNames target
  | .binary _ left right => memberNames left ++ memberNames right
  | .logical _ left right => memberNames left ++ memberNames right
  | .conditional test yes no => memberNames test ++ memberNames yes ++ memberNames no
  | .assign _ target value => targetMemberNames target ++ memberNames value
  | .list items => argsMemberNames items
  | .object entries => entriesMemberNames entries
  | _ => []

def targetMemberNames : Target → List String
  | .name _ _ => []
  | .member holder property => property :: memberNames holder
  | .index holder property => memberNames holder ++ memberNames property

def argsMemberNames : List Expr → List String
  | [] => []
  | e :: rest => memberNames e ++ argsMemberNames rest

def entriesMemberNames : List Entry → List String
  | [] => []
  | .mk _ value :: rest => memberNames value ++ entriesMemberNames rest

end

/-- No name among some spells an infinity. -/
def SpellFinite (names : List String) : Prop := ∀ name ∈ names, ¬(Value.text name).IsInfinite

theorem spellFinite_append {names names' : List String} :
    SpellFinite (names ++ names') ↔ SpellFinite names ∧ SpellFinite names' := List.forall_mem_append

theorem spellFinite_cons {name : String} {names : List String} :
    SpellFinite (name :: names) ↔ ¬(Value.text name).IsInfinite ∧ SpellFinite names :=
  List.forall_mem_cons

def Avoids (cells : Array ObjectCell) (E : Event (Fields Value)) : Prop :=
  ∀ m, Seals cells m → ¬E m

section Avoids

variable {cells : Array ObjectCell} {α β : Type} {E : Event (Fields Value)} {x : Run (Fields Value) α}
  {F : α → Event (Fields Value)}

theorem avoids_never : Avoids cells never := fun _ _ => not_false

theorem avoids_after (kept : Keeps cells 0 { env := rootEnv } x x)
    (hF : ∀ a m last, x m = (.ok a, last) → Avoids cells (F a)) : Avoids cells (after x F) := by
  rintro m sealed ⟨a, last, ran, event⟩
  have still := kept m sealed
  rw [ran] at still
  exact hF a m last ran last still event

theorem avoids_orAfter (hE : Avoids cells E) (kept : Keeps cells 0 { env := rootEnv } x x)
    (hF : ∀ a m last, x m = (.ok a, last) → Avoids cells (F a)) : Avoids cells (E.orAfter x F) := by
  intro m sealed event
  rcases event with first | later
  · exact hE m sealed first
  · exact avoids_after kept hF m sealed later

theorem exists_of_seq_ok {f : α → Run (Fields Value) β} {m last : Machine (Fields Value)} {b : β}
    (h : (x >>= f) m = (.ok b, last)) : ∃ a mid, x m = (.ok a, mid) ∧ f a mid = (.ok b, last) := by
  rcases ran : x m with ⟨result, mid⟩
  cases result with
  | ok a =>
    rw [seq_ok ran] at h
    exact ⟨a, mid, rfl, h⟩
  | error i =>
    rw [seq_error ran] at h
    cases h

theorem readsBeyond_text {name : String} (finite : ¬(Value.text name).IsInfinite) (holder : Value) :
    ¬(Value.text name).ReadsBeyond holder := by
  cases holder with
  | list place => exact finite
  | text s => exact finite
  | _ => exact not_false

theorem invokeOverreaches_avoids (fuel place : Nat) (args : List Value) :
    Avoids cells (invokeOverreaches bindingsHost 0 fuel place args) := by
  cases fuel with
  | zero => exact avoids_never
  | succ fuel =>
    refine avoids_after (Keeps.count 0) fun _ _ _ _ m sealed event => ?_
    have none : m.closures[place]? = none := by
      rw [sealed.closures]
      rfl
    rw [none] at event
    exact event.2

end Avoids

section Evaluation

variable {cells : Array ObjectCell} {fuel : Nat}

theorem evalTarget_finite {env : Env} {target : Target} (plain : PlainTarget target)
    (names : SpellFinite (targetMemberNames target)) {spot : Spot} {m last : Machine (Fields Value)}
    (ran : evalTarget bindingsHost 0 (invoke bindingsHost 0 fuel) env target m = (.ok spot, last)) :
    ¬spot.ReadsBeyond := by
  cases target with
  | name id position =>
    cases ran
    exact not_false
  | member holder property =>
    simp only [evalTarget] at ran
    obtain ⟨h, mid, _, made⟩ := exists_of_seq_ok ran
    cases made
    exact readsBeyond_text (spellFinite_cons.mp names).1 h
  | index holder property => cases plain

mutual

theorem exprOverreaches_avoids (env : Env) {e : Expr} (plain : PlainExpr e)
    (names : SpellFinite (memberNames e)) :
    Avoids cells (exprOverreaches bindingsHost 0 (invoke bindingsHost 0 fuel)
      (invokeOverreaches bindingsHost 0 fuel) env e) := by
  cases e with
  | number x => exact avoids_never
  | text s => cases plain
  | literal l => exact avoids_never
  | name id position => exact avoids_never
  | member holder property =>
    simp only [memberNames, spellFinite_cons] at names
    simp only [exprOverreaches]
    refine avoids_orAfter (exprOverreaches_avoids env plain.1 names.2) (evalExpr_keeps env plain.1) ?_
    intro h _ _ _ _ _
    exact readsBeyond_text names.1 h
  | index holder property => cases plain
  | call callee args =>
    simp only [memberNames, spellFinite_append] at names
    simp only [exprOverreaches]
    refine avoids_orAfter (exprOverreaches_avoids env plain.1 names.1) (evalExpr_keeps env plain.1) ?_
    intro f _ _ _
    refine avoids_orAfter (argsOverreach_avoids env plain.2.2 names.2)
      (evalArgs_keeps env plain.2.2) fun vs _ _ _ => ?_
    cases f with
    | func place => exact invokeOverreaches_avoids fuel place vs
    | _ => exact avoids_never
  | unary op arg =>
    simp only [exprOverreaches]
    exact exprOverreaches_avoids env plain names
  | update op before target =>
    simp only [exprOverreaches]
    refine avoids_orAfter (targetOverreaches_avoids env plain names) (evalTarget_keeps env plain) ?_
    intro spot _ _ ran _ _
    exact evalTarget_finite plain names ran
  | binary op left right =>
    simp only [memberNames, spellFinite_append] at names
    simp only [exprOverreaches]
    exact avoids_orAfter (exprOverreaches_avoids env plain.2.1 names.1)
      (evalExpr_keeps env plain.2.1) fun _ _ _ _ => exprOverreaches_avoids env plain.2.2 names.2
  | logical op left right =>
    simp only [memberNames, spellFinite_append] at names
    simp only [exprOverreaches]
    refine avoids_orAfter (exprOverreaches_avoids env plain.1 names.1) (evalExpr_keeps env plain.1) ?_
    intro a _ _ _
    split
    · exact exprOverreaches_avoids env plain.2 names.2
    · exact exprOverreaches_avoids env plain.2 names.2
    · exact avoids_never
  | conditional test yes no =>
    simp only [memberNames, spellFinite_append] at names
    simp only [exprOverreaches]
    refine avoids_orAfter (exprOverreaches_avoids env plain.1 names.1.1)
      (evalExpr_keeps env plain.1) fun v _ _ _ => ?_
    split
    · exact exprOverreaches_avoids env plain.2.1 names.1.2
    · exact exprOverreaches_avoids env plain.2.2 names.2
    · exact avoids_never
  | assign op target value =>
    simp only [memberNames, spellFinite_append] at names
    simp only [exprOverreaches]
    refine avoids_orAfter (targetOverreaches_avoids env plain.1 names.1)
      (evalTarget_keeps env plain.1) fun spot _ _ ran => ?_
    have finite : ¬spot.ReadsBeyond := evalTarget_finite plain.1 names.1 ran
    have valued : Avoids cells (exprOverreaches bindingsHost 0 (invoke bindingsHost 0 fuel)
        (invokeOverreaches bindingsHost 0 fuel) env value) :=
      exprOverreaches_avoids env plain.2 names.2
    cases op with
    | plain =>
      refine avoids_orAfter valued (evalExpr_keeps env plain.2) ?_
      intro _ _ _ _ _ _ beyond
      exact finite (Spot.readsBeyond_of_writesBeyond beyond)
    | compound o =>
      exact avoids_orAfter (fun _ _ => finite) (readSpot_keeps env spot) fun _ _ _ _ => valued
  | list items => cases plain
  | object entries => cases plain
  | func f => cases plain

theorem argsOverreach_avoids (env : Env) {args : List Expr} (plain : PlainArgs args)
    (names : SpellFinite (argsMemberNames args)) :
    Avoids cells (argsOverreach bindingsHost 0 (invoke bindingsHost 0 fuel)
      (invokeOverreaches bindingsHost 0 fuel) env args) := by
  cases args with
  | nil => exact avoids_never
  | cons e rest =>
    simp only [argsMemberNames, spellFinite_append] at names
    simp only [argsOverreach]
    exact avoids_orAfter (exprOverreaches_avoids env plain.1 names.1) (evalExpr_keeps env plain.1)
      fun _ _ _ _ => argsOverreach_avoids env plain.2 names.2

theorem targetOverreaches_avoids (env : Env) {target : Target} (plain : PlainTarget target)
    (names : SpellFinite (targetMemberNames target)) :
    Avoids cells (targetOverreaches bindingsHost 0 (invoke bindingsHost 0 fuel)
      (invokeOverreaches bindingsHost 0 fuel) env target) := by
  cases target with
  | name id position => exact avoids_never
  | member holder property =>
    simp only [targetMemberNames, spellFinite_cons] at names
    simp only [targetOverreaches]
    exact exprOverreaches_avoids env plain.1 names.2
  | index holder property => cases plain

end

theorem overreaches_avoids {source : String} {p : Predicate} (h : compile source = .ok p)
    (names : SpellFinite (memberNames p.expr)) {m : Machine (Fields Value)} (sealed : Seals cells m) :
    ¬p.expr.Overreaches bindingsHost 0 m :=
  exprOverreaches_avoids rootEnv (compile_plain h) names m.rewound
    ⟨sealed.lists, sealed.closures, sealed.objects, sealed.readOnly⟩

end Evaluation

end EmitterLogic.Predicate
