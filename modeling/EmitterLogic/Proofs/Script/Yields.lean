import EmitterLogic.Script.Bindings
import EmitterLogic.Proofs.Datum.Fields
import EmitterLogic.Proofs.Script.Code
import EmitterLogic.Proofs.Script.Compatible
import EmitterLogic.Condition.Evaluation

namespace EmitterLogic.Script

def Yields (m : Machine (Fields Value)) (e : Expr) (v : Value) : Prop :=
  ∀ limit call, evalExpr bindingsHost limit call rootEnv e m = (.ok v, m)

namespace Yields

variable {m : Machine (Fields Value)} {a b : Expr} {v w : Value}

theorem number (x : Float) : Yields m (.number x) (.float x) := fun _ _ => rfl

theorem name {word : String} (place : Nat) (root : (m.scope rootScope).names = [])
    (bound : m.host.get? word = some v) : Yields m (.name word place) v := by
  intro limit call
  have unscoped : (m.scope rootScope).names.has word = false := by
    rw [root]
    rfl
  have hosted : m.host.has word = true := Fields.has_iff_get?.mpr ⟨v, bound⟩
  have found : placeOf bindingsHost m word rootEnv = .host := by
    have here : bindingsHost.has m.host word = true := hosted
    simp only [rootEnv, placeOf, unscoped, here, if_true, Bool.false_eq_true, if_false]
  have read : readName bindingsHost rootEnv word m = outside (bindingsHost.read word) m := by
    rw [readName]
    refine (seq_ok rfl).trans ?_
    rw [found]
  have value : bindingsHost.read word m = (.ok ((m.host.get? word).getD .undefined), m) := rfl
  rw [evalExpr, read, outside, value, bound]
  rfl

theorem negate (h : Yields m a v) {x : Float} (number : v.toNumber = .ok x) :
    Yields m (.unary .negate a) (.float (-x)) := by
  intro limit call
  have applied : UnaryOp.apply .negate v m = (.ok (.float (-x)), m) := by
    rw [UnaryOp.apply, number]
    rfl
  rw [evalExpr]
  · exact (seq_ok (h limit call)).trans applied
  · exact nofun

theorem binary {op : BinaryOp} {r : Value} (first : Yields m a v) (second : Yields m b w)
    (applied : op.apply v w m = (.ok r, m)) : Yields m (.binary op a b) r := by
  intro limit call
  rw [evalExpr]
  refine (seq_ok (first limit call)).trans ?_
  exact (seq_ok (second limit call)).trans applied

theorem compared (c : Comparison) {n k : Number} {x y : Float} (hx : n.toFloat = .ok x)
    (hy : k.toFloat = .ok y) (first : Yields m a (.number n)) (second : Yields m b (.number k)) :
    Yields m ((Connective.compare c).make a b) (.bool (c.holds x y)) := by
  have loose : Value.looseEq (.number n) (.number k) = .ok (x == y) := by
    have numbers : Value.looseEq (.number n) (.number k) =
        (n.toFloat >>= fun x => k.toFloat >>= fun y => .ok (x == y)) := rfl
    rw [numbers, hx, hy]
    rfl
  have order (r : Relation) : Value.compare r (.number n) (.number k) = .ok (r.holds x y) := by
    have numbers : Value.compare r (.number n) (.number k) =
        (n.toFloat >>= fun x => k.toFloat >>= fun y => .ok (r.holds x y)) := rfl
    rw [numbers, hx, hy]
    rfl
  cases c
  case eq => exact first.binary second (by rw [BinaryOp.apply, loose]; rfl)
  case ne => exact first.binary second (by rw [BinaryOp.apply, loose]; rfl)
  all_goals exact first.binary second (by rw [BinaryOp.apply, order]; rfl)

theorem linked (l : Link) {p q : Bool} (first : Yields m a (.bool p))
    (second : Yields m b (.bool q)) :
    Yields m ((Connective.link l).make a b) (.bool (l.join p q)) := by
  intro limit call
  cases l
  all_goals
    rw [Connective.make, evalExpr]
    refine (seq_ok (first limit call)).trans ?_
    cases p
  · rfl
  · exact second limit call
  · exact second limit call
  · rfl

theorem evaluated (h : Yields m.rewound a v) (limit : Nat) :
    (evaluate bindingsHost limit a m).1 = .ok v :=
  congrArg Prod.fst (h limit _)

end Yields

section Bindings

variable {m : Machine (Fields Value)} {bindings : Fields Datum} {word : String} {n : Number}

mutual

theorem load_scopes (m : Machine (Fields Value)) (d : Datum) : (m.load d).2.scopes = m.scopes := by
  cases d with
  | list items => exact loadItems_scopes m items
  | object entries => exact loadEntries_scopes m entries
  | _ => rfl

theorem loadItems_scopes (m : Machine (Fields Value)) (items : List Datum) :
    (m.loadItems items).2.scopes = m.scopes := by
  cases items with
  | nil => rfl
  | cons d rest => exact (loadItems_scopes _ rest).trans (load_scopes m d)

theorem loadEntries_scopes (m : Machine (Fields Value)) (entries : List (String × Datum)) :
    (m.loadEntries entries).2.scopes = m.scopes := by
  cases entries with
  | nil => rfl
  | cons e rest => exact (loadEntries_scopes _ rest).trans (load_scopes m e.2)

end

theorem loadEntries_get? (m : Machine (Fields Value)) (h : bindings.get? word = some (.number n)) :
    (m.loadEntries bindings).1.get? word = some (.number n) := by
  induction bindings generalizing m with
  | nil => cases h
  | cons e rest ih =>
    obtain ⟨key, d⟩ := e
    have loaded : (m.loadEntries ((key, d) :: rest)).1 =
        (key, (m.load d).1) :: ((m.load d).2.loadEntries rest).1 := rfl
    rw [loaded, Fields.get?_cons]
    rw [Fields.get?_cons] at h
    split at h
    · next here =>
      cases h
      rw [if_pos here]
      rfl
    · next elsewhere =>
      rw [if_neg elsewhere]
      exact ih _ h

theorem yields_binding (draws : Draws) (place : Nat) (h : bindings.get? word = some (.number n)) :
    Yields (Machine.ofBindings bindings draws).rewound (.name word place) (.number n) := by
  have scopes : (Machine.ofBindings bindings draws).rewound.scopes = #[{}] :=
    loadEntries_scopes _ bindings
  refine Yields.name place ?_ (loadEntries_get? _ h)
  rw [Machine.scope, scopes]
  rfl

end Bindings

end EmitterLogic.Script
