import EmitterLogic.Behavior.Kotlin
import EmitterLogic.Proofs.Behavior.Reread
import EmitterLogic.Proofs.Condition.Worth
import EmitterLogic.Proofs.Number.Rounded
import EmitterLogic.Proofs.Preview.Adoption

namespace EmitterLogic

open Binary64 Session Script

theorem isFinite_of_toFloat {n : Int} {x : Float} (h : (Number.int n).toFloat = .ok x) :
    x.isFinite = true := by
  rw [Number.toFloat, ofInt?, nearest?] at h
  cases found : nearestBits n.natAbs 1 with
  | none =>
    rw [found] at h
    cases h
  | some bits =>
    rw [found] at h
    cases h
    exact isFinite_ofBits _ (nearestBits_lt found)

namespace Preview

open Staged

/-- The names of particle values. -/
def particleNames : List String := ["age", "maxAge", "life", "sign", "respawnCount"]

/-- The number of a variable, finite or not. -/
def storedNumber (store : Fields Datum) (w : String) : Float :=
  match store.get? w with
  | some (.number (.float x)) => x
  | _ => 0.0

def builtinWorth (tick : Float) (b : Builtin) : Float := if b = .tick then tick else 0.0

/-- What operands are worth to the preview. -/
def previewWorth (store : Fields Datum) (tick : Float) : Worth where
  builtin := builtinWorth tick
  named w :=
    if w = "tick" then tick
    else if w ∈ particleNames then 0.0
    else (finiteOnly (storedNumber store w)).getD 0.0
  number x := x

/-- What operands are worth in the code. -/
def codeWorth (store : Fields Datum) (tick : Float) : Worth where
  builtin := builtinWorth tick
  named w := if w = "tick" then tick else storedNumber store w
  number := written

structure Furnished (names : List String) (store : Fields Datum) : Prop where
  numbers : ∀ w ∈ names, w ≠ "" → store.get? w = some (.float (storedNumber store w))
  nameless : store.get? "" = none

theorem Sound.furnished {p : Preview} (h : p.Sound) {b : Behavior}
    (adopted : p.behavior = some b) : Furnished (b.vars.map (·.name)) p.store where
  numbers w declared named := by
    have vars : p.vars = b.vars := by
      rw [Preview.vars, adopted]
      rfl
    rw [← vars] at declared
    obtain ⟨d, found⟩ :=
      Fields.has_iff_get?.mp ((h.keys w).mpr (mem_names_stored.mpr ⟨named, declared⟩))
    obtain ⟨x, rfl⟩ := h.floats w d found
    rw [storedNumber, found]
    rfl
  nameless := by
    cases found : p.store.get? "" with
    | none => rfl
    | some d =>
      have present := (h.keys "").mp (Fields.has_iff_get?.mpr ⟨d, found⟩)
      exact absurd rfl (mem_names_stored.mp present).1

section Seen

variable {store : Fields Datum} {names : List String} {n : Nat} {x : Float} {w : String}

def tickSight (n : Nat) (store : Fields Datum) : Sight := ⟨tickContext n, store⟩

theorem readD_particle (h : w ∈ particleNames) : (tickSight n store).readD w 0.0 = .ok 0.0 := by
  rw [particleNames] at h
  simp only [List.mem_cons, List.not_mem_nil, or_false] at h
  rcases h with rfl | rfl | rfl | rfl | rfl <;> rfl

theorem readD_tick (count : (Number.int n).toFloat = .ok x) :
    (tickSight n store).readD "tick" 0.0 = .ok x := by
  have number := finite?_number count (isFinite_of_toFloat count)
  have found : Sight.readOne (tickSight n store).context "tick" = .ok (some x) := number
  have read : (tickSight n store).readKeys ["tick"] = .ok (some x) := by
    rw [Sight.readKeys, found]
    rfl
  have unfolded : (tickSight n store).readD "tick" 0.0 =
      ((tickSight n store).readKeys ["tick"]).map (·.getD 0.0) := rfl
  rw [unfolded, read]
  rfl

theorem readD_variable (h : Furnished names store) (declared : w ∈ names)
    (word : Text.isIdentChars w.toList = true) (tick : w ≠ "tick") (particle : w ∉ particleNames) :
    (tickSight n store).readD w 0.0 = .ok ((finiteOnly (storedNumber store w)).getD 0.0) := by
  simp only [particleNames, List.mem_cons, List.not_mem_nil, or_false, not_or] at particle
  obtain ⟨age, maxAge, life, sign, respawnCount⟩ := particle
  have named : w ≠ "" := by
    rintro rfl
    cases word
  have keys : lookupKeys w = [w] := by
    have same : canonicalName w = w := by
      rw [canonicalName_ident word, if_neg (by simpa using life)]
    rw [lookupKeys, same, if_neg (by simpa using maxAge)]
  have absent : Sight.readOne (tickContext n) w = .ok none := by
    have none : Fields.get? (tickContext n) w = none := by
      refine Fields.get?_eq_none_of_not_mem ?_
      simp [tickContext, Fields.keys, tick, age, maxAge, life, sign, respawnCount]
    rw [Sight.readOne, none]
  have here : Sight.readOne store w = .ok (finiteOnly (storedNumber store w)) := by
    rw [Sight.readOne, h.numbers w declared named]
    rfl
  have read : (tickSight n store).readKeys [w] = .ok (finiteOnly (storedNumber store w)) := by
    rw [Sight.readKeys]
    simp only [tickSight, absent, here]
    cases finiteOnly (storedNumber store w) <;> rfl
  rw [Sight.readD, Sight.read?, trimmed_ident word, isEmpty_ident word, keys,
    if_neg Bool.false_ne_true, read]
  rfl

theorem storedNumber_nameless (h : Furnished names store) : storedNumber store "" = 0.0 := by
  rw [storedNumber, h.nameless]

theorem readD_named (count : (Number.int n).toFloat = .ok x) (h : Furnished names store)
    (declared : w ∈ names) (normal : identOrEmpty w = w) :
    (tickSight n store).readD w 0.0 = .ok ((previewWorth store x).named w) := by
  rcases identOrEmpty_eq_iff.mp normal with rfl | word
  · have worth : (previewWorth store x).named "" = 0.0 := by
      rw [previewWorth]
      simp only [storedNumber_nameless h]
      rfl
    rw [worth]
    rfl
  rw [previewWorth]
  by_cases tick : w = "tick"
  · subst tick
    exact readD_tick count
  by_cases particle : w ∈ particleNames
  · simp only [if_neg tick, if_pos particle]
    exact readD_particle particle
  · simp only [if_neg tick, if_neg particle]
    exact readD_variable h declared word tick particle

theorem readD_builtin (count : (Number.int n).toFloat = .ok x) (b : Builtin) :
    (tickSight n store).readD b.name 0.0 = .ok (builtinWorth x b) := by
  by_cases tick : b = .tick
  · subst tick
    exact readD_tick count
  · have particle : b.name ∈ particleNames := by
      cases b with
      | tick => exact absurd rfl tick
      | _ => decide
    rw [builtinWorth, if_neg tick]
    exact readD_particle particle

theorem isFinite_builtinWorth (finite : x.isFinite = true) (b : Builtin) :
    (builtinWorth x b).isFinite = true := by
  rw [builtinWorth]
  split
  · exact finite
  · exact zero_isFinite

theorem isFinite_previewNamed (finite : x.isFinite = true) (w : String) :
    ((previewWorth store x).named w).isFinite = true := by
  rw [previewWorth]
  dsimp only
  split
  · exact finite
  split
  · exact zero_isFinite
  · cases only : finiteOnly (storedNumber store w) with
    | none => exact zero_isFinite
    | some y => exact isFinite_of_finiteOnly only

theorem seenAs {r : Rule} (settled : r.Settled false) (plain : r.usesComputed = false)
    (count : (Number.int n).toFloat = .ok x) (h : Furnished names store)
    (declared : ∀ w ∈ r.varNames, w ∈ names) :
    r.SeenAs (tickSight n store) (previewWorth store x) := by
  have finite := isFinite_of_toFloat count
  have left : r.left.resolve (tickSight n store) =
        .ok (.number (r.left.worth (previewWorth store x))) ∧
      (r.left.worth (previewWorth store x)).isFinite = true := by
    cases side : r.left with
    | builtin b =>
      rw [LeftSide.resolve, readD_builtin count b]
      exact ⟨rfl, isFinite_builtinWorth finite b⟩
    | named w =>
      have here := Rule.left_mem_varNames side
      rw [LeftSide.resolve, readD_named count h (declared w here) (settled.sides.left.name w side)]
      exact ⟨rfl, isFinite_previewNamed finite w⟩
    | reason =>
      have never := settled.reason (by rw [Rule.hasReasonSide, side]; rfl)
      cases never
  have right : r.right.resolve (tickSight n store) =
        .ok (.number (r.right.worth (previewWorth store x))) ∧
      (r.right.worth (previewWorth store x)).isFinite = true := by
    cases side : r.right with
    | number y =>
      have finite := settled.sides.right.number y side
      have only : finiteOnly y = some y := if_pos finite
      rw [RightSide.resolve, only]
      exact ⟨rfl, finite⟩
    | builtin b =>
      rw [RightSide.resolve, readD_builtin count b]
      exact ⟨rfl, isFinite_builtinWorth finite b⟩
    | named w =>
      have here := Rule.right_mem_varNames side
      rw [RightSide.resolve, readD_named count h (declared w here) (settled.sides.right.name w side)]
      exact ⟨rfl, isFinite_previewNamed finite w⟩
    | reason why =>
      have never := settled.reason (by rw [Rule.hasReasonSide, side]; exact Bool.or_true _)
      cases never
  exact ⟨plain, left.1, right.1, left.2, right.2⟩

end Seen

section Written

variable {store : Fields Datum} {names : List String} {n : Nat} {x : Float} {w : String}

/-- The machine on which the code of a tick is run: the store, and the number of the tick. -/
def tickMachine (n : Nat) (store : Fields Datum) (draws : Draws) : Machine (Fields Value) :=
  Machine.ofBindings (store.put "tick" (.int n)) draws

variable {draws : Draws}

theorem renders_bound {k : Number} (word : Text.isIdentChars w.toList = true)
    (unreserved : isReserved w = false)
    (bound : (store.put "tick" (.int n)).get? w = some (.number k)) (value : k.toFloat = .ok x) :
    Renders (tickMachine n store draws).rewound w x :=
  ⟨.plain (.name w), k, ⟨word, unreserved⟩, (Code.text_name w).symm,
    fun place => yields_binding draws place bound, value⟩

theorem renders_tick (count : (Number.int n).toFloat = .ok x) :
    Renders (tickMachine n store draws).rewound "tick" x := by
  refine renders_bound (k := .int n) (by decide) (by decide) ?_ count
  rw [Fields.get?_put, beq_self_eq_true, if_pos rfl]
  rfl

theorem renders_nought {m : Machine (Fields Value)} : Renders m "0" 0.0 := renders_numeral .nought

theorem renders_builtin (count : (Number.int n).toFloat = .ok x) (b : Builtin) :
    Renders (tickMachine n store draws).rewound (Kotlin.builtin TickAction.conditionMap b)
      (builtinWorth x b) := by
  have text : Kotlin.builtin TickAction.conditionMap b = if b = .tick then "tick" else "0" := by
    cases b <;> rfl
  rw [text, builtinWorth]
  split
  · exact renders_tick count
  · exact renders_nought

theorem renders_named (count : (Number.int n).toFloat = .ok x) (h : Furnished names store)
    (declared : w ∈ names) (unreserved : isReserved w = false) (normal : identOrEmpty w = w) :
    Renders (tickMachine n store draws).rewound (if isIdent w then trimmed w else "0.0")
      ((codeWorth store x).named w) := by
  rcases identOrEmpty_eq_iff.mp normal with rfl | word
  · have unnamed : isIdent "" = false := by decide
    have worth : (codeWorth store x).named "" = 0.0 := storedNumber_nameless h
    rw [unnamed, if_neg Bool.false_ne_true, worth]
    exact renders_numeral .zero
  rw [if_pos (isIdent_of_chars word), trimmed_ident word, codeWorth]
  by_cases tick : w = "tick"
  · subst tick
    exact renders_tick count
  · have named : w ≠ "" := by
      rintro rfl
      cases word
    simp only [if_neg tick]
    refine renders_bound (k := .float (storedNumber store w)) word unreserved ?_ rfl
    rw [Fields.get?_put, if_neg (by simpa using tick), h.numbers w declared named]
    rfl

theorem writtenAs {r : Rule} (settled : r.Settled false) (plain : r.usesComputed = false)
    (count : (Number.int n).toFloat = .ok x) (h : Furnished names store)
    (declared : ∀ w ∈ r.varNames, w ∈ names ∧ isReserved w = false) :
    r.WrittenAs TickAction.conditionMap .literal (tickMachine n store draws).rewound
      (codeWorth store x) := by
  refine ⟨plain, ?_, ?_⟩
  · cases side : r.left with
    | builtin b => exact renders_builtin count b
    | named w =>
      have here := Rule.left_mem_varNames side
      obtain ⟨known, unreserved⟩ := declared w here
      exact renders_named count h known unreserved (settled.sides.left.name w side)
    | reason =>
      have never := settled.reason (by rw [Rule.hasReasonSide, side]; rfl)
      cases never
  · cases side : r.right with
    | number y =>
      obtain ⟨z, p, text, same, parts, literal, spelled⟩ :=
        literal_spelled (settled.sides.right.number y side) (.int 0)
      refine ⟨text, literal, ?_⟩
      have worth : (RightSide.number y).worth (codeWorth store x) = unsignedZero z := same
      rw [worth]
      exact renders_spelled parts spelled
    | builtin b => exact ⟨_, rfl, renders_builtin count b⟩
    | named w =>
      have here := Rule.right_mem_varNames side
      obtain ⟨known, unreserved⟩ := declared w here
      exact ⟨_, rfl, renders_named count h known unreserved (settled.sides.right.name w side)⟩
    | reason why =>
      have never := settled.reason (by rw [Rule.hasReasonSide, side]; exact Bool.or_true _)
      cases never

end Written

end Preview

end EmitterLogic
