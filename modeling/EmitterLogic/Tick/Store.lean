import EmitterLogic.Tick.Vocabulary
import EmitterLogic.Script.Value

/-!
The variables of a behavior as its scripts see them. A script reads finite numbers only, and writes
them only to variables that are there: it adds none and removes none.
-/

namespace EmitterLogic

namespace Tick

open Script (Value)

/-- The value of a document that is not nested; scripts see no others in a store. -/
def flatValue : Datum → Value
  | .null => .null
  | .undefined => .undefined
  | .bool b => .bool b
  | .number n => .number n
  | .text s => .text s
  | .list _ => .undefined
  | .object _ => .undefined

def zero : Value := .float 0.0

/-- The finite number that a value stands for, else that of a default, else zero. -/
def finiteOf (v default : Value) : Except Fault Float := do
  let x ← v.toNumber
  if x.isFinite then return x
  let y ← default.toNumber
  return if y.isFinite then y else 0.0

theorem isFinite_of_finiteOf {v default : Value} {x : Float} (h : finiteOf v default = .ok x) :
    x.isFinite = true ∨ x = 0.0 := by
  simp only [finiteOf, bind, Except.bind] at h
  split at h
  · cases h
  · rename_i y _
    by_cases hy : y.isFinite = true
    · simp only [hy, if_true, pure, Except.pure, Except.ok.injEq] at h
      exact .inl (h ▸ hy)
    · simp only [hy, Bool.false_eq_true, if_false] at h
      split at h
      · cases h
      · rename_i z _
        by_cases hz : z.isFinite = true
        · simp only [hz, if_true, pure, Except.pure, Except.ok.injEq] at h
          exact .inl (h ▸ hz)
        · simp only [hz, Bool.false_eq_true, if_false, pure, Except.pure, Except.ok.injEq] at h
          exact .inr h.symm

/-- The variables by name, with the values that they have. -/
abbrev Store := Fields Datum

namespace Store

def holds (s : Store) (name : String) : Bool := isName name && Fields.has s name

def read (s : Store) (name : String) (default : Value) : Except Fault Float :=
  match if isName name then Fields.get? s name else none with
  | some d => finiteOf (flatValue d) default
  | none => finiteOf default zero

def write (s : Store) (name : String) (v : Value) : Except Fault (Float × Store) :=
  if s.holds name then (finiteOf v zero).map fun x => (x, Fields.put s name (.float x))
  else .ok (0.0, s)

theorem keys_put_of_has {α : Type} {fs : Fields α} {key : String} (h : fs.has key = true) (a : α) :
    (fs.put key a).keys = fs.keys := by
  induction fs with
  | nil => cases h
  | cons f fs ih =>
    obtain ⟨k, b⟩ := f
    by_cases hk : k = key
    · simp [Fields.put, Fields.keys, hk]
    · have h' : Fields.has fs key = true := by simpa [Fields.has, hk] using h
      have hkeys := ih h'
      simp only [Fields.keys] at hkeys
      simp [Fields.put, Fields.keys, hk, hkeys]

theorem keys_write {s s' : Store} {name : String} {v : Value} {x : Float}
    (h : s.write name v = .ok (x, s')) : Fields.keys s' = Fields.keys s := by
  simp only [write] at h
  split at h
  · rename_i hs
    cases hv : finiteOf v zero with
    | error f => rw [hv] at h; cases h
    | ok y =>
      rw [hv] at h
      simp only [Except.map, Except.ok.injEq, Prod.mk.injEq] at h
      rw [← h.2]
      simp only [holds, Bool.and_eq_true] at hs
      exact keys_put_of_has hs.2 _
  · simp only [Except.ok.injEq, Prod.mk.injEq] at h
    rw [h.2]

end Store

end Tick

end EmitterLogic
