import EmitterLogic.Proofs.Behavior.Variable
import EmitterLogic.Proofs.Formula.Leaves
import EmitterLogic.Proofs.Formula.Tree
import EmitterLogic.Proofs.Number.Written
import EmitterLogic.Proofs.Script.CodeReading
import EmitterLogic.Proofs.Session.Answers

namespace EmitterLogic.Formula

open Kotlin Binary64

section Heights

/-- The height of a stack after an operator; none if operands are missing. -/
def Operator.onHeight : Operator → Nat → Option Nat
  | .negation, n + 1 => some (n + 1)
  | .binary _, n + 2 => some (n + 1)
  | _, _ => none

/-- The height of a stack after a program. -/
def heightFrom : List Instr → Nat → Option Nat
  | [], n => some n
  | .number _ :: rest, n => heightFrom rest (n + 1)
  | .name _ :: rest, n => heightFrom rest (n + 1)
  | .op o :: rest, n => (o.onHeight n).bind (heightFrom rest)

theorem onStack_height (o : Operator) (stack : List Float) :
    (o.onStack stack).map List.length = o.onHeight stack.length := by
  match o, stack with
  | .negation, [] => rfl
  | .negation, _ :: _ => rfl
  | .binary _, [] => rfl
  | .binary _, [_] => rfl
  | .binary _, _ :: _ :: _ => rfl

theorem onTexts_height (o : Operator) (stack : List String) :
    (o.onTexts stack).map List.length = o.onHeight stack.length := by
  match o, stack with
  | .negation, [] => rfl
  | .negation, _ :: _ => rfl
  | .binary _, [] => rfl
  | .binary _, [_] => rfl
  | .binary _, _ :: _ :: _ => rfl

theorem runFrom_height {s : Sight} {program : List Instr} {stack : List Float}
    {r : Option (List Float)} (ran : runFrom s program stack = .ok r) :
    r.map List.length = heightFrom program stack.length := by
  induction program generalizing stack with
  | nil =>
    cases ran
    rfl
  | cons i rest ih =>
    cases i with
    | number x => exact ih ran
    | name w =>
      obtain ⟨x, _, ran⟩ := bind_ok ran
      exact ih ran
    | op o =>
      have same := onStack_height o stack
      rw [runFrom] at ran
      rw [heightFrom, ← same]
      cases applied : o.onStack stack with
      | none =>
        rw [applied] at ran
        cases ran
        rfl
      | some stack' =>
        rw [applied] at ran
        exact ih ran

theorem runFrom_ok {s : Sight} (h : s.InRange) (program : List Instr) (stack : List Float) :
    ∃ r, runFrom s program stack = .ok r := by
  induction program generalizing stack with
  | nil => exact ⟨some stack, rfl⟩
  | cons i rest ih =>
    cases i with
    | number x => exact ih (finiteOrZero x :: stack)
    | name w =>
      obtain ⟨x, read⟩ := Sight.readD_ok h w 0.0
      rw [runFrom, read]
      exact ih (x :: stack)
    | op o =>
      rw [runFrom]
      cases o.onStack stack with
      | none => exact ⟨none, rfl⟩
      | some stack' => exact ih stack'

/-- The numbers of a program can be written. -/
def Writable (style : NumberStyle) (program : List Instr) : Prop :=
  ∀ x, .number x ∈ program → ∃ text, style.write (.float x) = .ok text

theorem write_zero (style : NumberStyle) : ∃ text, style.write (.int 0) = .ok text := by
  have zero : (Datum.int 0).finite? = .ok (some 0.0) := rfl
  have whole := Variable.isWhole_zero
  have half : (Binary64.parts? (0.0 * 1000000.0 + 0.5)).isSome = true := by decide
  have none : (Binary64.parts? 0.0).isSome = true := by decide
  obtain ⟨p, halfParts⟩ := Option.isSome_iff_exists.mp half
  obtain ⟨q, zeroParts⟩ := Option.isSome_iff_exists.mp none
  have part : truncated 0.0 = .ok q.trunc := by rw [truncated, zeroParts]
  cases style with
  | full =>
    rw [NumberStyle.write, full, zero]
    simp only [bind, Except.bind, whole, part, if_true]
    exact ⟨_, rfl⟩
  | literal =>
    rw [NumberStyle.write, literal, literalOf, zero]
    simp only [bind, Except.bind, whole, part, if_true]
    exact ⟨_, rfl⟩
  | decimal =>
    rw [NumberStyle.write, decimal, zero]
    simp only [bind, Except.bind, floored, halfParts]
    exact ⟨_, rfl⟩

theorem nameText_ok (map : NameMap) (style : NumberStyle) (w : String) :
    ∃ text, nameText map style w = .ok text := by
  simp only [nameText]
  cases Builtin.ofName? (canonicalName w) with
  | some b => exact ⟨_, rfl⟩
  | none =>
    cases isIdent (canonicalName w) with
    | true => exact ⟨_, rfl⟩
    | false => exact write_zero style

theorem writeFrom_height {map : NameMap} {style : NumberStyle} {program : List Instr}
    {stack : List String} {r : Option (List String)}
    (ran : writeFrom map style program stack = .ok r) :
    r.map List.length = heightFrom program stack.length := by
  -- The writer and the height go by the same instruction, and stop at the same one.
  induction program generalizing stack with
  | nil =>
    cases ran
    rfl
  | cons i rest ih =>
    cases i with
    | number x =>
      obtain ⟨text, _, ran⟩ := bind_ok ran
      exact ih ran
    | name w =>
      obtain ⟨text, _, ran⟩ := bind_ok ran
      exact ih ran
    | op o =>
      have same := onTexts_height o stack
      rw [writeFrom] at ran
      rw [heightFrom, ← same]
      cases applied : o.onTexts stack with
      | none =>
        rw [applied] at ran
        cases ran
        rfl
      | some stack' =>
        rw [applied] at ran
        exact ih ran

theorem writeFrom_ok (map : NameMap) {style : NumberStyle} {program : List Instr}
    (writable : Writable style program) (stack : List String) :
    ∃ r, writeFrom map style program stack = .ok r := by
  induction program generalizing stack with
  | nil => exact ⟨some stack, rfl⟩
  | cons i rest ih =>
    have later : Writable style rest := fun x hx => writable x (List.mem_cons_of_mem _ hx)
    cases i with
    | number x =>
      obtain ⟨text, written⟩ := writable x List.mem_cons_self
      rw [writeFrom, written]
      exact ih later (text :: stack)
    | name w =>
      obtain ⟨text, written⟩ := nameText_ok map style w
      rw [writeFrom, written]
      exact ih later (text :: stack)
    | op o =>
      rw [writeFrom]
      cases o.onTexts stack with
      | none => exact ⟨none, rfl⟩
      | some stack' => exact ih later stack'

end Heights

section Trees

def Operator.onTrees : Operator → List Tree → Option (List Tree)
  | .negation, t :: stack => some (.negation t :: stack)
  | .binary o, b :: a :: stack => some (.binary o a b :: stack)
  | _, _ => none

/-- Runs a program on a stack of trees. -/
def treesFrom : List Instr → List Tree → Option (List Tree)
  | [], stack => some stack
  | .number x :: rest, stack => treesFrom rest (.number x :: stack)
  | .name w :: rest, stack => treesFrom rest (.name w :: stack)
  | .op o :: rest, stack => (o.onTrees stack).bind (treesFrom rest)

/-- The tree of a program, if it leaves one. -/
def treeOf? (program : List Instr) : Option Tree :=
  match treesFrom program [] with
  | some [t] => some t
  | _ => none

theorem onTrees_height (o : Operator) (stack : List Tree) :
    (o.onTrees stack).map List.length = o.onHeight stack.length := by
  match o, stack with
  | .negation, [] => rfl
  | .negation, _ :: _ => rfl
  | .binary _, [] => rfl
  | .binary _, [_] => rfl
  | .binary _, _ :: _ :: _ => rfl

theorem treesFrom_height (program : List Instr) (stack : List Tree) :
    (treesFrom program stack).map List.length = heightFrom program stack.length := by
  induction program generalizing stack with
  | nil => rfl
  | cons i rest ih =>
    cases i with
    | number x => exact ih (.number x :: stack)
    | name w => exact ih (.name w :: stack)
    | op o =>
      have same := onTrees_height o stack
      rw [treesFrom, heightFrom, ← same]
      cases o.onTrees stack with
      | none => rfl
      | some stack' => exact ih stack'

def programOfTrees (stack : List Tree) : List Instr := stack.reverse.flatMap Tree.postorder

theorem programOfTrees_cons (t : Tree) (stack : List Tree) :
    programOfTrees (t :: stack) = programOfTrees stack ++ t.postorder := by
  simp [programOfTrees]

theorem onTrees_program {o : Operator} {stack stack' : List Tree}
    (h : o.onTrees stack = some stack') :
    programOfTrees stack' = programOfTrees stack ++ [.op o] := by
  match o, stack, h with
  | .negation, t :: stack, h =>
    cases h
    rw [programOfTrees_cons, programOfTrees_cons, Tree.postorder, List.append_assoc]
  | .binary o, b :: a :: stack, h =>
    cases h
    rw [programOfTrees_cons, programOfTrees_cons, programOfTrees_cons, Tree.postorder]
    simp only [List.append_assoc]

theorem treesFrom_program {program : List Instr} {stack stack' : List Tree}
    (h : treesFrom program stack = some stack') :
    programOfTrees stack' = programOfTrees stack ++ program := by
  induction program generalizing stack with
  | nil =>
    cases h
    rw [List.append_nil]
  | cons i rest ih =>
    have leaf (t : Tree) (single : t.postorder = [i]) (h : treesFrom rest (t :: stack) = some stack') :
        programOfTrees stack' = programOfTrees stack ++ i :: rest := by
      rw [ih h, programOfTrees_cons, single, List.append_assoc]
      rfl
    cases i with
    | number x => exact leaf (.number x) rfl h
    | name w => exact leaf (.name w) rfl h
    | op o =>
      obtain ⟨next, done, h⟩ := Option.bind_eq_some_iff.mp h
      rw [ih h, onTrees_program done, List.append_assoc]
      rfl

theorem postorder_of_treeOf {program : List Instr} {t : Tree} (h : treeOf? program = some t) :
    program = t.postorder := by
  rw [treeOf?] at h
  split at h
  · next u left =>
    cases h
    have all := treesFrom_program left
    simpa [programOfTrees] using all.symm
  · cases h

theorem treesFrom_postorder (t : Tree) (rest : List Instr) (stack : List Tree) :
    treesFrom (t.postorder ++ rest) stack = treesFrom rest (t :: stack) := by
  induction t generalizing rest stack with
  | number x => rfl
  | name w => rfl
  | negation t ih =>
    rw [Tree.postorder, List.append_assoc, ih]
    rfl
  | binary o left right ihl ihr =>
    rw [Tree.postorder, List.append_assoc, List.append_assoc, ihl, ihr]
    rfl

theorem treeOf_postorder (t : Tree) : treeOf? t.postorder = some t := by
  have all := treesFrom_postorder t [] []
  rw [List.append_nil] at all
  rw [treeOf?, all]
  rfl

theorem treeOf_isSome (program : List Instr) :
    (treeOf? program).isSome = true ↔ heightFrom program 0 = some 1 := by
  have height := treesFrom_height program []
  rw [List.length_nil] at height
  rw [treeOf?, ← height]
  match treesFrom program [] with
  | none => exact ⟨nofun, nofun⟩
  | some [] => exact ⟨nofun, nofun⟩
  | some [t] => exact ⟨fun _ => rfl, fun _ => rfl⟩
  | some (_ :: _ :: _) => exact ⟨nofun, nofun⟩

end Trees

end EmitterLogic.Formula
