import EmitterLogic.Tick.Vocabulary

/-!
What an editor offers while a tick script is written.
-/

namespace EmitterLogic.Tick

structure Completion where
  label : String
  /-- The text put in; a mark in it is the place of the cursor. Without one it is the label. -/
  inserted : String := ""
  detail : String := ""
  priority : Int := 0
  cursor : Option Int := none
deriving DecidableEq, Repr

namespace Completion

def toDatum (c : Completion) : Datum := .object (
  [("label", .text c.label), ("detail", .text c.detail), ("priority", .int c.priority)] ++
  (if c.inserted.isEmpty then [] else [("insertText", .text c.inserted)]) ++
  (c.cursor.elim [] fun n => [("cursorOffset", .int n)]))

/-- What is offered for every behavior. -/
def base : List Completion := [
  ⟨"if (...) \x7b ... \x7d", "if ($0) \x7b\n    \n\x7d", "branch", 240, none⟩,
  ⟨"setVar(name, value)", "setVar(\"$0\", 0)", "set variable", 260, none⟩,
  ⟨"addVar(name, value)", "addVar(\"$0\", 1)", "add to variable", 255, none⟩,
  ⟨"subVar(name, value)", "subVar(\"$0\", 1)", "subtract from variable", 255, none⟩,
  ⟨"mulVar(name, value)", "mulVar(\"$0\", 1)", "multiply variable", 250, none⟩,
  ⟨"divVar(name, value)", "divVar(\"$0\", 1)", "divide variable", 250, none⟩,
  ⟨"incVar(name)", "incVar(\"$0\")", "increment variable", 245, none⟩,
  ⟨"decVar(name)", "decVar(\"$0\")", "decrement variable", 245, none⟩,
  ⟨"clampVar(name, min, max)", "clampVar(\"$0\", 0, 1)", "clamp variable", 235, none⟩,
  ⟨"getVar(name, fallback)", "getVar(\"$0\", 0)", "read variable", 225, none⟩,
  ⟨"rand(min, max)", "rand($0, 1)", "random float", 220, none⟩,
  ⟨"randInt(min, max)", "randInt($0, 10)", "random integer", 220, none⟩,
  ⟨"tick", "", "current tick", 260, none⟩,
  ⟨"PI", "", "pi", 220, none⟩,
  ⟨"Math.sin(x)", "Math.sin($0)", "math", 200, none⟩,
  ⟨"Math.cos(x)", "Math.cos($0)", "math", 200, none⟩,
  ⟨"Math.abs(x)", "Math.abs($0)", "math", 200, none⟩,
  ⟨"Math.min(a, b)", "Math.min($0, )", "math", 190, some 11⟩,
  ⟨"Math.max(a, b)", "Math.max($0, )", "math", 190, some 11⟩,
  ⟨"const value = 0", "const $0 = 0", "constant", 170, none⟩,
  ⟨"let value = 0", "let $0 = 0", "variable", 170, none⟩,
  ⟨"function helper() \x7b \x7d", "function $0() \x7b\n    \n\x7d", "function", 160, none⟩]

/-- What is offered for a variable. -/
def ofVariable (name : String) : List Completion :=
  let call (helper rest : String) : String := helper ++ "(\"" ++ name ++ "\", " ++ rest ++ ")"
  [⟨name, name, "emitter variable", 280, none⟩,
    ⟨call "setVar" "value", call "setVar" "$0", "set variable", 275, none⟩,
    ⟨call "addVar" "value", call "addVar" "$0", "add to variable", 270, none⟩]

def all (vars : List String) : List Completion := base ++ vars.flatMap ofVariable

end Completion

end EmitterLogic.Tick
