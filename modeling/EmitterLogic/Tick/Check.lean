import EmitterLogic.Tick.Scan
import EmitterLogic.Text.Scan
import EmitterLogic.Script.Parser

/-!
Tick scripts. A text is one if it parses, uses no unknown name and calls nothing that it may not;
the first of these that fails is its defect. The empty text is a script that does nothing.
-/

namespace EmitterLogic.Tick

/-- Why a text is no tick script. -/
inductive Defect where
  | malformed (cause : Script.SyntaxCause) (line : Option Nat)
  | unknownName (name : String)
  | forbiddenCall (callee : String)
deriving DecidableEq, Repr

namespace Defect

def kind : Defect → String
  | malformed _ _ => "syntax"
  | unknownName _ => "unknown_identifier"
  | forbiddenCall _ => "disallowed_call"

/-- The name that a defect is about, empty if it is about none. -/
def name : Defect → String
  | malformed _ _ => ""
  | unknownName name => name
  | forbiddenCall callee => callee

def message : Defect → String
  | malformed cause line => "syntax error: " ++ Script.syntaxMessage cause line
  | unknownName name => "unknown identifier: " ++ name
  | forbiddenCall callee => "call not allowed: " ++ callee

end Defect

/-- What looking at a text gave: its program, which an empty text does not have, or its defect. -/
abbrev Verdict := Except Defect (Option Script.Program)

/-- The defect of a text that parses. -/
def nameDefect? (source : List Char) (vars : List String) : Option Defect :=
  match unknownName? vars source with
  | some name => some (.unknownName name)
  | none => (forbiddenCall? (helperNames ++ boundNames source) source).map .forbiddenCall

/-- Looks at a text as a script that may use some variables. A numeral that stands for no number is
a fault. -/
def verdict (source : String) (vars : List String) : Except Fault Verdict :=
  if source.isEmpty then .ok (.ok none)
  else match Script.parseProgram source with
    | .error (.fault f) => .error f
    | .error (.syntaxError cause line) => .ok (.error (.malformed cause line))
    | .ok program =>
      match nameDefect? source.toList vars with
      | some defect => .ok (.error defect)
      | none => .ok (.ok (some program))

def cleanSource (text : String) : String := trimmed (Text.replaceText "\r\n" "\n" text)

/-- A text with the verdict on it. -/
structure Compiled where
  source : String
  verdict : Verdict

namespace Compiled

def ofText (text : String) (vars : List String) : Except Fault Compiled := do
  let source := cleanSource text
  return { source, verdict := ← Tick.verdict source vars }

def defect? (c : Compiled) : Option Defect :=
  match c.verdict with
  | .error defect => some defect
  | .ok _ => none

def isOk (c : Compiled) : Bool := c.defect?.isNone

def program? (c : Compiled) : Option Script.Program :=
  match c.verdict with
  | .error _ => none
  | .ok program? => program?

end Compiled

end EmitterLogic.Tick
