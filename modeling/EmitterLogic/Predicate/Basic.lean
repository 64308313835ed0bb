import EmitterLogic.Script.Parser
import EmitterLogic.Text.Scan
import EmitterLogic.Script.Bindings
import EmitterLogic.Kotlin.Literal

/-!
Predicates: free-form conditions. A text is a predicate if all its characters are allowed, none of
the blocked words stands in it, and it is a single expression.
-/

namespace EmitterLogic

/-- A predicate: its text and its tree. -/
structure Predicate where
  source : String
  expr : Script.Expr

namespace Predicate

/-- Why a text is no predicate. -/
inductive Error where
  | empty
  | notAllowed
  | malformed (e : Script.ParseError)
deriving DecidableEq, Repr

def parseErrorMessage : Script.ParseError → String
  | .syntaxError cause line => Script.syntaxMessage cause line
  | .fault f => f.message

def Error.message : Error → String
  | empty => "expression is empty"
  | notAllowed => "expression contains unsupported characters or keywords"
  | malformed e => "syntax error: " ++ parseErrorMessage e

def isAllowedChar (c : Char) : Bool :=
  Text.isIdentPart c || "+-*/%().<>=!&|?: \t\r\n".toList.contains c

def blockedWords : List String :=
  ["new", "function", "while", "for", "if", "return", "class", "import", "export", "this",
    "window", "globalThis", "constructor", "prototype"]

def isBlocked (s : List Char) : Bool :=
  Text.found (fun _ s => (Text.dropWord? ['=', '>'] s).map fun _ => (2, ())) s ||
    blockedWords.any fun w => Text.found (Text.boundedWord w.toList) s

def isAllowed (text : String) : Bool :=
  let s := text.toList
  !s.isEmpty && s.all isAllowedChar && !isBlocked s

/-- The predicate that a text spells. -/
def compile (source : String) : Except Error Predicate :=
  if source.isEmpty then .error .empty
  else if !isAllowed source then .error .notAllowed
  else match Script.parseExpression source with
    | .ok expr => .ok ⟨source, expr⟩
    | .error e => .error (.malformed e)

theorem compile_source {source : String} {p : Predicate} (h : compile source = .ok p) :
    p.source = source := by
  unfold compile at h
  split at h
  · cases h
  · split at h
    · cases h
    · split at h
      · cases h; rfl
      · cases h

end Predicate

end EmitterLogic

namespace EmitterLogic.Predicate

open Script

def machineFor (context vars : Fields Datum) (draws : Draws) : Machine (Fields Value) :=
  let m := (Machine.ofBindings (context.merge vars) draws).bindMath true
  { m with host := m.host.put "abs" (.native (.math .abs)) }

/-- The truth value of a predicate, and the random numbers that are left. -/
def eval (p : Predicate) (context vars : Fields Datum) (draws : Draws) :
    Except Interrupt Bool × Draws :=
  let run := do orFault (← evaluate bindingsHost 0 p.expr).truthy
  let (result, m) := run (machineFor context vars draws)
  (result, m.draws)

open Kotlin

def contextKeys : List (String × Option String) :=
  [("age", none), ("maxAge", some "life"), ("life", some "maxAge"), ("sign", none),
    ("respawnCount", none), ("tick", none), ("reason", none)]

/-- A call of the magnitude function up to its parenthesis. -/
def magnitudeCall : Text.Matcher (List Char) := fun before s =>
  if before.any Text.isWordChar then none
  else match Text.dropWord? "Math.abs".toList s with
    | none => none
    | some rest =>
      match Text.trimStart rest with
      | '(' :: left => some (s.length - left.length, "kotlin.math.abs(".toList)
      | _ => none

/-- Puts the target of a name in the place of the name. -/
def substitute (map : NameMap) (text : String) : String × Option String → String
  | (key, otherName) =>
    let target := map.firstOf (key :: otherName.toList)
    if target.isEmpty || target == key then text else Text.replaceWord key target text

/-- The code of an allowed text. -/
def textToKotlin (map : NameMap) (text : String) : String :=
  let text := Text.replaceText "===" "==" (Text.replaceText "!==" "!=" text)
  let text := String.ofList (Text.replaceAll magnitudeCall text.toList)
  contextKeys.foldl (substitute map) text

end EmitterLogic.Predicate
