import EmitterLogic.Script.Value
import EmitterLogic.Datum.Basic
import EmitterLogic.Term.Name

/-!
The words of tick scripts: the names a script may spell, the helpers that every script can call, and
the variables that its behavior declares.
-/

namespace EmitterLogic

namespace Text

def isNameStart (c : Char) : Bool := isIdentStart c || c == '$'

def isNamePart (c : Char) : Bool := isIdentPart c || c == '$'

def isNameChars : List Char → Bool
  | [] => false
  | c :: rest => isNameStart c && rest.all isNamePart

/-- The name at the front of a text, and what is left after it. -/
def name? : List Char → Option (List Char × List Char)
  | [] => none
  | c :: rest =>
    if isNameStart c then some (c :: rest.takeWhile isNamePart, rest.dropWhile isNamePart)
    else none

end Text

namespace Script

namespace Helper

def bareFunctions : List MathFn :=
  [.min, .max, .abs, .floor, .ceil, .round, .trunc, .pow, .sqrt, .sin, .cos, .tan, .log, .exp,
    .sign]

def all : List Helper :=
  [setVar, getVar, hasVar, addVar, subVar, mulVar, divVar, incVar, decVar, clampVar, rand, randInt,
    clamp] ++ bareFunctions.map plain

def name : Helper → String
  | setVar => "setVar"
  | getVar => "getVar"
  | hasVar => "hasVar"
  | addVar => "addVar"
  | subVar => "subVar"
  | mulVar => "mulVar"
  | divVar => "divVar"
  | incVar => "incVar"
  | decVar => "decVar"
  | clampVar => "clampVar"
  | rand => "rand"
  | randInt => "randInt"
  | clamp => "clamp"
  | plain f => f.name

end Helper

end Script

namespace Tick

def isName (s : String) : Bool := Text.isNameChars s.toList

def helperNames : List String := Script.Helper.all.map Script.Helper.name

def globalNames : List String := ["Math", "PI", "tick"] ++ helperNames

/-- Words that are no names of values. -/
def keywords : List String :=
  ["if", "else", "for", "while", "do", "switch", "case", "default", "break", "continue", "return",
    "let", "const", "var", "function", "class", "new", "this", "typeof", "instanceof", "try",
    "catch", "finally", "throw", "extends", "super", "import", "from", "export", "as", "true",
    "false", "null", "undefined", "in", "of", "await", "async"]

def headWords : List String :=
  ["if", "for", "while", "switch", "catch", "function", "typeof", "return", "new", "class"]

def namesAmong (texts : List String) : List String :=
  ((texts.map trimmed).filter isName).eraseDups

/-- The names of variables that a list of names or the document of a behavior declares. -/
def declaredVariables : Datum → List String
  | .list items => namesAmong (items.map Datum.textOrEmpty)
  | d =>
    match d.getD "emitterVars" with
    | .list items => namesAmong (items.map fun item => (item.getD "name").textOrEmpty)
    | _ => []

end Tick

end EmitterLogic
