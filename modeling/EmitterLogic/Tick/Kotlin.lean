import EmitterLogic.Script.Token
import EmitterLogic.Tick.Scan
import EmitterLogic.Text.Scan
import EmitterLogic.Tick.Check

/-!
The units of a script's text. A line break or a semicolon ends a unit, an opening brace ends the
unit that it stands in, and a closing brace is a unit of its own; within quotes none of them counts.
-/

namespace EmitterLogic.Tick

open Text

/-- How a place of a text stands to its quotes. -/
inductive Quoting where
  | plain
  | within (quote : Char)
  | escaped (quote : Char)
deriving DecidableEq, Repr

/-- The quoting behind a character. -/
def Quoting.after : Quoting → Char → Quoting
  | plain, c => if Script.isQuote c then within c else plain
  | within quote, c =>
    if c == '\\' then escaped quote else if c == quote then plain else within quote
  | escaped quote, _ => within quote

def openBrace : Char := '\x7b'

def closeBrace : Char := '\x7d'

def unitOf (read : List Char) : List (List Char) :=
  let text := trim read.reverse
  if text.isEmpty then [] else [text]

def unitsFrom : Quoting → List Char → List Char → List (List Char)
  | _, read, [] => unitOf read
  | .plain, read, c :: rest =>
    if c == openBrace then unitOf (c :: read) ++ unitsFrom .plain [] rest
    else if c == closeBrace then unitOf read ++ [closeBrace] :: unitsFrom .plain [] rest
    else if c == ';' || c == '\n' then unitOf read ++ unitsFrom .plain [] rest
    else unitsFrom (Quoting.plain.after c) (c :: read) rest
  | q, read, c :: rest => unitsFrom (q.after c) (c :: read) rest

def units (s : List Char) : List (List Char) := unitsFrom .plain [] s

open Text

/-- The rest of a text as a single line: the line between blanks, and the break that ends it. -/
def lastLine? (s : List Char) : Option (List Char × List Char) :=
  let ends := s.getLast? == some '\n'
  let body := if ends then s.dropLast else s
  let after := if ends then ['\n'] else []
  let line := trimStart body
  if line.isEmpty then
    if body.getLast?.any (· != '\n') then some ([], after) else none
  else if line.contains '\n' then none
  else some (trimEnd line, after)

/-- Two values of a choice, and what follows the second. -/
structure Choice where
  yes : List Char
  no : List Char
  after : List Char

/-- The choice behind a question mark. -/
def choice? (s : List Char) : Option Choice :=
  let yes := s.takeWhile (· != ':')
  if yes.isEmpty then none
  else do
    let (no, after) ← lastLine? (← dropSign? ':' (s.dropWhile (· != ':')))
    return { yes := trim yes, no, after }

/-- A text with single blanks around the signs of its choice. -/
def spacedChoice : List Char → List Char
  | [] => []
  | c :: rest =>
    match if c == '?' then choice? rest else none with
    | some ch => "? ".toList ++ ch.yes ++ " : ".toList ++ ch.no ++ ch.after
    | none => c :: spacedChoice rest

def isConditionChar (c : Char) : Bool := isIdentPart c || c == '.' || c == ')' || c == ']'

/-- The choice between two values at the front of a text as a conditional. -/
def conditionalHere? (s : List Char) : Option (List Char) :=
  let condition := s.takeWhile isConditionChar
  if condition.isEmpty then none
  else do
    let ch ← choice? (← dropSign? '?' (trimStart (s.dropWhile isConditionChar)))
    return "if (".toList ++ condition ++ ") ".toList ++ ch.yes ++ " else ".toList ++ ch.no

/-- The first choice of a line as a conditional. -/
def conditional? : List Char → Option (List Char)
  | [] => none
  | c :: rest =>
    match conditionalHere? (c :: rest) with
    | some out => some out
    | none => if c == '\n' then none else (conditional? rest).map (c :: ·)

def choiceToConditional (s : List Char) : List Char :=
  let s := spacedChoice s
  (conditional? s).getD s

/-- Another keyword for a declaration. -/
def renameKeyword (word target : String) (s : List Char) : List Char :=
  replaceAll (afterWord [word] fun s => do
    let (name, rest) ← name? (← gap? s)
    return (target.toList ++ ' ' :: name, rest)) s

/-- A name and a parenthesis after a keyword, with single blanks. -/
def namedHead (target : String) (s : List Char) : Option (List Char × List Char) := do
  let (name, rest) ← name? (← gap? s)
  let rest ← dropSign? '(' (trimStart rest)
  return (target.toList ++ ' ' :: name ++ ['('], rest)

/-- Functions with the keyword of generated code. -/
def renameFunctions (s : List Char) : List Char :=
  let s := replaceAll (afterWord ["function"] (namedHead "fun")) s
  replaceAll (afterWord ["function"] fun s => do
    return ("fun(".toList, ← dropSign? '(' (trimStart s))) s

def withoutEnd (s : List Char) : List Char :=
  ((trimEnd s).reverse.dropWhile (· == ';')).reverse

def kotlinLine (s : List Char) : List Char :=
  choiceToConditional
    (renameFunctions (renameKeyword "let" "var" (renameKeyword "const" "val" (withoutEnd s))))

/-- A sign, blanks and then something more, in the place of which other text is put. -/
def spacedPair (sign : Char) (next : List Char → Option (List Char)) (target : String) :
    Matcher (List Char) := fun _ s => do
  let rest ← next (trimStart (← dropSign? sign s))
  return (s.length - rest.length, target.toList)

def wholeWord? (word : String) (s : List Char) : Option (List Char) := do
  let rest ← dropWord? word.toList s
  if rest.head?.any isWordChar then none else some rest

def spacedWord : Matcher (List Char) :=
  fun before s => ["if", "for", "while", "when", "catch"].findSome? fun w =>
    afterWord [w] (fun s => do return (w.toList ++ " (".toList, ← dropSign? '(' s)) before s

/-- A unit of code with its blanks in order. -/
def tidy (s : List Char) : List Char :=
  let s := (replaceText "!==" "!=" (replaceText "===" "==" (String.ofList (trim s)))).toList
  let s := replaceAll spacedWord s
  let s := replaceAll (spacedPair ')' (dropSign? '\x7b') ") \x7b") s
  let s := replaceAll (spacedPair '\x7d' (wholeWord? "else") "\x7d else") s
  let s := replaceAll (spacedPair ',' some ", ") s
  trimEnd (replaceAll (afterWord ["fun"] (namedHead "fun")) s)

open Text

/-- Lines of code, the last one first, and how many braces are open after them. -/
structure Listing where
  lines : List (List Char) := []
  depth : Nat := 0

namespace Listing

def isElse (unit : List Char) : Bool :=
  unit == "else".toList || "else ".toList.isPrefixOf unit

/-- The last line with a unit added to it, if it is a closing brace that the unit goes on from. -/
def joined? (lines : List (List Char)) (unit : List Char) : Option (List (List Char)) :=
  match lines with
  | line :: rest =>
    if isElse unit && trim line == [closeBrace] then some ((line ++ ' ' :: unit) :: rest) else none
  | [] => none

/-- The listing with a unit more. -/
def add (indent : List Char) (l : Listing) (unit : List Char) : Listing :=
  if unit.isEmpty then l
  else
    let depth := if unit.head? == some closeBrace then l.depth - 1 else l.depth
    let lines := (joined? l.lines unit).getD
      ((indent ++ List.replicate (4 * depth) ' ' ++ unit) :: l.lines)
    { lines, depth := if unit.getLast? == some openBrace then depth + 1 else depth }

end Listing

def listing (indent source : List Char) : List (List Char) :=
  let text := List.intercalate ['\n'] ((cut '\n' source).map kotlinLine)
  (((units text).map tidy).foldl (Listing.add indent) {}).lines.reverse

/-- The code of a text as a script; what does nothing is a comment. -/
def toKotlin (indent text : String) : String :=
  match listing indent.toList (cleanSource text).toList with
  | [] => indent ++ "// no-op"
  | lines => String.intercalate "\n" (lines.map String.ofList)

end EmitterLogic.Tick
