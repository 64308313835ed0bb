import EmitterLogic.Tick.Vocabulary
import EmitterLogic.Script.Token

/-!
What the text of a tick script shows without being parsed: the names it binds, the names it uses and
the names it calls. Comments and quoted texts are blanked first, so that places stay what they are.
-/

namespace EmitterLogic.Tick

open Text

/-- The length of a quoted text after its opening quote. A reversed slash takes the next character
with it, which must not be a line break. -/
def quotedLength (quote : Char) : List Char → Option Nat
  | [] => none
  | '\\' :: c :: rest => if c == '\n' then none else (quotedLength quote rest).map (· + 2)
  | c :: rest =>
    if c == quote then some 1
    else if c == '\\' then none
    else (quotedLength quote rest).map (· + 1)

/-- The length of the comment or quoted text at the front of a text. -/
def hiddenLength : List Char → Option Nat
  | '/' :: '*' :: rest => (Script.closedComment rest).map (· + 2)
  | '/' :: '/' :: rest => some ((rest.takeWhile (· != '\n')).length + 2)
  | c :: rest => if Script.isQuote c then (quotedLength c rest).map (· + 1) else none
  | [] => none

def blanked (s : List Char) : List Char :=
  replaceAll (fun _ s => (hiddenLength s).map fun n => (n, List.replicate n ' ')) s

def gap? (s : List Char) : Option (List Char) :=
  if s.head?.any isBlank then some (trimStart s) else none

/-- One of some words, not at the end of a longer one, and then what is read after it. -/
def afterWord {α : Type} (words : List String) (read : List Char → Option (α × List Char)) :
    Matcher α := fun before s =>
  if before.any isWordChar then none
  else words.findSome? fun w => do
    let (a, rest) ← read (← dropWord? w.toList s)
    return (s.length - rest.length, a)

def declaration : Matcher (List Char) :=
  afterWord ["let", "const", "var", "function", "class"] fun s => do name? (← gap? s)

def enclosedName? (s : List Char) : Option (List Char × List Char) := do
  let (name, s) ← name? (trimStart (← dropSign? '(' s))
  return (name, ← dropSign? ')' (trimStart s))

def enclosed? (s : List Char) : Option (List Char × List Char) := do
  let s ← dropSign? '(' s
  return (s.takeWhile (· != ')'), ← dropSign? ')' (s.dropWhile (· != ')')))

def functionHead : Matcher (List Char) :=
  afterWord ["function"] fun s =>
    enclosed? (trimStart (((gap? s).bind name?).elim s (·.2)))

def catchHead : Matcher (List Char) := afterWord ["catch"] fun s => enclosedName? (trimStart s)

/-- An arrow after what has been read. -/
def beforeArrow? {α : Type} (read : List Char → Option (α × List Char)) (s : List Char) :
    Option (Nat × α) := do
  let (a, rest) ← read s
  let rest ← dropWord? ['=', '>'] (trimStart rest)
  return (s.length - rest.length, a)

def arrowName : Matcher (List Char) := fun before s =>
  if isBoundary before s.head? then beforeArrow? name? s else none

def arrowHead : Matcher (List Char) := fun _ s => beforeArrow? enclosed? s

def parameterNames (s : List Char) : List (List Char) :=
  ((cut ',' s).map fun p => trim (p.takeWhile (· != '='))).filter isNameChars

def readings {α : Type} (m : Matcher α) (s : List Char) : List α := (findAll m s).map (·.2.2)

/-- The names that a script binds. -/
def boundNames (s : List Char) : List String :=
  let s := blanked s
  let names := readings declaration s ++ (readings functionHead s).flatMap parameterNames ++
    readings catchHead s ++ readings arrowName s ++ (readings arrowHead s).flatMap parameterNames
  (names.map String.ofList).eraseDups

/-- The length of the longest beginning of a name that ends at a word boundary. -/
def boundedLength : List Char → Option Nat
  | [] => none
  | c :: rest =>
    if isNamePart c then
      match boundedLength rest with
      | some n => some (n + 1)
      | none => if isBoundary (some c) rest.head? then some 1 else none
    else none

/-- A name in a script, the character before it and the next one that is not blank. -/
structure Use where
  name : String
  before : Option Char
  next : Option Char
deriving DecidableEq, Repr

def useAt : Matcher Use := fun before s =>
  if s.head?.any isNameStart && isBoundary before s.head? then
    (boundedLength s).map fun n =>
      (n, ⟨String.ofList (s.take n), before, (trimStart (s.drop n)).head?⟩)
  else none

def Use.isValue (u : Use) : Bool :=
  u.before != some '.' && u.next != some ':' && u.next != some '('

/-- The first name that is used as a value and is not known. -/
def unknownName? (allowed : List String) (s : List Char) : Option String :=
  let s := blanked s
  let bound := boundNames s
  let known (name : String) : Bool :=
    keywords.contains name || globalNames.contains name || allowed.contains name ||
      bound.contains name
  ((readings useAt s).find? fun u => !known u.name && u.isValue).map (·.name)

/-- A name, or a member of one, before a parenthesis. -/
def calleeAt : Matcher (List Char) := fun _ s => do
  let (name, rest) ← name? s
  let (callee, rest) := match (dropSign? '.' rest).bind name? with
    | some (member, rest) => (name ++ '.' :: member, rest)
    | none => (name, rest)
  let rest ← dropSign? '(' (trimStart rest)
  return (s.length - rest.length, callee)

def lookBehind : Nat := 32

/-- Does a text end with a word, which begins at a word boundary? -/
def endsWithWord (word : String) (s : List Char) : Bool :=
  match dropWord? word.toList.reverse s.reverse with
  | some rest => !rest.head?.any isWordChar
  | none => false

def isHeaded (s : List Char) (place : Nat) : Bool :=
  let before := trimEnd ((s.take place).drop (place - lookBehind))
  endsWithWord "function" before || endsWithWord "new" before

/-- The names that a script calls, in the order of the calls. -/
def callees (s : List Char) : List String :=
  let s := blanked s
  ((findAll calleeAt s).filter fun (place, _) => !isHeaded s place).map fun (_, _, callee) =>
    String.ofList callee

def isMathMember (callee : String) : Bool :=
  (dropWord? "Math.".toList callee.toList).any isNameChars

def isCallable (known : List String) (callee : String) : Bool :=
  if callee.toList.contains '.' then isMathMember callee
  else headWords.contains callee || known.contains callee

def forbiddenCall? (known : List String) (s : List Char) : Option String :=
  (callees s).find? fun callee => !isCallable known callee

end EmitterLogic.Tick
