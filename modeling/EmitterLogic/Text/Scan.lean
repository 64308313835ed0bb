import EmitterLogic.Text.Letter

/-!
Matching inside a text. A matcher looks at a place of a text, with the character before it, and
answers how many characters it takes and what it reads from them. `replaceAll` and `findAll` apply a
matcher from left to right to matches that do not overlap.
-/

namespace EmitterLogic.Text

/-- From the character before a place and the text after it to the number of characters taken and
the value read. Matchers take at least one character. -/
abbrev Matcher (α : Type) := Option Char → List Char → Option (Nat × α)

/-- The text with each match replaced; `skip` characters belong to a match already replaced. -/
def replaceFrom (m : Matcher (List Char)) : Option Char → Nat → List Char → List Char
  | _, _, [] => []
  | _, skip + 1, c :: rest => replaceFrom m (some c) skip rest
  | before, 0, c :: rest =>
    match m before (c :: rest) with
    | some (n, out) => out ++ replaceFrom m (some c) (n - 1) rest
    | none => c :: replaceFrom m (some c) 0 rest

def replaceAll (m : Matcher (List Char)) (s : List Char) : List Char := replaceFrom m none 0 s

/-- The values of all matches with the places where they begin. -/
def findFrom {α : Type} (m : Matcher α) : Option Char → Nat → Nat → List Char → List (Nat × Nat × α)
  | _, _, _, [] => []
  | _, pos, skip + 1, c :: rest => findFrom m (some c) (pos + 1) skip rest
  | before, pos, 0, c :: rest =>
    match m before (c :: rest) with
    | some (n, a) => (pos, n, a) :: findFrom m (some c) (pos + 1) (n - 1) rest
    | none => findFrom m (some c) (pos + 1) 0 rest

def findAll {α : Type} (m : Matcher α) (s : List Char) : List (Nat × Nat × α) :=
  findFrom m none 0 0 s

def found {α : Type} (m : Matcher α) (s : List Char) : Bool := !(findAll m s).isEmpty

/-- What is left of a text after a fixed word. -/
def dropWord? : List Char → List Char → Option (List Char)
  | [], s => some s
  | _ :: _, [] => none
  | w :: ws, c :: s => if w == c then dropWord? ws s else none

theorem dropWord?_append (w s : List Char) : dropWord? w (w ++ s) = some s := by
  induction w with
  | nil => rfl
  | cons c w ih => simp [dropWord?, ih]

/-- A text cut at each occurrence of a character. -/
def cut (mark : Char) : List Char → List (List Char)
  | [] => [[]]
  | c :: rest =>
    if c == mark then [] :: cut mark rest
    else match cut mark rest with
      | [] => [[c]]
      | piece :: pieces => (c :: piece) :: pieces

theorem cut_of_not_mem {mark : Char} {s : List Char} (h : mark ∉ s) : cut mark s = [s] := by
  induction s with
  | nil => rfl
  | cons c rest ih =>
    simp only [List.mem_cons, not_or] at h
    have hc : (c == mark) = false := beq_false_of_ne fun e => h.1 e.symm
    simp [cut, hc, ih h.2]

def dropSign? (sign : Char) : List Char → Option (List Char)
  | [] => none
  | c :: rest => if c == sign then some rest else none

/-- Does a line end here: at the end of the text or before a last line break. -/
def atEnd : List Char → Bool
  | [] => true
  | ['\n'] => true
  | _ => false

/-- A word between two word boundaries. -/
def boundedWord (word : List Char) : Matcher Unit := fun before s =>
  if before.any isWordChar then none
  else match dropWord? word s with
    | some rest => if rest.head?.any isWordChar then none else some (word.length, ())
    | none => none

def replaceText (part target : String) (s : String) : String :=
  String.ofList <| replaceAll (fun _ s => (dropWord? part.toList s).map fun _ =>
    (part.length, target.toList)) s.toList

def replaceWord (word target : String) (s : String) : String :=
  String.ofList <| replaceAll (fun before s =>
    (boundedWord word.toList before s).map fun (n, _) => (n, target.toList)) s.toList

end EmitterLogic.Text
