import EmitterLogic.Number.Basic
import EmitterLogic.Number.Shortest
import EmitterLogic.Text.Letter
import EmitterLogic.Text.Quoted

/-!
Values of documents and contexts. An object keeps the order of its keys; each key occurs once.
-/

namespace EmitterLogic

inductive Datum where
  | null
  | undefined
  | bool (b : Bool)
  | number (n : Number)
  | text (s : String)
  | list (items : List Datum)
  | object (entries : List (String × Datum))
deriving Inhabited

/-- Values by name, in order. -/
abbrev Fields (α : Type) := List (String × α)

namespace Fields

variable {α : Type}

def get? (fs : Fields α) (key : String) : Option α := fs.lookup key

def has (fs : Fields α) (key : String) : Bool := fs.any (·.1 == key)

def put : Fields α → String → α → Fields α
  | [], key, a => [(key, a)]
  | (k, b) :: rest, key, a => if k == key then (k, a) :: rest else (k, b) :: put rest key a

def without (fs : Fields α) (key : String) : Fields α := fs.filter (·.1 != key)

def keys (fs : Fields α) : List String := fs.map (·.1)

def merge (fs gs : Fields α) : Fields α := gs.foldl (fun acc g => acc.put g.1 g.2) fs

theorem get?_put (fs : Fields α) (key other : String) (a : α) :
    (fs.put key a).get? other = if other == key then some a else fs.get? other := by
  induction fs with
  | nil => simp [put, get?, List.lookup_cons]; split <;> simp_all
  | cons f fs ih =>
    obtain ⟨k, b⟩ := f
    simp only [put]
    by_cases hk : k = key
    · subst hk
      by_cases ho : other = k <;> simp [get?, List.lookup_cons, ho, beq_eq_false_iff_ne.mpr]
    · by_cases ho : other = k
      · subst ho
        simp [get?, hk]
      · simpa [get?, List.lookup_cons, hk, ho, beq_eq_false_iff_ne.mpr] using ih

end Fields

namespace Datum

def int (n : Int) : Datum := .number (.int n)

def float (x : Float) : Datum := .number (.float x)

def get? : Datum → String → Option Datum
  | .object entries, key => Fields.get? entries key
  | _, _ => none

def getD (d : Datum) (key : String) : Datum := (d.get? key).getD .null

/-- Does the value count as present? Nothing, false, zero and what is empty do not. -/
def isTruthy : Datum → Bool
  | .null => false
  | .undefined => false
  | .bool b => b
  | .number n => !n.isZero
  | .text s => s != ""
  | .list items => !items.isEmpty
  | .object entries => !entries.isEmpty

def isNull : Datum → Bool
  | .null => true
  | _ => false

def orElse (a b : Datum) : Datum := if a.isTruthy then a else b

def fields : Datum → Fields Datum
  | .object entries => entries
  | _ => []

def isObject : Datum → Bool
  | .object _ => true
  | _ => false

/-- The number that a number or boolean is. -/
def numeric? : Datum → Option Number
  | .bool b => some (.int (if b then 1 else 0))
  | .number n => some n
  | _ => none

mutual

/-- Equality of values: numbers by their exact values, booleans as the numbers one and zero, objects
without regard to the order of their keys. -/
def same : Datum → Datum → Bool
  | .null, .null => true
  | .undefined, .undefined => true
  | .text s, .text t => s == t
  | .list xs, .list ys => sameItems xs ys
  | .object es, .object fs => es.length == fs.length && sameEntries es fs
  | a, b =>
    match a.numeric?, b.numeric? with
    | some m, some n => m.eq n
    | _, _ => false

def sameItems : List Datum → List Datum → Bool
  | [], [] => true
  | x :: xs, y :: ys => same x y && sameItems xs ys
  | _, _ => false

def sameEntries : List (String × Datum) → Fields Datum → Bool
  | [], _ => true
  | (key, d) :: rest, fs =>
    (match fs.get? key with
      | some e => same d e
      | none => false) && sameEntries rest fs

end

end Datum

def Number.display : Number → String
  | .int n => toString n
  | .float x => numeral x

namespace Datum

mutual

def display : Datum → String
  | .null => "None"
  | .undefined => "undefined"
  | .bool b => if b then "True" else "False"
  | .number n => n.display
  | .text s => quoted s
  | .list items => "[" ++ displayItems items ++ "]"
  | .object entries => "\x7b" ++ displayEntries entries ++ "\x7d"

def displayItems : List Datum → String
  | [] => ""
  | [d] => d.display
  | d :: rest => d.display ++ ", " ++ displayItems rest

def displayEntries : List (String × Datum) → String
  | [] => ""
  | [(k, d)] => quoted k ++ ": " ++ d.display
  | (k, d) :: rest => quoted k ++ ": " ++ d.display ++ ", " ++ displayEntries rest

end

def toText : Datum → String
  | .text s => s
  | d => d.display

def textOrEmpty (d : Datum) : String := if d.isTruthy then d.toText else ""

def textUnlessNull (d : Datum) : String := if d.isNull then "" else d.toText

def trimmedText (d : Datum) : String := trimmed d.textOrEmpty

theorem toText_text (s : String) : toText (.text s) = s := rfl

end Datum

end EmitterLogic
