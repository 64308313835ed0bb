import EmitterLogic.Datum.Basic

/-!
Memo tables for compiled texts. A table keeps its entries from the oldest to the newest request and,
under a limit, drops the oldest ones. A text that does not compile is kept like any other.
-/

namespace EmitterLogic

structure Cache (α : Type) where
  name : String
  /-- The greatest number of entries, at least one; none for a table without bound. -/
  limit : Option Nat
  entries : Fields α := []
  hits : Nat := 0
  misses : Nat := 0
  evictions : Nat := 0

namespace Cache

variable {α : Type}

def empty (name : String) (limit : Option Int) : Cache α :=
  { name, limit := limit.bind fun n => if n ≤ 0 then none else some n.toNat }

def size (c : Cache α) : Nat := c.entries.length

def contains (c : Cache α) (key : String) : Bool := c.entries.has key

def keys (c : Cache α) : List String := c.entries.keys

/-- The entries after a request of a key that is present: under a limit it becomes the newest. -/
def touched (c : Cache α) (key : String) (a : α) : Fields α :=
  match c.limit with
  | none => c.entries
  | some _ => c.entries.without key ++ [(key, a)]

def hit? (c : Cache α) (key : String) : Option (α × Cache α) :=
  (c.entries.get? key).map fun a =>
    (a, { c with entries := c.touched key a, hits := c.hits + 1 })

/-- How many entries are too many. -/
def excess (c : Cache α) : Nat :=
  match c.limit with
  | none => 0
  | some n => c.size - n

def evict (c : Cache α) : Cache α :=
  { c with entries := List.drop c.excess c.entries, evictions := c.evictions + c.excess }

def insert (c : Cache α) (key : String) (a : α) : Cache α :=
  evict { c with entries := c.entries ++ [(key, a)], misses := c.misses + 1 }

/-- The value of a key, made if it is absent, and the table afterwards. -/
def getOrCompile (c : Cache α) (key : String) (compile : String → α) : α × Cache α :=
  match c.hit? key with
  | some r => r
  | none => let a := compile key; (a, c.insert key a)

def clear (c : Cache α) : Cache α :=
  { c with entries := [], hits := 0, misses := 0, evictions := 0 }

end Cache

end EmitterLogic
