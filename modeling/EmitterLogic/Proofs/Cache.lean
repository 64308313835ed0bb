import Mathlib.Data.List.Dedup
import Mathlib.Data.List.DropRight
import EmitterLogic.Cache
import EmitterLogic.Proofs.Datum.Fields

/-!
What a memo table holds, and which keys it keeps. The order of the entries and the limit decide only which
texts are compiled again: a table that is asked and filled by one function holds nothing but values of that
function. Under a limit the table keeps the keys that were last requested, from the oldest to the newest;
without one it keeps every key, in the order of the first requests. A value is made exactly for a request
whose key is not kept at that moment.
-/

namespace EmitterLogic.Cache

variable {α : Type}

def Holds (c : Cache α) (value : String → α) : Prop := ∀ e ∈ c.entries, e.2 = value e.1

theorem touched_subset (c : Cache α) {key : String} {a : α} (h : c.entries.get? key = some a) :
    ∀ e ∈ c.touched key a, e ∈ c.entries := by
  intro e he
  rw [touched] at he
  split at he
  · exact he
  · rcases List.mem_append.mp he with he | he
    · exact (List.mem_filter.mp he).1
    · rw [List.mem_singleton.mp he]
      exact Fields.mem_of_get? h

theorem insert_subset (c : Cache α) (key : String) (a : α) :
    ∀ e ∈ (c.insert key a).entries, e ∈ c.entries ∨ e = (key, a) := by
  intro e he
  have inside : e ∈ c.entries ++ [(key, a)] := List.mem_of_mem_drop he
  rcases List.mem_append.mp inside with he | he
  · exact .inl he
  · exact .inr (List.mem_singleton.mp he)

namespace Holds

variable {c : Cache α} {value : String → α} {key : String}

theorem empty (name : String) (limit : Option Int) :
    (Cache.empty name limit : Cache α).Holds value := nofun

theorem insert (h : c.Holds value) (key : String) : (c.insert key (value key)).Holds value := by
  intro e he
  rcases insert_subset c key _ e he with he | rfl
  · exact h e he
  · rfl

theorem hit (h : c.Holds value) {a : α} {after : Cache α} (asked : c.hit? key = some (a, after)) :
    a = value key ∧ after.Holds value := by
  obtain ⟨b, known, made⟩ := Option.map_eq_some_iff.mp asked
  cases made
  refine ⟨h _ (Fields.mem_of_get? known), fun e he => ?_⟩
  exact h e (touched_subset c known e he)

theorem getOrCompile (h : c.Holds value) (key : String) :
    (c.getOrCompile key value).1 = value key ∧ (c.getOrCompile key value).2.Holds value := by
  rw [Cache.getOrCompile]
  cases asked : c.hit? key with
  | some r => exact h.hit asked
  | none => exact ⟨rfl, h.insert key⟩

end Holds

section Requests

variable {m : Type → Type} [Monad m]

/-- A request whose value is made by a computation that may have effects. -/
def request (c : Cache α) (key : String) (compile : String → m α) : m (α × Cache α) :=
  match c.hit? key with
  | some r => pure r
  | none => do
    let a ← compile key
    pure (a, c.insert key a)

theorem request_id (c : Cache α) (key : String) (compile : String → α) :
    Id.run (c.request key fun k => pure (compile k)) = c.getOrCompile key compile := by
  rw [request, getOrCompile]
  cases c.hit? key with
  | some r => rfl
  | none => rfl

end Requests

/-- Makes a value and notes its key. -/
def noted (compile : String → α) (key : String) : StateM (List String) α := do
  modify (· ++ [key])
  pure (compile key)

/-- Requests one after the other: what each of them gives with the keys whose values were made for it, and the
table afterwards. -/
def serve (compile : String → α) (c : Cache α) : List String → List (α × List String) × Cache α
  | [] => ([], c)
  | key :: keys =>
    let first := (c.request key (noted compile)).run []
    let rest := serve compile first.1.2 keys
    ((first.1.1, first.2) :: rest.1, rest.2)

theorem serve_append (compile : String → α) (c : Cache α) (xs ys : List String) :
    serve compile c (xs ++ ys) =
      ((serve compile c xs).1 ++ (serve compile (serve compile c xs).2 ys).1,
        (serve compile (serve compile c xs).2 ys).2) := by
  induction xs generalizing c with
  | nil => rfl
  | cons key xs ih => simp only [List.cons_append, serve, ih]

def kept : Option Nat → List String → List String
  | none, asked => asked.eraseDups
  | some n, asked => asked.dedup.rtake n

section Lists

variable {keys : List String} {key : String} {n : Nat}

theorem dedup_concat (asked : List String) (key : String) :
    (asked ++ [key]).dedup = asked.dedup.filter (· != key) ++ [key] := by
  induction asked with
  | nil => rfl
  | cons k l ih =>
    rw [List.cons_append]
    by_cases same : k = key
    · subst same
      rw [List.dedup_cons_of_mem (by simp), ih]
      by_cases again : k ∈ l
      · rw [List.dedup_cons_of_mem again]
      · rw [List.dedup_cons_of_notMem again, List.filter_cons_of_neg (by simp)]
    · by_cases again : k ∈ l
      · rw [List.dedup_cons_of_mem (by simp [again]), List.dedup_cons_of_mem again, ih]
      · rw [List.dedup_cons_of_notMem (by simp [again, same]), List.dedup_cons_of_notMem again, ih,
          List.filter_cons_of_pos (by simp [same]), List.cons_append]

theorem rtake_rtake (keys : List String) (n : Nat) : (keys.rtake (n + 1)).rtake n = keys.rtake n := by
  simp only [List.rtake_eq_reverse_take_reverse, List.reverse_reverse, List.take_take,
    Nat.min_eq_left (Nat.le_succ n)]

theorem rtake_filter (distinct : keys.Nodup) (key : String) (n : Nat) :
    (keys.filter (· != key)).rtake n =
      if key ∈ keys.rtake (n + 1) then (keys.rtake (n + 1)).filter (· != key) else keys.rtake n := by
  -- From the right, as the last keys are counted from there.
  induction keys using List.reverseRecOn generalizing n with
  | nil => simp
  | append_singleton keys last ih =>
    obtain ⟨distinct, fresh⟩ : keys.Nodup ∧ last ∉ keys := by
      rw [List.nodup_append] at distinct
      exact ⟨distinct.1, fun there => distinct.2.2 last there last List.mem_cons_self rfl⟩
    rw [List.rtake_concat_succ, List.filter_append, List.filter_append]
    by_cases same : last = key
    · subst same
      have apart : keys.filter (· != last) = keys := List.filter_eq_self.mpr fun k there => by
        rw [bne_iff_ne]
        rintro rfl
        exact fresh there
      have apart' : (keys.rtake n).filter (· != last) = keys.rtake n :=
        List.filter_eq_self.mpr fun k there => by
          rw [bne_iff_ne]
          rintro rfl
          exact fresh (List.mem_of_mem_drop there)
      rw [if_pos (by simp), apart, apart', List.filter_cons_of_neg (by simp), List.filter_nil,
        List.append_nil, List.append_nil]
    · rw [List.filter_cons_of_pos (by simp [same]), List.filter_nil]
      cases n with
      | zero => simp [Ne.symm same]
      | succ n =>
        rw [List.rtake_concat_succ, ih distinct, List.rtake_concat_succ]
        by_cases there : key ∈ keys.rtake (n + 1)
        · rw [if_pos there, if_pos (by simp [there])]
        · rw [if_neg there, if_neg (by simp [there, Ne.symm same])]

theorem kept_hit {asked : List String} (h : key ∈ kept (some (n + 1)) asked) :
    kept (some (n + 1)) (asked ++ [key]) =
      (kept (some (n + 1)) asked).filter (· != key) ++ [key] := by
  rw [kept] at h
  rw [kept, kept, dedup_concat, List.rtake_concat_succ, rtake_filter (List.nodup_dedup asked), if_pos h]

theorem length_kept_hit {asked : List String} (h : key ∈ kept (some n) asked) :
    ((kept (some n) asked).filter (· != key)).length + 1 = (kept (some n) asked).length := by
  have distinct : (kept (some n) asked).Nodup :=
    (List.nodup_dedup asked).sublist (List.drop_sublist _ _)
  rw [← distinct.erase_eq_filter, List.length_erase_of_mem h]
  exact Nat.sub_add_cancel (List.length_pos_of_mem h)

theorem kept_miss {asked : List String} (h : key ∉ kept (some (n + 1)) asked) :
    kept (some (n + 1)) (asked ++ [key]) = (kept (some (n + 1)) asked ++ [key]).rtake (n + 1) := by
  rw [kept] at h
  rw [kept, kept, dedup_concat, List.rtake_concat_succ, rtake_filter (List.nodup_dedup asked), if_neg h,
    List.rtake_concat_succ, rtake_rtake]

theorem get?_map (keys : List String) (value : String → α) (key : String) :
    Fields.get? (keys.map fun k => (k, value k)) key = if key ∈ keys then some (value key) else none := by
  induction keys with
  | nil => rfl
  | cons k keys ih =>
    rw [List.map_cons, Fields.get?_cons, ih]
    by_cases same : key = k
    · subst same
      simp
    · simp [same]

theorem without_map (keys : List String) (value : String → α) (key : String) :
    Fields.without (keys.map fun k => (k, value k)) key =
      (keys.filter (· != key)).map fun k => (k, value k) := by
  rw [Fields.without, List.filter_map]
  rfl

end Lists

/-- A table after some requests: it has the values of the keys that are kept, and its numbers agree with what
was asked. -/
structure Keeps (c : Cache α) (compile : String → α) (asked : List String) : Prop where
  positive : ∀ n ∈ c.limit, 0 < n
  entries : c.entries = (kept c.limit asked).map fun key => (key, compile key)
  requests : c.hits + c.misses = asked.length
  stored : c.misses = c.size + c.evictions

namespace Keeps

variable {c : Cache α} {compile : String → α} {asked : List String} {key : String}

theorem empty (name : String) (limit : Option Int) (compile : String → α) :
    (Cache.empty name limit : Cache α).Keeps compile [] where
  positive := by
    intro n hn
    obtain ⟨z, -, hz⟩ := Option.bind_eq_some_iff.mp hn
    split at hz
    · cases hz
    · cases hz
      omega
  entries := by
    cases (Cache.empty name limit : Cache α).limit with
    | none => rfl
    | some n => rw [kept, List.dedup_nil, List.rtake_nil]; rfl
  requests := rfl
  stored := rfl

theorem hit?_eq (h : c.Keeps compile asked) (key : String) :
    c.hit? key = if key ∈ kept c.limit asked then
      some (compile key, { c with entries := c.touched key (compile key), hits := c.hits + 1 })
    else none := by
  rw [hit?, h.entries, get?_map]
  split
  · rfl
  · rfl

theorem size_eq (h : c.Keeps compile asked) : c.size = (kept c.limit asked).length := by
  rw [size, h.entries, List.length_map]

theorem touched_eq (h : c.Keeps compile asked) (there : key ∈ kept c.limit asked) :
    c.touched key (compile key) =
      (kept c.limit (asked ++ [key])).map fun key => (key, compile key) := by
  rw [touched, h.entries]
  cases limit : c.limit with
  | none =>
    rw [limit, kept, List.mem_eraseDups] at there
    rw [kept, kept, eraseDups_concat, if_pos there]
  | some n =>
    obtain ⟨n, rfl⟩ := Nat.exists_eq_succ_of_ne_zero (h.positive n limit).ne'
    rw [limit] at there
    rw [kept_hit there, without_map, List.map_append]
    rfl

theorem size_touched (h : c.Keeps compile asked) (there : key ∈ kept c.limit asked) :
    (c.touched key (compile key)).length = c.size := by
  rw [h.size_eq, touched, h.entries]
  cases limit : c.limit with
  | none => exact List.length_map _
  | some n =>
    rw [limit] at there
    rw [without_map, List.length_append, List.length_map]
    exact length_kept_hit there

theorem hit (h : c.Keeps compile asked) (there : key ∈ kept c.limit asked) :
    Keeps { c with entries := c.touched key (compile key), hits := c.hits + 1 } compile
      (asked ++ [key]) where
  positive := h.positive
  entries := h.touched_eq there
  requests := by
    rw [List.length_append, ← h.requests]
    exact Nat.add_right_comm _ _ _
  stored := by
    rw [size, h.size_touched there]
    exact h.stored

theorem insert_entries (h : c.Keeps compile asked) (absent : key ∉ kept c.limit asked) :
    (c.insert key (compile key)).entries =
      (kept c.limit (asked ++ [key])).map fun key => (key, compile key) := by
  rw [Cache.insert, evict, excess]
  dsimp only
  have longer : c.entries ++ [(key, compile key)] =
      (kept c.limit asked ++ [key]).map fun key => (key, compile key) := by
    rw [h.entries, List.map_append]
    rfl
  rw [longer]
  cases limit : c.limit with
  | none =>
    rw [limit, kept, List.mem_eraseDups] at absent
    rw [kept, kept, eraseDups_concat, if_neg absent]
    rfl
  | some n =>
    obtain ⟨n, rfl⟩ := Nat.exists_eq_succ_of_ne_zero (h.positive n limit).ne'
    rw [limit] at absent
    rw [kept_miss absent, List.rtake, List.map_drop, size, List.length_map]

theorem insert (h : c.Keeps compile asked) (absent : key ∉ kept c.limit asked) :
    (c.insert key (compile key)).Keeps compile (asked ++ [key]) where
  positive := h.positive
  entries := h.insert_entries absent
  requests := by
    rw [List.length_append, ← h.requests]
    exact (Nat.add_assoc _ _ _).symm
  stored := by
    have few : excess { c with entries := c.entries ++ [(key, compile key)], misses := c.misses + 1 } ≤
        c.size + 1 := by
      rw [excess]
      split
      · exact Nat.zero_le _
      · rw [size, List.length_append]
        exact Nat.sub_le _ _
    have stored := h.stored
    simp only [Cache.insert, evict, size, List.length_drop, List.length_append, List.length_singleton] at *
    omega

theorem request (h : c.Keeps compile asked) (key : String) :
    ∃ c', (c.request key (noted compile)).run [] =
        ((compile key, c'), if key ∈ kept c.limit asked then [] else [key]) ∧
      c'.Keeps compile (asked ++ [key]) ∧ c'.limit = c.limit ∧
      c'.misses = c.misses + (if key ∈ kept c.limit asked then [] else [key]).length := by
  rw [Cache.request, h.hit?_eq]
  by_cases there : key ∈ kept c.limit asked
  · simp only [if_pos there]
    exact ⟨_, rfl, h.hit there, rfl, rfl⟩
  · simp only [if_neg there]
    exact ⟨_, rfl, h.insert there, rfl, rfl⟩

end Keeps

theorem serve_keeps (name : String) (limit : Option Int) (compile : String → α) (asked : List String) :
    ∃ answers c, serve compile (empty name limit) asked = (answers, c) ∧
      c.limit = (empty name limit : Cache α).limit ∧ c.Keeps compile asked ∧
      answers = asked.mapIdx (fun i key =>
        (compile key, if key ∈ kept c.limit (asked.take i) then [] else [key])) ∧
      (answers.flatMap (·.2)).length = c.misses := by
  induction asked using List.reverseRecOn with
  | nil => exact ⟨[], _, rfl, rfl, .empty name limit compile, rfl, rfl⟩
  | append_singleton asked key ih =>
    obtain ⟨answers, c, served, limited, keeps, same, count⟩ := ih
    obtain ⟨c', run, keeps', limited', missed⟩ := keeps.request key
    have last : serve compile c [key] =
        ([(compile key, if key ∈ kept c.limit asked then [] else [key])], c') := by
      rw [serve, run]
      rfl
    refine ⟨_, c', by rw [serve_append, served, last], limited'.trans limited, keeps', ?_, ?_⟩
    · rw [List.mapIdx_concat, same, limited', List.take_left]
      congr 1
      refine List.mapIdx_eq_mapIdx_iff.mpr fun i inside => ?_
      rw [List.take_append_of_le_length inside.le]
    · rw [List.flatMap_append, List.length_append, count, missed, List.flatMap_singleton]

/-- Under such a limit a new table keeps such keys: whatever is asked, its entries are their values, each
request gives the value of its key, which is made exactly if the key is not kept then, and the numbers of the
table count the requests. -/
def Serves (limit : Option Int) (keeps : List String → List String) : Prop :=
  ∀ (α : Type) (name : String) (compile : String → α) (asked : List String),
    ∃ answers c, serve compile (empty name limit) asked = (answers, c) ∧
      answers = asked.mapIdx (fun i key =>
        (compile key, if key ∈ keeps (asked.take i) then [] else [key])) ∧
      c.entries = (keeps asked).map (fun key => (key, compile key)) ∧
      c.hits + c.misses = asked.length ∧ c.misses = c.size + c.evictions ∧
      c.misses = (answers.flatMap (·.2)).length

theorem serves_kept {limit : Option Int} (bound : Option Nat)
    (same : ∀ (α : Type) (name : String), (empty name limit : Cache α).limit = bound) :
    Serves limit (kept bound) := by
  intro α name compile asked
  obtain ⟨answers, c, served, limited, keeps, shown, count⟩ := serve_keeps name limit compile asked
  rw [same] at limited
  have entries := keeps.entries
  rw [limited] at shown entries
  exact ⟨answers, c, served, shown, entries, keeps.requests, keeps.stored, count.symm⟩

/-- Under a limit a table keeps the distinct keys of the last requests, in their order, and without one all
keys, in the order of their first requests. -/
theorem serves_recent :
    (∀ n : Nat, 0 < n → Serves (some n) fun asked => asked.dedup.rtake n) ∧
      Serves none List.eraseDups := by
  refine ⟨fun n positive => serves_kept (some n) fun α name => ?_, serves_kept none fun _ _ => rfl⟩
  exact if_neg (by omega)

theorem serves_recent_two : ∃ answers c,
    serve id (empty "t" (some 2)) ["a", "b", "a", "c"] = (answers, c) ∧
      c.entries = [("a", "a"), ("c", "c")] ∧
      answers = [("a", ["a"]), ("b", ["b"]), ("a", []), ("c", ["c"])] ∧
      c.hits + c.misses = 4 ∧ c.misses = c.size + c.evictions := by
  obtain ⟨answers, c, served, shown, entries, requests, stored, -⟩ :=
    serves_recent.1 2 (by decide) String "t" id ["a", "b", "a", "c"]
  refine ⟨answers, c, served, ?_, ?_, requests, stored⟩
  · rw [entries]
    decide
  · rw [shown]
    decide

/-- Without a limit a key that is asked again does not become the last one. -/
theorem not_serves_recent : ¬Serves none List.dedup := by
  intro serves
  obtain ⟨answers, c, served, -, entries, -⟩ := serves String "t" id ["a", "b", "a"]
  have after : (serve id (empty "t" none) ["a", "b", "a"]).2.keys = ["a", "b"] := rfl
  rw [served, keys, Fields.keys, entries] at after
  exact absurd after (by decide)

end EmitterLogic.Cache
