import EmitterLogic.Text.Letter
import EmitterLogic.Text.Scan

namespace EmitterLogic.Text

theorem forall_mem_of_all {α : Type} {p : α → Prop} [DecidablePred p] {s : List α}
    (h : (s.all fun a => p a) = true) : ∀ a ∈ s, p a :=
  fun a member => of_decide_eq_true (List.all_eq_true.mp h a member)

theorem dropEnd_cons_of_not {p : Char → Bool} {c : Char} (s : List Char) (h : p c = false) :
    ((c :: s).reverse.dropWhile p).reverse = c :: (s.reverse.dropWhile p).reverse := by
  rw [List.reverse_cons, List.dropWhile_append]
  split
  · next none =>
    rw [List.isEmpty_iff.mp none, List.dropWhile_cons_of_neg (by simp [h])]
    rfl
  · rw [List.reverse_append]
    rfl

theorem dropWhile_head {p : Char → Bool} {s : List Char} :
    ∀ c ∈ (s.dropWhile p).head?, p c = false := by
  intro c head
  have stop := List.head?_dropWhile_not p s
  rw [Option.mem_def.mp head] at stop
  exact stop

theorem trimStart_head {c : Char} {s rest : List Char} (h : trimStart s = c :: rest) :
    isBlank c = false := by
  have head : (s.dropWhile isBlank).head? = some c := by rw [← trimStart, h, List.head?_cons]
  exact dropWhile_head c head

theorem trimEnd_cons_of_not {c : Char} (s : List Char) (h : isBlank c = false) :
    trimEnd (c :: s) = c :: trimEnd s := dropEnd_cons_of_not s h

theorem trim_head {c : Char} {s rest : List Char} (h : trim s = c :: rest) :
    isBlank c = false := by
  rw [trim] at h
  cases start : trimStart s with
  | nil =>
    rw [start] at h
    cases h
  | cons d more =>
    have visible := trimStart_head start
    rw [start, trimEnd_cons_of_not more visible] at h
    rw [← (List.cons.inj h).1]
    exact visible

theorem trim_cons_of_not {c : Char} (s : List Char) (h : isBlank c = false) :
    trim (c :: s) = c :: trimEnd s := by
  rw [trim, trimStart_cons_of_not s h, trimEnd_cons_of_not s h]

theorem trimEnd_last {s : List Char} : ∀ c ∈ (trimEnd s).getLast?, isBlank c = false := by
  intro c last
  rw [trimEnd, List.getLast?_reverse] at last
  exact dropWhile_head c last

theorem trim_of_ends {s : List Char} (first : ∀ c ∈ s.head?, isBlank c = false)
    (last : ∀ c ∈ s.getLast?, isBlank c = false) : trim s = s := by
  have keeps {t : List Char} (h : ∀ c ∈ t.head?, isBlank c = false) : t.dropWhile isBlank = t := by
    cases t with
    | nil => rfl
    | cons c t => exact List.dropWhile_cons_of_neg (by simp [h c rfl])
  rw [← List.head?_reverse] at last
  rw [trim, trimStart, keeps first, trimEnd, keeps last, List.reverse_reverse]

theorem dropWhile_padded {p : Char → Bool} {g s : List Char} (all : ∀ c ∈ g, p c = true)
    (stop : ∀ c ∈ s.head?, p c = false) : (g ++ s).dropWhile p = s := by
  rw [List.dropWhile_append_of_pos all]
  cases s with
  | nil => rfl
  | cons c s => exact List.dropWhile_cons_of_neg (by simp [stop c rfl])

theorem trimStart_padded {g s : List Char} (blank : ∀ c ∈ g, isBlank c = true)
    (first : ∀ c ∈ s.head?, isBlank c = false) : trimStart (g ++ s) = s :=
  dropWhile_padded blank first

theorem trim_padded {g g' s : List Char} (blank : ∀ c ∈ g, isBlank c = true)
    (blank' : ∀ c ∈ g', isBlank c = true) (first : ∀ c ∈ s.head?, isBlank c = false)
    (last : ∀ c ∈ s.getLast?, isBlank c = false) : trim (g ++ (s ++ g')) = s := by
  have after : ∀ c ∈ g'.reverse, isBlank c = true := fun c hc => blank' c (List.mem_reverse.mp hc)
  have ends : trimEnd (s ++ g') = trimEnd s := by
    rw [trimEnd, trimEnd, List.reverse_append, List.dropWhile_append_of_pos after]
  have kept := trim_of_ends first last
  cases s with
  | nil =>
    have none := trimStart_padded (List.forall_mem_append.mpr ⟨blank, blank'⟩) first
    rw [List.append_nil] at none
    rw [trim, List.nil_append, none]
    rfl
  | cons c s =>
    rw [trim, trimStart_cons_of_not s (first c rfl)] at kept
    rw [trim, trimStart_padded blank (s := c :: s ++ g') first, ends, kept]

theorem trim_of_visible {s : List Char} (h : ∀ c ∈ s, isBlank c = false) : trim s = s :=
  trim_of_ends (fun c first => h c (List.mem_of_mem_head? first))
    fun c last => h c (List.mem_of_mem_getLast? last)

theorem trim_first {s : List Char} : ∀ c ∈ (trim s).head?, isBlank c = false := by
  intro c first
  cases left : trim s with
  | nil =>
    rw [left] at first
    cases first
  | cons d rest =>
    rw [left] at first
    cases first
    exact trim_head left

theorem trim_last {s : List Char} : ∀ c ∈ (trim s).getLast?, isBlank c = false := trimEnd_last

theorem trim_trim (s : List Char) : trim (trim s) = trim s := trim_of_ends trim_first trim_last

end EmitterLogic.Text

namespace EmitterLogic

theorem trimmed_trimmed (s : String) : trimmed (trimmed s) = trimmed s := by
  rw [trimmed, trimmed, String.toList_ofList, Text.trim_trim]

end EmitterLogic

namespace EmitterLogic.Text

variable {α : Type} {m : Matcher α} {before : Option Char} {s A B : List Char}
  {place skip q n : Nat} {v : α}

def MatchesAt (m : Matcher α) (before : Option Char) (s : List Char) (q n : Nat) (v : α) : Prop :=
  ∃ A B, s = A ++ B ∧ A.length = q ∧ B ≠ [] ∧ m (A.getLast?.or before) B = some (n, v)

theorem last_or_cons (c : Char) (A : List Char) (before : Option Char) :
    (c :: A).getLast?.or before = A.getLast?.or (some c) := by
  rw [List.getLast?_cons, Option.some_or, Option.or_some]

theorem MatchesAt.here {c : Char} {rest : List Char} (h : m before (c :: rest) = some (n, v)) :
    MatchesAt m before (c :: rest) 0 n v :=
  ⟨[], c :: rest, rfl, rfl, List.cons_ne_nil c rest, h⟩

theorem MatchesAt.cons {c : Char} {rest : List Char} (h : MatchesAt m (some c) rest q n v) :
    MatchesAt m before (c :: rest) (q + 1) n v := by
  obtain ⟨A, B, rfl, rfl, some, found⟩ := h
  exact ⟨c :: A, B, rfl, rfl, some, by rwa [last_or_cons]⟩

theorem of_mem_findFrom (h : (q, n, v) ∈ findFrom m before place skip s) :
    ∃ k, q = place + k ∧ skip ≤ k ∧ MatchesAt m before s k n v := by
  induction s generalizing before place skip with
  | nil =>
    unfold findFrom at h
    cases h
  | cons c rest ih =>
    have later {skip' : Nat} (h : (q, n, v) ∈ findFrom m (some c) (place + 1) skip' rest) :
        ∃ k, q = place + k ∧ skip' + 1 ≤ k ∧ MatchesAt m before (c :: rest) k n v := by
      obtain ⟨k, rfl, le, found⟩ := ih h
      exact ⟨k + 1, by omega, by omega, found.cons⟩
    cases skip with
    | succ skip => exact later h
    | zero =>
      rw [findFrom] at h
      split at h
      · next n' v' found =>
        rcases List.mem_cons.mp h with same | more
        · cases same
          exact ⟨0, rfl, Nat.le_refl 0, .here found⟩
        · obtain ⟨k, same, _, found⟩ := later more
          exact ⟨k, same, Nat.zero_le k, found⟩
      · obtain ⟨k, same, _, found⟩ := later h
        exact ⟨k, same, Nat.zero_le k, found⟩

theorem findFrom_apart {q' n' : Nat} {v' : α} (h : (q, n, v) ∈ findFrom m before place skip s)
    (h' : (q', n', v') ∈ findFrom m before place skip s) (less : q < q') : q + n ≤ q' := by
  -- While `skip` characters are left to pass, nothing is found.
  induction s generalizing before place skip with
  | nil =>
    unfold findFrom at h
    cases h
  | cons c rest ih =>
    cases skip with
    | succ skip => exact ih h h'
    | zero =>
      rw [findFrom] at h h'
      cases matched : m before (c :: rest) with
      | none =>
        rw [matched] at h h'
        exact ih h h'
      | some found =>
        obtain ⟨k, w⟩ := found
        rw [matched] at h h'
        rcases List.mem_cons.mp h with same | more
        · rcases List.mem_cons.mp h' with same' | more'
          · cases same
            cases same'
            exact absurd less (Nat.lt_irrefl _)
          · cases same
            obtain ⟨j, there, le, _⟩ := of_mem_findFrom more'
            omega
        · rcases List.mem_cons.mp h' with same' | more'
          · cases same'
            obtain ⟨j, there, _⟩ := of_mem_findFrom more
            omega
          · exact ih more more'

theorem found_or_covered (left : B ≠ []) (h : m (A.getLast?.or before) B = some (n, v))
    (reached : skip ≤ A.length) : (place + A.length, n, v) ∈ findFrom m before place skip (A ++ B) ∨
      ∃ q k w, (q, k, w) ∈ findFrom m before place skip (A ++ B) ∧
        q < place + A.length ∧ place + A.length < q + k := by
  -- Before the place comes, the search may be inside an earlier match; then that one covers the place.
  induction A generalizing before place skip with
  | nil =>
    obtain ⟨c, rest, rfl⟩ := List.exists_cons_of_ne_nil left
    obtain rfl := Nat.le_zero.mp reached
    have here : m before (c :: rest) = some (n, v) := h
    refine .inl ?_
    rw [List.nil_append, findFrom, here]
    exact List.mem_cons_self
  | cons c A ih =>
    have there : place + (c :: A).length = place + 1 + A.length := by
      rw [List.length_cons]
      omega
    rw [last_or_cons] at h
    rw [there, List.cons_append]
    cases skip with
    | succ skip => exact ih h (Nat.le_of_succ_le_succ reached)
    | zero =>
      rw [findFrom]
      split
      · next k w _ =>
        by_cases within : k - 1 ≤ A.length
        · rcases ih h within with found | ⟨q, k', w', found, covers⟩
          · exact .inl (List.mem_cons_of_mem _ found)
          · exact .inr ⟨q, k', w', List.mem_cons_of_mem _ found, covers⟩
        · exact .inr ⟨place, k, w, List.mem_cons_self, by omega, by omega⟩
      · exact ih h (Nat.zero_le _)

theorem of_mem_findAll (h : (q, n, v) ∈ findAll m s) :
    ∃ A B, s = A ++ B ∧ A.length = q ∧ B ≠ [] ∧ m A.getLast? B = some (n, v) := by
  obtain ⟨k, rfl, _, A, B, whole, rfl, some, found⟩ := of_mem_findFrom h
  rw [Option.or_none] at found
  exact ⟨A, B, whole, (Nat.zero_add _).symm, some, found⟩

theorem found_within {q' n' : Nat} {v' : α} (h : (q, n, v) ∈ findAll m s)
    (h' : (q', n', v') ∈ findAll m s) (le : q ≤ q') (lt : q' < q + n) : q' = q ∧ n' = n ∧ v' = v := by
  rcases Nat.lt_or_eq_of_le le with less | rfl
  · exact absurd (findFrom_apart h h' less) (Nat.not_le.mpr lt)
  · obtain ⟨A, B, whole, there, _, found⟩ := of_mem_findAll h
    obtain ⟨A', B', whole', there', _, found'⟩ := of_mem_findAll h'
    obtain ⟨rfl, rfl⟩ := List.append_inj (whole.symm.trans whole') (there.trans there'.symm)
    cases found.symm.trans found'
    exact ⟨rfl, rfl, rfl⟩

theorem mem_findAll (left : B ≠ []) (h : m A.getLast? B = some (n, v))
    (clear : ∀ A' C k w, A = A' ++ C → C ≠ [] → m A'.getLast? (C ++ B) = some (k, w) →
      k ≤ C.length) : (A.length, n, v) ∈ findAll m (A ++ B) := by
  have h' : m (A.getLast?.or none) B = some (n, v) := by rwa [Option.or_none]
  rcases found_or_covered left h' (Nat.zero_le _) with found | ⟨q, k, w, found, lt, gt⟩
  · rwa [Nat.zero_add] at found
  · rw [Nat.zero_add] at lt gt
    obtain ⟨A', D, whole, rfl, _, matched⟩ := of_mem_findAll found
    -- The earlier match would begin inside `A` and go beyond its end.
    obtain ⟨C, rfl, rfl⟩ : ∃ C, A = A' ++ C ∧ D = C ++ B := by
      rcases List.append_eq_append_iff.mp whole with ⟨C, rfl, _⟩ | ⟨C, first, second⟩
      · rw [List.length_append] at lt
        omega
      · exact ⟨C, first, second⟩
    have short := clear A' C k w rfl (by rintro rfl; rw [List.append_nil] at lt; omega) matched
    rw [List.length_append] at gt
    omega

section Replacing

variable {m : Matcher (List Char)} {before : Option Char} {cs rest new : List Char}

def Unmatched (m : Matcher (List Char)) (before : Option Char) (cs rest : List Char) : Prop :=
  ∀ A c B, cs = A ++ c :: B → m (A.getLast?.or before) (c :: (B ++ rest)) = none

theorem replaceFrom_unmatched (h : Unmatched m before cs rest) :
    replaceFrom m before 0 (cs ++ rest) = cs ++ replaceFrom m (cs.getLast?.or before) 0 rest := by
  induction cs generalizing before with
  | nil => rfl
  | cons c cs ih =>
    have first : m before (c :: (cs ++ rest)) = none := h [] c cs rfl
    have later : Unmatched m (some c) cs rest := by
      rintro A d B rfl
      have more := h (c :: A) d B rfl
      rwa [last_or_cons] at more
    rw [List.cons_append, replaceFrom, first, last_or_cons]
    exact congrArg (c :: ·) (ih later)

theorem replaceFrom_skip :
    replaceFrom m before cs.length (cs ++ rest) =
      replaceFrom m (cs.getLast?.or before) 0 rest := by
  induction cs generalizing before with
  | nil => rfl
  | cons c cs ih => rw [List.length_cons, List.cons_append, replaceFrom, ih, last_or_cons]

theorem replaceFrom_matched (left : cs ≠ [])
    (found : m before (cs ++ rest) = some (cs.length, new)) :
    replaceFrom m before 0 (cs ++ rest) =
      new ++ replaceFrom m (cs.getLast?.or before) 0 rest := by
  obtain ⟨c, cs, rfl⟩ := List.exists_cons_of_ne_nil left
  rw [List.cons_append] at found ⊢
  rw [replaceFrom, found]
  dsimp only
  rw [List.length_cons, Nat.add_sub_cancel, replaceFrom_skip, last_or_cons]

end Replacing

end EmitterLogic.Text
