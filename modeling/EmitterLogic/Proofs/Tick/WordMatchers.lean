import EmitterLogic.Proofs.Tick.Replacements

namespace EmitterLogic.Tick

open Text

section Matchers

variable {before : Option Char} {n : Nat} {s t v w out rest rest' : List Char} {c sign : Char}
  {word target : String}

theorem not_blank_of_head (visible : isBlank c = false) : ¬Blank (c :: s) := fun blank => by
  rw [blank c List.mem_cons_self] at visible
  cases visible

theorem visible_of_idle (h : isIdle c = false) : isBlank c = false := by
  rw [isIdle, Bool.or_eq_false_iff] at h
  exact h.1

theorem Swap.of_ordinary (first : ∃ c v, w = c :: v ∧ isBlank c = false)
    (taken : ∀ c ∈ w, isBlank c = true ∨ c ∉ signs true)
    (front : ∃ c v, out = c :: v ∧ isIdle c = false ∧ c ∉ ['e', 'l', 's'] ∧
      (before.any isWordChar = true → w.head? = some c))
    (visible : ¬Blank out) (put : Ordinary true out)
    (words : ∀ v, wordBehind v w = wordBehind v out) : Swap before w out where
  first := first
  inner c member := by
    rcases taken c member with blank | other
    · constructor <;> rintro rfl <;> cases blank
    · constructor <;> rintro rfl <;> exact other (by decide)
  alike unbroken asks := by
    have ordinary : Ordinary true w := by
      intro c member
      rcases taken c member with blank | other
      · exact ordinary_blank (g := [c]) (List.forall_mem_singleton.mpr blank)
          (fun inside => unbroken (List.mem_singleton.mp inside ▸ member)) c List.mem_cons_self
      · exact other
    obtain ⟨c, v, rfl, shown⟩ := first
    exact .of_ordinary (not_blank_of_head shown) visible ordinary.mono put.mono words
  chars c member := .inr (put c member)
  front := front

theorem ordinary_name (name : ∀ c ∈ s, isNamePart c = true) : Ordinary true s :=
  ordinary_of (by decide) name

theorem visible_name (name : ∀ c ∈ s, isNamePart c = true) : ∀ c ∈ s, isBlank c = false :=
  fun c member => isBlank_of_wordPart (isWordPart_of_namePart (name c member))

theorem idle_name (name : ∀ c ∈ s, isNamePart c = true) : ∀ c ∈ s, isIdle c = false := by
  intro c member
  have other : (c == ';') = false := by
    rw [beq_eq_false_iff_ne]
    rintro rfl
    cases name _ member
  rw [isIdle, visible_name name c member, other]
  rfl

structure Follows (v out : List Char) : Prop where
  last : ∃ c ∈ v.getLast?, isBlank c = false
  taken : ∀ c ∈ v, isBlank c = true ∨ c ∉ signs true
  front : ∃ c x, out = c :: x ∧ isIdle c = false ∧ c ∉ ['e', 'l', 's']
  put : Ordinary true out
  words : ∀ w w', wordBehind w v = wordBehind w' out

def IsLettered (word : String) : Prop := word.toList.all isNamePart = true ∧ word.toList ≠ []

theorem Follows.swap (h : Follows v out) (letters : IsLettered word)
    (free : before.any isWordChar = false) : Swap before (word.toList ++ v) out := by
  have parts : ∀ c ∈ word.toList, isNamePart c = true := List.all_eq_true.mp letters.1
  obtain ⟨c, x, rfl, tells, other⟩ := h.front
  refine .of_ordinary ?_ ?_ ⟨c, x, rfl, tells, other, fun word => ?_⟩
    (not_blank_of_head (visible_of_idle tells)) h.put fun w => ?_
  · obtain ⟨d, y, spelled⟩ := List.exists_cons_of_ne_nil letters.2
    rw [spelled] at parts ⊢
    exact ⟨d, y ++ v, rfl, visible_name parts d List.mem_cons_self⟩
  · exact List.forall_mem_append.mpr ⟨fun d member => .inr (ordinary_name parts d member), h.taken⟩
  · rw [free] at word
    cases word
  · rw [wordBehind_append]
    exact h.words _ _

theorem Follows.last_append (h : Follows v out) (w : List Char) :
    ∀ c ∈ (w ++ v).getLast?, isBlank c = false := by
  obtain ⟨d, last, visible⟩ := h.last
  intro c last'
  rw [List.getLast?_append, last, Option.some_or] at last'
  exact Option.some.inj last' ▸ visible

theorem mild_afterWord {read : List Char → Option (List Char × List Char)}
    {T : List Char → List Char → Prop} {E : List Char → Prop} (letters : IsLettered word)
    (shape : ∀ t out rest, read t = some (out, rest) ↔ ∃ v, t = v ++ rest ∧ T v out ∧ E rest)
    (follows : ∀ v out, T v out → Follows v out)
    (ends : ∀ rest rest', E rest → (∀ c ∈ rest'.head?, rest.head? = some c ∨ stops c = true) → E rest') :
    Mild (afterWord [word] read) := by
  refine .of_iff (F := fun before => before.any isWordChar = false)
    (T := fun w out => ∃ v, w = word.toList ++ v ∧ T v out) (E := E) ?_ ?_ ?_ ends ?_
  · intro before s n out
    constructor
    · intro matched
      obtain ⟨free, w, member, t, rest, rfl, found, rfl⟩ := of_afterWord matched
      obtain rfl := List.mem_singleton.mp member
      obtain ⟨v, rfl, takes, stop⟩ := (shape ..).mp found
      refine ⟨free, w.toList ++ v, rest, (List.append_assoc ..).symm, ?_, ⟨v, rfl, takes⟩, stop⟩
      rw [← List.append_assoc, List.length_append, Nat.add_sub_cancel]
    · rintro ⟨free, w, rest, rfl, rfl, ⟨v, rfl, takes⟩, stop⟩
      have only : PrefixFree [word] := fun w member w' member' _ => by
        rw [List.mem_singleton.mp member, List.mem_singleton.mp member']
      have found : read (v ++ rest) = some (out, rest) := (shape ..).mpr ⟨v, rfl, takes, stop⟩
      rw [List.append_assoc, afterWord_of only free List.mem_cons_self found, ← List.append_assoc,
        List.length_append, Nat.add_sub_cancel]
  · rintro before w out free ⟨v, rfl, takes⟩
    exact (follows v out takes).swap letters free
  · rintro w out ⟨v, rfl, takes⟩
    exact (follows v out takes).last_append word.toList
  · intro c other
    exact iff_of_true other rfl

theorem endsName_of_next (ends : EndsName rest)
    (next : ∀ c ∈ rest'.head?, rest.head? = some c ∨ stops c = true) : EndsName rest' := by
  intro c head
  rcases next c head with same | stop
  · exact ends c same
  · have part := isWordPart_of_stops stop
    rw [Bool.eq_false_iff] at part ⊢
    exact fun name => part (isWordPart_of_namePart name)

def IsTarget (target : String) : Prop :=
  IsLettered target ∧ ∀ c ∈ target.toList.head?, c ∉ ['e', 'l', 's']

theorem IsTarget.front (h : IsTarget target) :
    ∃ c x, target.toList ++ s = c :: x ∧ isIdle c = false ∧ c ∉ ['e', 'l', 's'] := by
  obtain ⟨⟨parts, some⟩, other⟩ := h
  obtain ⟨c, x, spelled⟩ := List.exists_cons_of_ne_nil some
  rw [spelled] at parts other ⊢
  exact ⟨c, x ++ s, rfl, idle_name (List.all_eq_true.mp parts) c List.mem_cons_self, other c rfl⟩

theorem IsTarget.ordinary (h : IsTarget target) : Ordinary true target.toList :=
  ordinary_name (List.all_eq_true.mp h.1.1)

theorem mild_keyword (letters : IsLettered word) (isTarget : IsTarget target) :
    Mild (afterWord [word] fun s => do
      let (name, rest) ← name? (← gap? s)
      return (target.toList ++ ' ' :: name, rest)) := by
  refine mild_afterWord (T := fun v out => ∃ g name, v = g ++ name ∧ Blank g ∧ g ≠ [] ∧
    isNameChars name = true ∧ out = target.toList ++ ' ' :: name) (E := EndsName) letters ?_ ?_
    fun _ _ => endsName_of_next
  · intro t out rest
    constructor
    · intro found
      obtain ⟨t', gap, found⟩ := Option.bind_eq_some_iff.mp found
      obtain ⟨⟨name, rest'⟩, named, found⟩ := Option.bind_eq_some_iff.mp found
      cases found
      obtain ⟨g, rfl, blank, wide, -⟩ := gap?_eq_some_iff.mp gap
      obtain ⟨rfl, name', ends⟩ := name?_eq_some_iff.mp named
      exact ⟨g ++ name, by rw [List.append_assoc], ⟨g, name, rfl, blank, wide, name', rfl⟩, ends⟩
    · rintro ⟨_, rfl, ⟨g, name, rfl, blank, wide, name', rfl⟩, ends⟩
      have gap : gap? (g ++ (name ++ rest)) = some (name ++ rest) :=
        gap?_eq_some_iff.mpr ⟨g, rfl, blank, wide, shown_of_isNameChars name'⟩
      have named : name? (name ++ rest) = some (name, rest) := name?_eq_some_iff.mpr ⟨rfl, name', ends⟩
      simp only [List.append_assoc, gap, named, Option.bind_eq_bind, Option.bind_some]
      rfl
  · rintro _ _ ⟨g, name, rfl, blank, wide, name', rfl⟩
    have parts := mem_isNameChars name'
    refine ⟨?_, ?_, isTarget.front, isTarget.ordinary.append ?_, fun w w' => ?_⟩
    · obtain ⟨c, last⟩ := Option.ne_none_iff_exists'.mp
        (fun none => ne_nil_of_isNameChars name' (List.getLast?_eq_none_iff.mp none))
      refine ⟨c, ?_, visible_name parts c (List.mem_of_mem_getLast? last)⟩
      rw [List.getLast?_append, last, Option.some_or]
      rfl
    · exact List.forall_mem_append.mpr
        ⟨fun c member => .inl (blank c member), fun c member => .inr (ordinary_name parts c member)⟩
    · exact List.forall_mem_cons.mpr ⟨by decide, ordinary_name parts⟩
    · obtain ⟨c, x, rfl⟩ := List.exists_cons_of_ne_nil (ne_nil_of_isNameChars name')
      have visible := visible_name parts c List.mem_cons_self
      rw [wordBehind_fresh blank wide visible, wordBehind_append]
      exact (wordBehind_fresh blank_space (List.cons_ne_nil _ _) visible _ x).symm

theorem namedHead_eq_some_iff : namedHead target s = some (out, rest) ↔
    ∃ g name g', s = g ++ (name ++ (g' ++ '(' :: rest)) ∧ Blank g ∧ g ≠ [] ∧ Blank g' ∧
      isNameChars name = true ∧ out = target.toList ++ ' ' :: name ++ ['('] := by
  constructor
  · intro found
    obtain ⟨t, gap, found⟩ := Option.bind_eq_some_iff.mp found
    obtain ⟨⟨name, t'⟩, named, found⟩ := Option.bind_eq_some_iff.mp found
    obtain ⟨rest', opened, found⟩ := Option.bind_eq_some_iff.mp found
    cases found
    obtain ⟨g, rfl, blank, wide, -⟩ := gap?_eq_some_iff.mp gap
    obtain ⟨rfl, name', -⟩ := name?_eq_some_iff.mp named
    obtain ⟨g', blank', rfl⟩ := (dropSign?_trimStart_eq_some_iff (by decide)).mp opened
    exact ⟨g, name, g', rfl, blank, wide, blank', name', rfl⟩
  · rintro ⟨g, name, g', rfl, blank, wide, blank', name', rfl⟩
    have gap : gap? (g ++ (name ++ (g' ++ '(' :: rest))) = some (name ++ (g' ++ '(' :: rest)) :=
      gap?_eq_some_iff.mpr ⟨g, rfl, blank, wide, shown_of_isNameChars name'⟩
    have named : name? (name ++ (g' ++ '(' :: rest)) = some (name, g' ++ '(' :: rest) :=
      name?_eq_some_iff.mpr ⟨rfl, name', endsName_sign blank' (by decide)⟩
    have opened : dropSign? '(' (trimStart (g' ++ '(' :: rest)) = some rest :=
      (dropSign?_trimStart_eq_some_iff (by decide)).mpr ⟨g', blank', rfl⟩
    simp only [namedHead, gap, named, opened, Option.bind_eq_bind, Option.bind_some]
    rfl

theorem mild_namedHead (letters : IsLettered word) (isTarget : IsTarget target) :
    Mild (afterWord [word] (namedHead target)) := by
  refine mild_afterWord (T := fun v out => ∃ g name g', v = g ++ (name ++ (g' ++ ['('])) ∧ Blank g ∧
    g ≠ [] ∧ Blank g' ∧ isNameChars name = true ∧ out = target.toList ++ ' ' :: name ++ ['('])
    (E := fun _ => True) letters ?_ ?_ fun _ _ _ _ => trivial
  · intro t out rest
    rw [namedHead_eq_some_iff]
    constructor
    · rintro ⟨g, name, g', rfl, facts⟩
      exact ⟨g ++ (name ++ (g' ++ ['('])), by simp, ⟨g, name, g', rfl, facts⟩, trivial⟩
    · rintro ⟨_, rfl, ⟨g, name, g', rfl, facts⟩, -⟩
      exact ⟨g, name, g', by simp, facts⟩
  · rintro _ _ ⟨g, name, g', rfl, blank, -, blank', name', rfl⟩
    have parts := mem_isNameChars name'
    refine ⟨⟨'(', by simp, by decide⟩, ?_, ?_, ?_, fun w w' => ?_⟩
    · simp only [List.forall_mem_append, List.forall_mem_singleton]
      exact ⟨fun c member => .inl (blank c member), fun c member => .inr (ordinary_name parts c member),
        fun c member => .inl (blank' c member), by decide⟩
    · rw [List.append_assoc]
      exact isTarget.front
    · refine (isTarget.ordinary.append (List.forall_mem_cons.mpr ⟨by decide, ordinary_name parts⟩)).append ?_
      exact List.forall_mem_singleton.mpr (by decide)
    · rw [← List.append_assoc, ← List.append_assoc, wordBehind_last (by decide) (by decide),
        wordBehind_last (by decide) (by decide)]

theorem mild_namelessHead (letters : IsLettered word) (isTarget : IsTarget target) :
    Mild (afterWord [word] fun s => do
      return (target.toList ++ ['('], ← dropSign? '(' (trimStart s))) := by
  refine mild_afterWord (T := fun v out => ∃ g, v = g ++ ['('] ∧ Blank g ∧
    out = target.toList ++ ['(']) (E := fun _ => True) letters ?_ ?_ fun _ _ _ _ => trivial
  · intro t out rest
    constructor
    · intro found
      obtain ⟨rest', opened, found⟩ := Option.bind_eq_some_iff.mp found
      cases found
      obtain ⟨g, blank, rfl⟩ := (dropSign?_trimStart_eq_some_iff (by decide)).mp opened
      exact ⟨g ++ ['('], by simp, ⟨g, rfl, blank, rfl⟩, trivial⟩
    · rintro ⟨_, rfl, ⟨g, rfl, blank, rfl⟩, -⟩
      have opened : dropSign? '(' (trimStart (g ++ ['('] ++ rest)) = some rest :=
        (dropSign?_trimStart_eq_some_iff (by decide)).mpr
          ⟨g, blank, by rw [List.append_assoc, List.singleton_append]⟩
      simp only [opened, Option.bind_eq_bind, Option.bind_some]
      rfl
  · rintro _ _ ⟨g, rfl, blank, rfl⟩
    refine ⟨⟨'(', by simp, by decide⟩, ?_, isTarget.front, ?_, fun w w' => ?_⟩
    · exact List.forall_mem_append.mpr ⟨fun c member => .inl (blank c member), by decide⟩
    · exact isTarget.ordinary.append (List.forall_mem_singleton.mpr (by decide))
    · rw [wordBehind_last (by decide) (by decide), wordBehind_last (by decide) (by decide)]

end Matchers

end EmitterLogic.Tick
