import EmitterLogic.Proofs.Number.Marks
import EmitterLogic.Proofs.Predicate.Gate
import EmitterLogic.Proofs.Script.Spelling
import EmitterLogic.Proofs.Tick.Cleaning
import EmitterLogic.Tick.Scan

namespace EmitterLogic

namespace Text

open Script Predicate

variable {c : Char} {g s t w : List Char}

section Characters

theorem isWordPart_of_namePart (h : isNamePart c = true) : isWordPart c = true := by
  rw [isNamePart, Bool.or_eq_true] at h
  rcases h with part | dollar
  · exact isWordPart_of_ident part
  · rw [isWordPart, dollar, Bool.or_true]

theorem isNamePart_of_start (h : isNameStart c = true) : isNamePart c = true := by
  rw [isNameStart, Bool.or_eq_true] at h
  rw [isNamePart, isIdentPart, Bool.or_eq_true, Bool.or_eq_true]
  exact h.imp_left .inl

theorem numericSigns_visible : ∀ r ∈ numericSignRanges,
    ((0xA0 < r.1 ∧ r.2 < 0x1680) ∨ (0x1680 < r.1 ∧ r.2 < 0x2000) ∨
      (0x205F < r.1 ∧ r.2 < 0x3000) ∨ 0x3000 < r.1) := by decide

theorem isBlank_of_wordStart (h : isWordStart c = true) : isBlank c = false := by
  have begins := beginsWord_of_isWordStart h
  rw [beginsWord, visible] at begins
  simp only [Bool.and_eq_true, Bool.not_eq_true'] at begins
  tauto

theorem isBlank_of_wordPart (h : isWordPart c = true) : isBlank c = false := by
  rw [isWordPart, isAlphanumeric] at h
  simp only [Bool.or_eq_true, Bool.and_eq_true, decide_eq_true_eq] at h
  rcases h with (((letter | decimal) | ⟨_, sign⟩) | low) | dollar
  · exact isBlank_of_wordStart (by rw [isWordStart, letter]; rfl)
  · exact isDecimal_not_blank decimal
  · rw [inRanges, List.any_eq_true] at sign
    obtain ⟨r, member, range⟩ := sign
    have apart := numericSigns_visible r member
    rw [Bool.and_eq_true, decide_eq_true_eq, decide_eq_true_eq] at range
    rw [Bool.eq_false_iff]
    intro blank
    simp only [isBlank, Bool.or_eq_true, Bool.and_eq_true, decide_eq_true_eq, beq_iff_eq] at blank
    omega
  · exact isBlank_of_wordStart (by rw [isWordStart, low, Bool.or_true, Bool.true_or])
  · exact isBlank_of_wordStart (by rw [isWordStart, dollar, Bool.or_true])

end Characters

section Parts

instance (priority := 2000) decidableCharacters {p : Char → Prop} [DecidablePred p] (s : List Char) :
    Decidable (∀ c ∈ s, p c) := List.decidableBAll p s

instance (priority := 2000) decidableCharacter {p : Char → Prop} [DecidablePred p] (o : Option Char) :
    Decidable (∀ c ∈ o, p c) := Option.decidableForallMem o

/-- Only blanks, or nothing. -/
def Blank (s : List Char) : Prop := ∀ c ∈ s, isBlank c = true

instance (s : List Char) : Decidable (Blank s) := inferInstanceAs (Decidable (∀ c ∈ s, isBlank c = true))

theorem blank_space : Blank [' '] := by decide

def EndsName (s : List Char) : Prop := ∀ c ∈ s.head?, isNamePart c = false

def Shown (s : List Char) : Prop := ∀ c ∈ s.head?, isBlank c = false

theorem Blank.append (h : Blank s) (h' : Blank t) : Blank (s ++ t) :=
  fun c member => (List.mem_append.mp member).elim (h c) (h' c)

theorem Blank.endsName (h : Blank g) (wide : g ≠ []) : EndsName (g ++ s) := by
  obtain ⟨c, g, rfl⟩ := List.exists_cons_of_ne_nil wide
  intro d head
  obtain rfl : c = d := Option.some.inj head
  rw [Bool.eq_false_iff]
  intro part
  have visible := isBlank_of_wordPart (isWordPart_of_namePart part)
  rw [h c List.mem_cons_self] at visible
  cases visible

theorem endsName_sign (blank : Blank g) (sign : isNamePart c = false) : EndsName (g ++ c :: t) := by
  by_cases wide : g = []
  · subst wide
    intro d head
    obtain rfl : c = d := Option.some.inj head
    exact sign
  · exact blank.endsName wide

theorem shown_sign (sign : isBlank c = false) : Shown (c :: t) := by
  intro d head
  obtain rfl : c = d := Option.some.inj head
  exact sign

theorem trimStart_append (blank : Blank g) (shown : Shown s) : trimStart (g ++ s) = s :=
  trimStart_padded blank shown

theorem trimStart_split (s : List Char) : ∃ g, Blank g ∧ s = g ++ trimStart s ∧
    Shown (trimStart s) :=
  ⟨s.takeWhile isBlank, fun _ => List.mem_takeWhile_imp,
    List.takeWhile_append_dropWhile.symm, dropWhile_head⟩

theorem blanks_unique {g' s' : List Char} (h : g ++ s = g' ++ s') (blank : Blank g)
    (blank' : Blank g') (shown : Shown s) (shown' : Shown s') : g = g' ∧ s = s' := by
  have same : s = s' := by
    rw [← trimStart_append blank shown, h, trimStart_append blank' shown']
  subst same
  exact ⟨List.append_cancel_right h, rfl⟩

theorem dropWord?_eq_some_iff : dropWord? w s = some t ↔ s = w ++ t := by
  constructor
  · induction w generalizing s with
    | nil =>
      intro h
      cases h
      rfl
    | cons c w ih =>
      cases s with
      | nil => rintro ⟨⟩
      | cons d s =>
        rw [dropWord?]
        split
        · next same =>
          intro h
          rw [beq_iff_eq.mp same, ih h]
          rfl
        · rintro ⟨⟩
  · rintro rfl
    exact dropWord?_append w t

theorem dropSign?_eq_some_iff : dropSign? c s = some t ↔ s = c :: t := by
  cases s with
  | nil => simp [dropSign?]
  | cons d s =>
    rw [dropSign?]
    split
    · next same => simp [beq_iff_eq.mp same]
    · next other =>
      refine ⟨nofun, fun same => ?_⟩
      rw [(List.cons.inj same).1] at other
      exact absurd (beq_self_eq_true c) other

theorem mem_isNameChars (h : isNameChars w = true) : ∀ c ∈ w, isNamePart c = true := by
  cases w with
  | nil => exact nofun
  | cons d w =>
    rw [isNameChars, Bool.and_eq_true, List.all_eq_true] at h
    exact List.forall_mem_cons.mpr ⟨isNamePart_of_start h.1, h.2⟩

theorem ne_nil_of_isNameChars (h : isNameChars w = true) : w ≠ [] := by
  rintro rfl
  cases h

theorem visible_of_isNameChars (h : isNameChars w = true) : ∀ c ∈ w, isBlank c = false :=
  fun c member => isBlank_of_wordPart (isWordPart_of_namePart (mem_isNameChars h c member))

theorem shown_of_isNameChars (h : isNameChars w = true) : Shown (w ++ s) := by
  intro c head
  rw [List.head?_append_of_ne_nil _ (ne_nil_of_isNameChars h)] at head
  exact visible_of_isNameChars h c (List.mem_of_mem_head? head)

theorem name?_eq_some_iff :
    name? s = some (w, t) ↔ s = w ++ t ∧ isNameChars w = true ∧ EndsName t := by
  constructor
  · cases s with
    | nil => exact nofun
    | cons c s =>
      rw [name?]
      split
      · next start =>
        intro h
        cases h
        refine ⟨?_, ?_, dropWhile_head⟩
        · rw [List.cons_append, List.takeWhile_append_dropWhile]
        · rw [isNameChars, start, List.all_takeWhile]
          rfl
      · exact nofun
  · rintro ⟨rfl, name, stop⟩
    cases w with
    | nil => cases name
    | cons c w =>
      have parts : ∀ d ∈ w, isNamePart d = true :=
        fun d member => mem_isNameChars name d (List.mem_cons_of_mem c member)
      rw [isNameChars, Bool.and_eq_true] at name
      have first : (w ++ t).takeWhile isNamePart = w := takeWhile_append_stop parts stop
      have second : (w ++ t).dropWhile isNamePart = t := dropWhile_padded parts stop
      rw [List.cons_append, name?, if_pos name.1, first, second]

theorem trim_visible {g' : List Char} (blank : Blank g) (blank' : Blank g')
    (visible : ∀ c ∈ w, isBlank c = false) : trim (g ++ (w ++ g')) = w :=
  trim_padded blank blank' (fun c first => visible c (List.mem_of_mem_head? first))
    fun c last => visible c (List.mem_of_mem_getLast? last)

end Parts

section Lists

def Parted (mark : Char) (s : List Char) : Prop := ∀ c ∈ s.getLast?, c = mark

theorem cut_eq (mark : Char) (s : List Char) : cut mark s = s.takeWhile (· != mark) ::
    match s.dropWhile (· != mark) with
    | [] => []
    | _ :: rest => cut mark rest := by
  induction s with
  | nil => rfl
  | cons c s ih =>
    by_cases same : c = mark
    · subst same
      rw [cut_break]
      simp
    · rw [cut_cons same ih]
      simp [same]

theorem cut_append (mark : Char) (s t : List Char) :
    cut mark (s ++ mark :: t) = cut mark s ++ cut mark t := by
  induction s with
  | nil => rw [List.nil_append, cut_break]; rfl
  | cons c s ih =>
    by_cases same : c = mark
    · subst same
      rw [List.cons_append, cut_break, cut_break, ih]
      rfl
    · obtain ⟨piece, pieces, found⟩ := exists_cut mark s
      rw [found] at ih
      rw [List.cons_append, cut_cons same ih, cut_cons same found]
      rfl

theorem mem_cut_iff {mark : Char} {p s : List Char} : p ∈ cut mark s ↔
    ∃ x z, s = x ++ (p ++ z) ∧ Parted mark x ∧ (∀ c ∈ z.head?, c = mark) ∧ mark ∉ p := by
  constructor
  · intro member
    -- A piece is shorter than the text, but not its tail; so the induction is on the length.
    induction count : s.length using Nat.strong_induction_on generalizing s with
    | _ n ih =>
      have whole : s.takeWhile (· != mark) ++ s.dropWhile (· != mark) = s :=
        List.takeWhile_append_dropWhile
      have stop : ∀ c ∈ (s.dropWhile (· != mark)).head?, c = mark :=
        fun c head => by simpa using dropWhile_head c head
      have inner : mark ∉ s.takeWhile (· != mark) :=
        fun member => by simpa using List.mem_takeWhile_imp member
      rw [cut_eq] at member
      generalize s.takeWhile (· != mark) = first at *
      generalize s.dropWhile (· != mark) = rest at *
      subst whole
      rcases List.mem_cons.mp member with rfl | later
      · exact ⟨[], rest, rfl, nofun, stop, inner⟩
      · cases rest with
        | nil => cases later
        | cons c rest =>
          obtain rfl : c = mark := stop c rfl
          rw [List.length_append, List.length_cons] at count
          obtain ⟨x, z, rfl, parted, ends, plain⟩ := ih rest.length (by omega) later rfl
          refine ⟨first ++ c :: x, z, by simp, ?_, ends, plain⟩
          intro d last
          rw [List.getLast?_append, List.getLast?_cons] at last
          cases x with
          | nil => exact (Option.some.inj last).symm
          | cons e x =>
            rw [List.getLast?_cons] at last
            exact parted d (by rw [List.getLast?_cons]; simpa using last)
  · rintro ⟨x, z, rfl, parted, ends, plain⟩
    have front : p ∈ cut mark (p ++ z) := by
      have all : ∀ c ∈ p, (c != mark) = true := fun c member => by
        simpa using fun same : c = mark => plain (same ▸ member)
      have stop : ∀ c ∈ z.head?, (c != mark) = false := fun c head => by simpa using ends c head
      rw [cut_eq, takeWhile_append_stop all stop]
      exact List.mem_cons_self
    rcases List.eq_nil_or_concat x with rfl | ⟨x, c, rfl⟩
    · exact front
    · obtain rfl : c = mark := parted c (by simp)
      rw [List.concat_eq_append, List.append_assoc, List.singleton_append, cut_append]
      exact List.mem_append_right _ front

end Lists

end Text

end EmitterLogic
