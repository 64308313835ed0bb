import EmitterLogic.Proofs.Tick.Trails

namespace EmitterLogic.Tick

open Text

variable {c : Char} {e g k s t u v x y note : List Char} {q : Quoting}

section Else

def EndsElse (s : List Char) : Prop := (wordBehind [] s).takeWhile isWordChar = "else".toList

theorem isElse_iff : Listing.isElse s = true ↔
    s = "else".toList ∨ ∃ r, s = "else".toList ++ ' ' :: r := by
  rw [Listing.isElse, Bool.or_eq_true, beq_iff_eq, List.isPrefixOf_iff_prefix]
  exact or_congr_right ⟨fun ⟨r, whole⟩ => ⟨r, whole.symm⟩, fun ⟨r, whole⟩ => ⟨r, whole.symm⟩⟩

theorem wordBehind_tabs {w : List Char} (some : w.any isBlank = true) (blank : Blank g) :
    wordBehind w g = w ++ g := by
  induction g generalizing w with
  | nil => exact (List.append_nil w).symm
  | cons c g ih =>
    obtain ⟨first, rest⟩ := List.forall_mem_cons.mp blank
    have shown : w.isEmpty = false := by
      cases w with
      | nil => cases some
      | cons d w => rfl
    have next : wordAfter w c = w ++ [c] := by
      rw [wordAfter, not_wordChar_of_blank first, first, some, shown]
      simp
    rw [wordBehind, List.foldl_cons, next]
    refine (ih ?_ rest).trans (List.append_assoc ..)
    rw [List.any_append, some, Bool.true_or]

theorem isElse_comment (visible : x ≠ []) (blank : Blank g) (word : ¬EndsElse (x ++ g)) :
    Listing.isElse (x ++ (g ++ '/' :: '/' :: note)) = Listing.isElse x := by
  rw [Bool.eq_iff_iff, isElse_iff, isElse_iff]
  constructor
  · rintro (same | ⟨r, same⟩)
    · have slash : '/' ∈ "else".toList := same ▸ by simp
      exact absurd slash (by decide)
    · rcases List.append_eq_append_iff.mp same with ⟨d, front, back⟩ | ⟨d, front, back⟩
      · cases d with
        | nil => exact .inl (by rw [front, List.append_nil])
        | cons c d =>
          exfalso
          have letter : c ∈ "else".toList := front ▸ by simp
          cases g with
          | nil =>
            obtain rfl := (List.cons.inj back).1
            exact absurd letter (by decide)
          | cons b g =>
            obtain rfl := (List.cons.inj back).1
            have white := blank b List.mem_cons_self
            have visible : ∀ c ∈ "else".toList, isBlank c = false := by decide
            rw [visible b letter] at white
            cases white
      · cases d with
        | nil => exact .inl (by rw [front, List.append_nil])
        | cons c d =>
          obtain rfl := (List.cons.inj back).1
          exact .inr ⟨d, front⟩
  · rintro (rfl | ⟨r, rfl⟩)
    · cases g with
      | nil => exact absurd (by unfold EndsElse; decide) word
      | cons c g =>
        by_cases space : c = ' '
        · subst space
          exact .inr ⟨_, rfl⟩
        · exfalso
          obtain ⟨first, rest⟩ := List.forall_mem_cons.mp blank
          have next : wordAfter "else".toList c = "else".toList ++ [c] := by
            rw [wordAfter, not_wordChar_of_blank first, first]
            simp [space]
          have tab : ("else".toList ++ [c]).any isBlank = true := by
            rw [List.any_append, List.any_cons, first, Bool.true_or, Bool.or_true]
          refine word ?_
          have whole : wordBehind [] "else".toList = "else".toList := by decide
          rw [EndsElse, wordBehind_append, whole, wordBehind, List.foldl_cons, next, ← wordBehind,
            wordBehind_tabs tab rest, List.append_assoc]
          have letters : ∀ d ∈ "else".toList, isWordChar d = true := by decide
          refine Script.takeWhile_append_stop letters fun d head => ?_
          obtain rfl := Option.some.inj head
          exact not_wordChar_of_blank first
    · exact .inr ⟨_, by rw [List.append_assoc]; rfl⟩

end Else

section Tidied

theorem IsUnit.not_idle (h : IsUnit u) : ¬Idle u := by
  intro idle
  cases h with
  | close => exact absurd (idle closeBrace List.mem_cons_self) (by decide)
  | piece trimmed some whole =>
    obtain ⟨c, u, rfl⟩ := List.exists_cons_of_ne_nil some
    have first := idle c List.mem_cons_self
    rw [isIdle, trim_head trimmed, Bool.false_or, beq_iff_eq] at first
    subst first
    cases whole.1 rfl
  | opening trimmed whole closed =>
    exact absurd (idle openBrace (List.mem_append_right _ List.mem_cons_self)) (by decide)

theorem IsUnit.trimmed (h : IsUnit u) : trim u = u := by
  cases h with
  | close => decide
  | piece trimmed _ _ => exact trimmed
  | opening trimmed _ _ => exact trimmed

theorem IsUnit.tidy_ne_nil (h : IsUnit u) (unbroken : '\n' ∉ u) : tidy u ≠ [] := by
  intro none
  obtain ⟨k, blank, -, alike⟩ := exists_tidy_alike h.trimmed unbroken
  have same := alike.phase
  rw [none, List.nil_append] at same
  refine h.not_idle ((phase_visible false).mp ?_)
  rw [same]
  exact (phase_visible false).mpr (idle_of_blank blank)

theorem Phase.brace_behind (p : Phase) (idle : Idle s) : (p.behind asks s).brace = p.brace := by
  refine p.behind_idle (fun p c idle => ?_) idle
  rw [after, idle]
  rfl

theorem phase_brace (idle : Idle e) : (phase asks (s ++ c :: e)).brace =
    if isIdle c then (phase asks s).brace
    else if c == openBrace || c == closeBrace then some c else none := by
  rw [phase_append]
  exact Phase.brace_behind _ idle

theorem IsUnit.eq_close (h : IsUnit u) (unbroken : '\n' ∉ u) (close : trim (tidy u) = [closeBrace]) :
    u = [closeBrace] := by
  obtain ⟨k, blank, -, alike⟩ := exists_tidy_alike h.trimmed unbroken
  obtain ⟨g, g', front, back, split⟩ := trim_split (tidy u)
  rw [close] at split
  have same := alike.phase
  have white : Blank (g' ++ k) := back.append blank
  have text : tidy u ++ k = g ++ closeBrace :: (g' ++ k) := by rw [split]; simp
  rw [text] at same
  cases h with
  | close => rfl
  | piece trimmed some whole =>
    have inside := (phase_whole false).mpr whole
    rw [same, phase_whole, undivided_append, Quoting.behind_of_blank front] at inside
    cases inside.2.1 rfl
  | opening trimmed whole closed =>
    have last := congrArg Phase.brace same
    have idle : isIdle closeBrace = false ∧ isIdle openBrace = false := by decide
    rw [phase_brace (idle_of_blank white), phase_brace (List.forall_mem_nil _), idle.1, idle.2,
      if_neg Bool.false_ne_true, if_neg Bool.false_ne_true] at last
    exact absurd last (by decide)

theorem trim_lead (blank : Blank g) (s : List Char) : trim (g ++ s) = trim s := by
  rw [trim, trim, trimStart, trimStart, List.dropWhile_append_of_pos blank]

def isClose (line : List Char) : Bool := trim line == [closeBrace]

theorem isClose_iff : isClose s = true ↔ trim s = [closeBrace] := beq_iff_eq

theorem not_isClose (member : c ∈ s) (visible : isBlank c = false) (other : c ≠ closeBrace) :
    isClose s = false := by
  rw [isClose, beq_eq_false_iff_ne]
  intro close
  obtain ⟨g, g', front, back, split⟩ := trim_split s
  rw [close] at split
  rw [split, List.mem_append, List.mem_append, List.mem_singleton] at member
  rcases member with inside | same | inside
  · rw [front c inside] at visible
    cases visible
  · exact other same
  · rw [back c inside] at visible
    cases visible

structure Commented (x t : List Char) : Prop where
  isElse : Listing.isElse (x ++ t) = Listing.isElse x
  code : ∀ g, Quoting.plain.behind g = .plain → codeOf (g ++ (x ++ t)) = codeOf (g ++ x)
  opens : (x ++ t).getLast? ≠ some openBrace ∧ x.getLast? ≠ some openBrace
  slash : '/' ∈ t
  unbroken : '\n' ∉ t

theorem Undivided.last (whole : Undivided .plain s) (closed : Quoting.plain.behind s = .plain) :
    s.getLast? ≠ some openBrace := by
  intro last
  obtain ⟨a, rfl⟩ := List.getLast?_eq_some_iff.mp last
  have outside : Quoting.plain.behind a = .plain := by
    rw [Quoting.behind_append] at closed
    exact (Quoting.marked_behind a).plain_of_behind (List.forall_mem_singleton.mpr (by decide)) closed
  rw [undivided_append, outside] at whole
  cases whole.2.1 rfl

theorem closed_of_idle (closed : Quoting.plain.behind (s ++ e) = .plain) (idle : Idle e) :
    Quoting.plain.behind s = .plain := by
  rw [Quoting.behind_append] at closed
  refine (Quoting.marked_behind s).plain_of_behind (fun c member => ?_) closed
  exact not_quote_of (p := isIdle) (by decide) (idle c member)

theorem last_of_comment (quiet : Quiet note) (s : List Char) :
    (s ++ '/' :: '/' :: note).getLast? ≠ some openBrace := by
  intro last
  rw [List.getLast?_append_of_ne_nil _ (List.cons_ne_nil _ _)] at last
  have member := List.mem_of_getLast? last
  simp only [List.mem_cons] at member
  rcases member with same | same | inside
  · exact absurd same (by decide)
  · exact absurd same (by decide)
  · cases (quiet _ inside).2

theorem Trailed.commented_of_alike {g' : List Char} (h : Trailed u g) (tail : IsTail g' note)
    (blank : Blank g) (blank' : Blank g') (word : ¬EndsElse (u ++ g)) (visible : x ≠ [])
    (alike : Alike false u (x ++ k)) (alike' : Alike false (u ++ g) (x ++ g')) :
    Commented x (g' ++ '/' :: '/' :: note) := by
  have agree := alike'.phase
  have closed : Quoting.plain.behind x = .plain := by
    refine closed_of_idle ?_ (idle_of_blank blank')
    rw [← phase_quoting false, ← agree, phase_quoting, Quoting.behind_append, h.closed,
      Quoting.behind_of_blank blank]
  have single : (x ++ g').getLast? ≠ some '/' := by
    rw [ne_eq, ← phase_slash false, ← agree, phase_slash]
    exact h.single
  have other : ¬EndsElse (x ++ g') := by
    rw [EndsElse, ← phase_word false, ← agree, phase_word]
    exact word
  have whole : Undivided .plain x := by
    have inside := (phase_whole false).mpr h.whole
    rw [alike.phase, phase_whole, undivided_append] at inside
    exact inside.1
  refine ⟨isElse_comment visible blank' other, fun lead plain => ?_, ⟨?_, whole.last closed⟩, ?_, ?_⟩
  · rw [← List.append_assoc]
    refine codeOf_comment ?_ blank' ?_ note
    · rw [Quoting.behind_append, plain, closed]
    · rw [List.append_assoc, List.getLast?_append_of_ne_nil _ (List.append_ne_nil_of_left_ne_nil visible g')]
      exact single
  · rw [← List.append_assoc]
    exact last_of_comment tail.quiet _
  · exact List.mem_append_right g' List.mem_cons_self
  · exact tail.not_mem_newline (s := []) List.not_mem_nil

theorem Trailed.commented (h : Trailed u g) (unbroken : '\n' ∉ u) (tail : IsTail g note) (blank : Blank g)
    (word : ¬EndsElse (u ++ g)) :
    ∃ t, tidy (u ++ (g ++ '/' :: '/' :: note)) = tidy u ++ t ∧ Commented (tidy u) t := by
  have visible : tidy u ≠ [] := (IsUnit.piece h.trimmed h.visible h.whole).tidy_ne_nil unbroken
  obtain ⟨g', note', tail', blank', same, alike'⟩ :=
    tidy_comment h.trimmed unbroken tail blank fun none => absurd none h.visible
  obtain ⟨k, -, -, alike⟩ := exists_tidy_alike h.trimmed unbroken
  exact ⟨_, same, h.commented_of_alike tail' blank blank' word visible alike alike'⟩

theorem tidy_note (quiet : Quiet note) : ∃ g note', Blank g ∧ Quiet note' ∧ '\n' ∉ g ∧
    tidy ('/' :: '/' :: note) = g ++ '/' :: '/' :: note' := by
  obtain ⟨g, note', tail, blank, same, -⟩ := tidy_comment (u := []) (g := []) (by decide) List.not_mem_nil
    ⟨List.forall_mem_nil _, List.not_mem_nil, quiet⟩ (List.forall_mem_nil _) fun _ => rfl
  have none : tidy [] = [] := by decide
  rw [none] at same
  exact ⟨g, note', blank, tail.quiet, tail.unbroken, same⟩

end Tidied

end EmitterLogic.Tick
