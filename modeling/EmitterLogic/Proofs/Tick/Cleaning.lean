import EmitterLogic.Proofs.Text.Search
import EmitterLogic.Tick.Check

namespace EmitterLogic

namespace Text

def longBreak : List Char := ['\r', '\n']

def plainBreaks : List Char → List Char
  | '\r' :: '\n' :: rest => '\n' :: plainBreaks rest
  | c :: rest => c :: plainBreaks rest
  | [] => []

theorem longBreak_prefix_iff {c : Char} {rest : List Char} :
    longBreak <+: c :: rest ↔ ∃ more, c = '\r' ∧ rest = '\n' :: more := by
  constructor
  · rintro ⟨more, whole⟩
    cases whole
    exact ⟨more, rfl, rfl⟩
  · rintro ⟨more, rfl, rfl⟩
    exact ⟨more, rfl⟩

theorem dropWord?_longBreak {c : Char} {rest : List Char} (other : ¬longBreak <+: c :: rest) :
    dropWord? longBreak (c :: rest) = none := by
  rw [longBreak_prefix_iff] at other
  refine ite_eq_right_iff.mpr fun first => ?_
  cases rest with
  | nil => rfl
  | cons d more =>
    refine if_neg fun second => other ⟨more, ?_, ?_⟩
    · exact (beq_iff_eq.mp first).symm
    · rw [beq_iff_eq.mp second]

theorem plainBreaks_cons {c : Char} {rest : List Char} (other : ¬longBreak <+: c :: rest) :
    plainBreaks (c :: rest) = c :: plainBreaks rest := by
  rw [longBreak_prefix_iff] at other
  rw [plainBreaks]
  exact fun more first second => other ⟨more, first, second⟩

theorem breaks_induction {P : List Char → Prop} (nil : P [])
    (long : ∀ rest, P rest → P ('\r' :: '\n' :: rest))
    (cons : ∀ c rest, ¬longBreak <+: c :: rest → P rest → P (c :: rest)) (s : List Char) : P s := by
  induction s using plainBreaks.induct with
  | case1 rest ih => exact long rest ih
  | case2 c rest other ih =>
    refine cons c rest (fun both => ?_) ih
    obtain ⟨more, first, second⟩ := longBreak_prefix_iff.mp both
    exact other more first second
  | case3 => exact nil

theorem replaceText_breaks (s : String) :
    (replaceText "\r\n" "\n" s).toList = plainBreaks s.toList := by
  rw [replaceText, String.toList_ofList, replaceAll]
  generalize (none : Option Char) = before
  generalize s.toList = cs
  induction cs using breaks_induction generalizing before with
  | nil => rfl
  | long rest ih =>
    rw [plainBreaks, ← ih (some '\n')]
    rfl
  | cons c rest other ih =>
    have here : dropWord? "\r\n".toList (c :: rest) = none := dropWord?_longBreak other
    rw [replaceFrom, here, plainBreaks_cons other, ← ih (some c)]
    rfl

theorem plainBreaks_eq_iff (s : List Char) : plainBreaks s = s ↔ ¬longBreak <:+: s := by
  induction s using breaks_induction with
  | nil => exact iff_of_true rfl (by decide)
  | long rest ih =>
    refine iff_of_false (fun same => ?_) (not_not_intro ⟨[], rest, rfl⟩)
    have first := (List.cons.inj same).1
    exact absurd first (by decide)
  | cons c rest other ih =>
    rw [plainBreaks_cons other, List.cons_inj_right, ih, List.infix_cons_iff]
    exact ⟨fun none both => both.elim other none, fun none later => none (.inr later)⟩

theorem plainBreaks_head? {s : List Char} (h : s.head? ≠ some '\r') :
    (plainBreaks s).head? = s.head? := by
  induction s using breaks_induction with
  | nil => rfl
  | long rest => exact absurd rfl h
  | cons c rest other => rw [plainBreaks_cons other, List.head?_cons, List.head?_cons]

theorem plainBreaks_getLast? (s : List Char) : (plainBreaks s).getLast? = s.getLast? := by
  induction s using breaks_induction with
  | nil => rfl
  | long rest ih =>
    rw [plainBreaks, List.getLast?_cons, List.getLast?_cons, List.getLast?_cons, ih,
      Option.getD_some]
  | cons c rest other ih => rw [plainBreaks_cons other, List.getLast?_cons, List.getLast?_cons, ih]

theorem trim_plainBreaks {s : List Char} (h : trim s = s) : trim (plainBreaks s) = plainBreaks s := by
  have first : s.head? ≠ some '\r' := by
    intro head
    have visible : isBlank '\r' = false := trim_first '\r' (by rw [h]; exact head)
    exact absurd visible (by decide)
  refine trim_of_ends ?_ ?_
  · rw [plainBreaks_head? first, ← h]
    exact trim_first
  · rw [plainBreaks_getLast?, ← h]
    exact trim_last

theorem trimEnd_congr {s t : List Char} (c : Char) (h : trimEnd s = trimEnd t) :
    trimEnd (c :: s) = trimEnd (c :: t) := by
  have inner : s.reverse.dropWhile isBlank = t.reverse.dropWhile isBlank :=
    List.reverse_inj.mp h
  rw [trimEnd, trimEnd, List.reverse_cons, List.reverse_cons, List.dropWhile_append,
    List.dropWhile_append, inner]

theorem cut_break (mark : Char) (s : List Char) : cut mark (mark :: s) = [] :: cut mark s :=
  if_pos (beq_self_eq_true mark)

theorem cut_cons {mark c : Char} {s piece : List Char} {pieces : List (List Char)}
    (other : c ≠ mark) (h : cut mark s = piece :: pieces) :
    cut mark (c :: s) = (c :: piece) :: pieces := by
  have there : ¬(c == mark) = true := fun same => other (beq_iff_eq.mp same)
  rw [cut, if_neg there, h]

theorem exists_cut (mark : Char) (s : List Char) : ∃ piece pieces, cut mark s = piece :: pieces := by
  induction s with
  | nil => exact ⟨[], [], rfl⟩
  | cons c s ih =>
    by_cases same : c = mark
    · subst same
      exact ⟨[], cut c s, cut_break c s⟩
    · obtain ⟨piece, pieces, found⟩ := ih
      exact ⟨c :: piece, pieces, cut_cons same found⟩

theorem cut_plainBreaks (s : List Char) :
    (cut '\n' (plainBreaks s)).map trimEnd = (cut '\n' s).map trimEnd := by
  induction s using breaks_induction with
  | nil => rfl
  | long rest ih =>
    have before : cut '\n' ('\r' :: '\n' :: rest) = ['\r'] :: cut '\n' rest :=
      cut_cons (by decide) (cut_break '\n' rest)
    have blank : trimEnd ['\r'] = trimEnd [] := by decide
    rw [plainBreaks, cut_break, before, List.map_cons, List.map_cons, ih, blank]
  | cons c rest other ih =>
    rw [plainBreaks_cons other]
    by_cases same : c = '\n'
    · subst same
      rw [cut_break, cut_break, List.map_cons, List.map_cons, ih]
    · obtain ⟨p, ps, found⟩ := exists_cut '\n' (plainBreaks rest)
      obtain ⟨q, qs, found'⟩ := exists_cut '\n' rest
      rw [found, found', List.map_cons, List.map_cons] at ih
      obtain ⟨first, others⟩ := List.cons.inj ih
      rw [cut_cons same found, cut_cons same found', List.map_cons, List.map_cons, others,
        trimEnd_congr c first]

end Text

namespace Tick

open Text

def IsClean (s : String) : Prop := trim s.toList = s.toList

theorem isClean_cleanSource (text : String) : IsClean (cleanSource text) := by
  rw [IsClean, cleanSource, trimmed, String.toList_ofList, trim_trim]

theorem toList_cleanSource {s : String} (clean : IsClean s) :
    (cleanSource s).toList = plainBreaks s.toList := by
  rw [cleanSource, trimmed, String.toList_ofList, replaceText_breaks, trim_plainBreaks clean]

theorem cleanSource_eq_iff {s : String} (clean : IsClean s) :
    cleanSource s = s ↔ ¬longBreak <:+: s.toList := by
  rw [← String.toList_inj, toList_cleanSource clean, plainBreaks_eq_iff]

theorem isEmpty_cleanSource {s : String} (clean : IsClean s) :
    (cleanSource s).isEmpty = s.isEmpty := by
  have last := plainBreaks_getLast? s.toList
  rw [← toList_cleanSource clean] at last
  rw [Bool.eq_iff_iff, String.isEmpty_iff, String.isEmpty_iff, ← String.toList_eq_nil_iff,
    ← String.toList_eq_nil_iff, ← List.getLast?_eq_none_iff, last, List.getLast?_eq_none_iff]

end Tick

end EmitterLogic
