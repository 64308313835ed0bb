import EmitterLogic.Proofs.Tick.CommentedLine
import EmitterLogic.Tick.Kotlin

namespace EmitterLogic.Tick

open Text

variable {c : Char} {e g k s t u v x y note : List Char} {q : Quoting}

section Units

def tidies : List (Matcher (List Char)) :=
  [fun _ s => (dropWord? "===".toList s).map fun _ => ("===".length, "==".toList),
    fun _ s => (dropWord? "!==".toList s).map fun _ => ("!==".length, "!=".toList),
    spacedWord, spacedPair ')' (dropSign? '\x7b') ") \x7b",
    spacedPair '\x7d' (wholeWord? "else") "\x7d else"]

theorem mild_tidies : ∀ m ∈ tidies, Mild m := by
  simp only [tidies, List.forall_mem_cons]
  refine ⟨?_, ?_, mild_spacedWord, mild_openingBrace, mild_closingBrace, List.forall_mem_nil _⟩
  · exact mild_text (by decide) (by decide) (by decide) ⟨'=', _, _, rfl, rfl, by decide⟩
  · exact mild_text (by decide) (by decide) (by decide) ⟨'!', _, _, rfl, rfl, by decide⟩

theorem mild_heads : ∀ m ∈ [afterWord ["fun"] (namedHead "fun")], Mild m := by
  refine List.forall_mem_singleton.mpr (mild_namedHead ?_ ?_)
  · unfold IsLettered
    decide
  · unfold IsTarget IsLettered
    decide

def inOrder (s : List Char) : List Char := rewritten [afterWord ["fun"] (namedHead "fun")]
  (replaceAll spacedComma (rewritten tidies s))

theorem tidy_eq (s : List Char) : tidy s = trimEnd (inOrder (trim s)) := by
  rw [tidy, replaceText, replaceText]
  simp only [String.toList_ofList]
  rfl

theorem unbroken_inOrder (unbroken : '\n' ∉ s) : '\n' ∉ inOrder s := by
  have first := not_mem_rewritten mild_tidies (by decide) unbroken
  exact not_mem_rewritten mild_heads (by decide) (gentle_spacedComma.not_mem none (by decide) first)

theorem alike_inOrder (unbroken : '\n' ∉ s) (asks : Bool) : Alike asks s (inOrder s) := by
  have first := not_mem_rewritten mild_tidies (by decide) unbroken
  have second := gentle_spacedComma.not_mem none (by decide) first
  exact ((alike_rewritten mild_tidies unbroken asks).trans (gentle_spacedComma.alike asks first)).trans
    (alike_rewritten mild_heads second asks)

theorem inOrder_comment (tail : IsTail g note) (blank : Blank g) (unbroken : '\n' ∉ s) :
    ∃ g' note', IsTail g' note' ∧ Blank g' ∧
      inOrder (s ++ (g ++ '/' :: '/' :: note)) = inOrder s ++ (g' ++ '/' :: '/' :: note') ∧
      ∀ asks, Alike asks (s ++ g) (inOrder s ++ g') := by
  have first := not_mem_rewritten mild_tidies (by decide) unbroken
  obtain ⟨note₁, tail₁, -, same₁⟩ := rewritten_comment mild_tidies tail s
  obtain ⟨g', blank', plain, same₂, alike⟩ :=
    spacedComma_comment blank tail.unbroken none (rewritten tidies s) note₁ first
  have tail₂ : IsTail g' (replaceFrom spacedComma (some '/') 0 note₁) :=
    ⟨idle_of_blank blank', plain, tail₁.quiet.replaceFrom gentle_spacedComma _⟩
  obtain ⟨note₃, tail₃, -, same₃⟩ := rewritten_comment mild_heads tail₂
    (replaceAll spacedComma (rewritten tidies s))
  have second := gentle_spacedComma.not_mem none (by decide) first
  refine ⟨g', note₃, tail₃, blank', ?_, fun asks => ?_⟩
  · rw [inOrder, same₁, replaceAll, same₂]
    exact same₃
  · exact (((alike_rewritten mild_tidies unbroken asks).append (.rfl' g)).trans (alike asks)).trans
      ((alike_rewritten mild_heads second asks).append (.rfl' g'))

theorem exists_tidy_alike (trimmed : trim u = u) (unbroken : '\n' ∉ u) :
    ∃ k, Blank k ∧ '\n' ∉ tidy u ∧ Alike false u (tidy u ++ k) := by
  obtain ⟨k, blank, ends⟩ := trimEnd_split (inOrder u)
  rw [tidy_eq, trimmed]
  refine ⟨k, blank, fun member => unbroken_inOrder unbroken (mem_trimEnd member), ?_⟩
  rw [← ends]
  exact alike_inOrder unbroken false

theorem tidy_comment (trimmed : trim u = u) (unbroken : '\n' ∉ u) (tail : IsTail g note) (blank : Blank g)
    (front : u = [] → g = []) :
    ∃ g' note', IsTail g' note' ∧ Blank g' ∧
      tidy (u ++ (g ++ '/' :: '/' :: note)) = tidy u ++ (g' ++ '/' :: '/' :: note') ∧
      Alike false (u ++ g) (tidy u ++ g') := by
  have shown : Shown (u ++ (g ++ '/' :: '/' :: note)) := by
    intro c head
    cases u with
    | nil =>
      rw [front rfl] at head
      exact Option.some.inj head ▸ (by decide)
    | cons d u =>
      obtain rfl := Option.some.inj head
      exact trim_head trimmed
  have start : trim (u ++ (g ++ '/' :: '/' :: note)) = u ++ (g ++ '/' :: '/' :: trimEnd note) := by
    have kept := trimStart_append (g := []) (List.forall_mem_nil _) shown
    rw [List.nil_append] at kept
    rw [trim, kept, ← List.append_assoc, trimEnd_comment, List.append_assoc]
  have trimmed' : IsTail g (trimEnd note) := ⟨tail.idle, tail.unbroken, tail.quiet.trimEnd⟩
  obtain ⟨g', note', tail', blank', same, alike⟩ := inOrder_comment trimmed' blank unbroken
  obtain ⟨k, white, ends⟩ := trimEnd_split (inOrder u)
  have inLine : '\n' ∉ k := fun member =>
    unbroken_inOrder unbroken (ends ▸ List.mem_append_right _ member)
  have quiet := tail'.quiet.trimEnd
  refine ⟨k ++ g', trimEnd note', tail'.append white inLine quiet, white.append blank', ?_, ?_⟩
  · rw [tidy_eq, start, same, ← List.append_assoc, trimEnd_comment, tidy_eq, trimmed]
    calc inOrder u ++ g' ++ '/' :: '/' :: trimEnd note' =
          trimEnd (inOrder u) ++ k ++ g' ++ '/' :: '/' :: trimEnd note' := by rw [← ends]
      _ = _ := by simp only [List.append_assoc]
  · rw [tidy_eq, trimmed, ← List.append_assoc, ← ends]
    exact alike false

end Units

section Codes

/-- What a text holds in front of its comment. -/
def codeFrom : Quoting → List Char → List Char
  | _, [] => []
  | q, c :: rest =>
    if q = .plain ∧ c = '/' ∧ rest.head? = some '/' then [] else c :: codeFrom (q.after c) rest

/-- The code of a line: what stands in front of its comment, without the blanks at its end. -/
def codeOf (line : List Char) : List Char := trimEnd (codeFrom .plain line)

/-- The lines that hold code, without their comments. -/
def codeLines (lines : List (List Char)) : List (List Char) := (lines.map codeOf).filter (!·.isEmpty)

theorem codeFrom_comment (closed : q.behind s = .plain) (single : s.getLast? ≠ some '/') (note : List Char) :
    codeFrom q (s ++ '/' :: '/' :: note) = codeFrom q s := by
  induction s generalizing q with
  | nil =>
    obtain rfl : q = .plain := closed
    exact if_pos ⟨rfl, rfl, rfl⟩
  | cons c s ih =>
    have next : (q = .plain ∧ c = '/' ∧ (s ++ '/' :: '/' :: note).head? = some '/') ↔
        (q = .plain ∧ c = '/' ∧ s.head? = some '/') := by
      cases s with
      | nil =>
        refine iff_of_false (fun both => single ?_) nofun
        rw [both.2.1]
        rfl
      | cons d s => exact Iff.rfl
    have single' : s.getLast? ≠ some '/' := by
      cases s with
      | nil => nofun
      | cons d s => rwa [List.getLast?_cons_cons] at single
    rw [List.cons_append, codeFrom, codeFrom]
    simp only [next]
    rw [ih (q := q.after c) closed single']

theorem trimEnd_blank (blank : Blank g) (s : List Char) : trimEnd (s ++ g) = trimEnd s := by
  have after : ∀ c ∈ g.reverse, isBlank c = true := fun c member => blank c (List.mem_reverse.mp member)
  rw [trimEnd, trimEnd, List.reverse_append, List.dropWhile_append_of_pos after]

theorem codeFrom_blank (blank : Blank g) (q : Quoting) :
    trimEnd (codeFrom q (s ++ g)) = trimEnd (codeFrom q s) := by
  have ends : codeFrom q (s ++ g) = codeFrom q s ∨ codeFrom q (s ++ g) = codeFrom q s ++ g := by
    induction s generalizing q with
    | nil =>
      right
      rw [List.nil_append, codeFrom, List.nil_append]
      induction g generalizing q with
      | nil => rfl
      | cons c g ih =>
        obtain ⟨first, rest⟩ := List.forall_mem_cons.mp blank
        have other : ¬(q = .plain ∧ c = '/' ∧ g.head? = some '/') := by
          rintro ⟨-, rfl, -⟩
          cases first
        rw [codeFrom, if_neg other, ih rest]
    | cons c s ih =>
      have next : (q = .plain ∧ c = '/' ∧ (s ++ g).head? = some '/') ↔
          (q = .plain ∧ c = '/' ∧ s.head? = some '/') := by
        cases s with
        | nil =>
          refine iff_of_false (fun both => ?_) nofun
          cases blank '/' (List.mem_of_mem_head? both.2.2)
        | cons d s => exact Iff.rfl
      rw [List.cons_append, codeFrom, codeFrom]
      simp only [next]
      split
      · exact .inl rfl
      · exact (ih (q.after c)).imp (congrArg (c :: ·)) (congrArg (c :: ·))
  rcases ends with same | same
  · rw [same]
  · rw [same, trimEnd_blank blank]

theorem codeOf_comment (closed : Quoting.plain.behind s = .plain) (blank : Blank g)
    (single : (s ++ g).getLast? ≠ some '/') (note : List Char) :
    codeOf (s ++ (g ++ '/' :: '/' :: note)) = codeOf s := by
  have closed' : Quoting.plain.behind (s ++ g) = .plain := by
    rw [Quoting.behind_append, closed, Quoting.behind_of_blank blank]
  rw [codeOf, ← List.append_assoc, codeFrom_comment closed' single, codeFrom_blank blank, codeOf]

theorem codeOf_note (blank : Blank g) (note : List Char) : codeOf (g ++ '/' :: '/' :: note) = [] := by
  have single : ([] ++ g).getLast? ≠ some '/' := fun last => by
    cases blank '/' (List.mem_of_mem_getLast? last)
  exact codeOf_comment (s := []) rfl blank single note

end Codes

section Trails

theorem divides_false_iff : divides c = false ↔ c ≠ openBrace ∧ c ≠ closeBrace ∧ c ≠ ';' ∧ c ≠ '\n' := by
  rw [divides, Bool.or_eq_false_iff, Bool.or_eq_false_iff, Bool.or_eq_false_iff, beq_eq_false_iff_ne,
    beq_eq_false_iff_ne, beq_eq_false_iff_ne, beq_eq_false_iff_ne, and_assoc, and_assoc]

def EndsClose (s : List Char) : Prop := ∃ a e, s = a ++ closeBrace :: e ∧ Idle e

theorem EndsClose.append (h : EndsClose s) (idle : Idle e) : EndsClose (s ++ e) := by
  obtain ⟨a, d, rfl, idle'⟩ := h
  exact ⟨a, d ++ e, by simp, List.forall_mem_append.mpr ⟨idle', idle⟩⟩

theorem idle_of_blank_cons (blank : Blank g) (h : isIdle c = true) : Idle (g ++ [c]) :=
  List.forall_mem_append.mpr ⟨idle_of_blank blank, List.forall_mem_singleton.mpr h⟩

theorem blank_of_unitOf (none : unitOf k = []) : Blank k.reverse := by
  rw [unitOf] at none
  split at none
  · next empty =>
    obtain ⟨g, g', blank, blank', split⟩ := trim_split k.reverse
    rw [List.isEmpty_iff.mp empty] at split
    rw [split]
    exact blank.append blank'
  · cases none

theorem unitOf_ne_close (whole : Undivided .plain k.reverse) (us : List (List Char)) :
    (us ++ unitOf k).getLast? = some [closeBrace] → unitOf k = [] := by
  intro last
  by_contra some
  obtain ⟨u, rest, one⟩ := List.exists_cons_of_ne_nil some
  have unit : trim k.reverse = u ∧ rest = [] := by
    rw [unitOf] at one
    split at one
    · cases one
    · cases one
      exact ⟨rfl, rfl⟩
  rw [List.getLast?_append_of_ne_nil _ some, one, unit.2, List.getLast?_singleton, Option.some_inj] at last
  have inside := whole.trim
  rw [unit.1, last] at inside
  cases inside.1 rfl

structure LastPiece (s : List Char) (us : List (List Char)) (a r : List Char) : Prop where
  split : s = a ++ r
  ends : ∀ c ∈ a.getLast?, divides c = true
  closed : Quoting.plain.behind a = .plain
  whole : Undivided .plain r
  idle : us = [] → Idle a
  close : us.getLast? = some [closeBrace] → EndsClose a
  units : ∀ t, units (s ++ t) = us ++ unitsFrom (Quoting.plain.behind s) r.reverse t

namespace LastPiece

variable {us vs : List (List Char)} {a r : List Char}

theorem behind (h : LastPiece s us a r) : Quoting.plain.behind s = Quoting.plain.behind r := by
  rw [h.split, Quoting.behind_append, h.closed]

theorem on (h : LastPiece s us a r) (on : Quoting.plain.behind s = .plain → divides c = false) :
    LastPiece (s ++ [c]) us a (r ++ [c]) where
  split := by rw [h.split, List.append_assoc]
  ends := h.ends
  closed := h.closed
  whole := by
    rw [undivided_append, ← h.behind]
    exact ⟨h.whole, on, trivial⟩
  idle := h.idle
  close := h.close
  units t := by
    rw [List.append_assoc, List.singleton_append, h.units, unitsFrom_on on,
      Quoting.behind_append _ s [c], List.reverse_append]
    rfl

theorem cut (h : LastPiece s us a r) (outside : Quoting.plain.behind s = .plain) (ends : divides c = true)
    (idle : us ++ vs = [] → Idle (s ++ [c]))
    (close : (us ++ vs).getLast? = some [closeBrace] → EndsClose (s ++ [c]))
    (read : ∀ t, unitsFrom .plain r.reverse (c :: t) = vs ++ unitsFrom .plain [] t) :
    LastPiece (s ++ [c]) (us ++ vs) (s ++ [c]) [] := by
  have plainly : Quoting.plain.behind (s ++ [c]) = .plain := by
    rw [Quoting.behind_append, outside]
    exact after_divided ends
  refine ⟨(List.append_nil _).symm, fun d last => ?_, plainly, trivial, idle, close, fun t => ?_⟩
  · rw [List.getLast?_concat] at last
    exact Option.some.inj last ▸ ends
  · rw [List.append_assoc, List.singleton_append, h.units, outside, read, plainly, List.append_assoc]
    rfl

theorem opens (h : LastPiece s us a r) (outside : Quoting.plain.behind s = .plain) :
    LastPiece (s ++ [openBrace]) (us ++ unitOf (openBrace :: r.reverse)) (s ++ [openBrace]) [] := by
  obtain ⟨u, one, inside⟩ : ∃ u, unitOf (openBrace :: r.reverse) = [u] ∧ openBrace ∈ u := by
    obtain ⟨g, g', blank, blank', split⟩ := trim_split (openBrace :: r.reverse).reverse
    have inside : openBrace ∈ trim (openBrace :: r.reverse).reverse := by
      have member : openBrace ∈ (openBrace :: r.reverse).reverse := by simp
      rw [split, List.mem_append, List.mem_append] at member
      rcases member with front | inside | back
      · cases blank _ front
      · exact inside
      · cases blank' _ back
    exact ⟨_, unitOf_eq rfl (List.ne_nil_of_mem inside), inside⟩
  rw [one]
  refine h.cut outside rfl (fun none => ?_) (fun last => ?_) fun t => ?_
  · exact absurd none (by simp)
  · rw [List.getLast?_concat, Option.some_inj] at last
    rw [last] at inside
    exact absurd inside (by decide)
  · rw [unitsFrom_open, one]

theorem closes (h : LastPiece s us a r) (outside : Quoting.plain.behind s = .plain) :
    LastPiece (s ++ [closeBrace]) (us ++ (unitOf r.reverse ++ [[closeBrace]])) (s ++ [closeBrace]) [] := by
  refine h.cut outside rfl (fun none => ?_) (fun _ => ?_) fun t => ?_
  · exact absurd none (by simp)
  · exact ⟨s, [], rfl, List.forall_mem_nil _⟩
  · rw [unitsFrom_close, List.append_assoc, List.singleton_append]

theorem separates (h : LastPiece s us a r) (outside : Quoting.plain.behind s = .plain)
    (separator : c = ';' ∨ c = '\n') :
    LastPiece (s ++ [c]) (us ++ unitOf r.reverse) (s ++ [c]) [] := by
  have idle : isIdle c = true := by rcases separator with rfl | rfl <;> rfl
  have here (none : unitOf r.reverse = []) : Blank r := List.reverse_reverse r ▸ blank_of_unitOf none
  refine h.cut outside (by rcases separator with rfl | rfl <;> rfl) (fun empty => ?_) (fun last => ?_)
    fun t => unitsFrom_separator separator r.reverse t
  · obtain ⟨first, second⟩ := List.append_eq_nil_iff.mp empty
    rw [h.split, List.append_assoc]
    exact List.forall_mem_append.mpr ⟨h.idle first, idle_of_blank_cons (here second) idle⟩
  · have nothing := unitOf_ne_close (by rw [List.reverse_reverse]; exact h.whole) us last
    rw [nothing, List.append_nil] at last
    rw [h.split, List.append_assoc]
    exact (h.close last).append (idle_of_blank_cons (here nothing) idle)

end LastPiece

theorem exists_last_piece (s : List Char) : ∃ us a r, LastPiece s us a r := by
  induction s using List.reverseRecOn with
  | nil => exact ⟨[], [], [], rfl, nofun, rfl, trivial, fun _ => List.forall_mem_nil _, nofun, fun t => rfl⟩
  | append_singleton s c ih =>
    obtain ⟨us, a, r, piece⟩ := ih
    rcases on_or_divided (Quoting.plain.behind s) c with on | ⟨outside, rfl | rfl | separator⟩
    · exact ⟨_, _, _, piece.on on⟩
    · exact ⟨_, _, _, piece.opens outside⟩
    · exact ⟨_, _, _, piece.closes outside⟩
    · exact ⟨_, _, _, piece.separates outside separator⟩

theorem units_ends (closed : Quoting.plain.behind s = .plain) : (units s = [] → Idle s) ∧
    ((units s).getLast? = some [closeBrace] → EndsClose s) := by
  obtain ⟨us, a, r, split, -, -, whole, none, close, all⟩ := exists_last_piece s
  have here := all []
  rw [List.append_nil, closed, unitsFrom_end] at here
  have rest (none : unitOf r.reverse = []) : Idle r :=
    idle_of_blank (List.reverse_reverse r ▸ blank_of_unitOf none)
  rw [here]
  constructor
  · intro empty
    obtain ⟨first, second⟩ := List.append_eq_nil_iff.mp empty
    rw [split]
    exact List.forall_mem_append.mpr ⟨none first, rest second⟩
  · intro last
    have nothing := unitOf_ne_close (by rwa [List.reverse_reverse]) us last
    rw [nothing, List.append_nil] at last
    rw [split]
    exact (close last).append (rest nothing)

theorem unitOf_blank (blank : isBlank c = true) (read : List Char) : unitOf (c :: read) = unitOf read := by
  obtain ⟨g, g', front, back, split⟩ := trim_split read.reverse
  have same : trim (c :: read).reverse = trim read.reverse := by
    have last : Blank (g' ++ [c]) := back.append (List.forall_mem_singleton.mpr blank)
    have whole : (c :: read).reverse = g ++ (trim read.reverse ++ (g' ++ [c])) := by
      rw [List.reverse_cons]
      calc read.reverse ++ [c] = g ++ (trim read.reverse ++ g') ++ [c] := congrArg (· ++ [c]) split
        _ = _ := by simp only [List.append_assoc]
    rw [whole]
    exact trim_padded front last trim_first trim_last
  rw [unitOf, unitOf, same]

theorem unitsFrom_idle (idle : Idle e) (read t : List Char) :
    unitsFrom .plain read (e ++ ';' :: t) = unitOf read ++ units t := by
  have none : unitOf [] = [] := rfl
  induction e generalizing read with
  | nil => exact unitsFrom_separator (.inl rfl) read t
  | cons c e ih =>
    obtain ⟨first, rest⟩ := List.forall_mem_cons.mp idle
    rw [isIdle, Bool.or_eq_true, beq_iff_eq] at first
    rw [List.cons_append]
    rcases first with blank | rfl
    · by_cases newline : c = '\n'
      · rw [unitsFrom_separator (.inr newline), ih rest, none, List.nil_append]
      · have on : divides c = false := by
          rw [divides_false_iff]
          refine ⟨?_, ?_, ?_, newline⟩ <;> rintro rfl <;> cases blank
        rw [unitsFrom_on fun _ => on, Quoting.after_of_blank blank, ih rest, unitOf_blank blank]
    · rw [unitsFrom_separator (.inl rfl), ih rest, none, List.nil_append]

theorem undivided_of_quiet (quiet : Quiet s) : Undivided .plain s ∧ Quoting.plain.behind s = .plain := by
  induction s with
  | nil => exact ⟨trivial, rfl⟩
  | cons c s ih =>
    obtain ⟨⟨quote, on⟩, rest⟩ := List.forall_mem_cons.mp quiet
    have still : Quoting.plain.after c = .plain := by
      rw [Quoting.after, quote]
      rfl
    rw [Undivided, still, Quoting.behind, List.foldl_cons, still]
    exact ⟨⟨fun _ => on, (ih rest).1⟩, (ih rest).2⟩

theorem quiet_blank (blank : Blank g) (unbroken : '\n' ∉ g) : Quiet g := by
  intro c member
  refine ⟨not_quote_of (by decide) (blank c member), ?_⟩
  rw [divides_false_iff]
  refine ⟨?_, ?_, ?_, fun newline => unbroken (newline ▸ member)⟩ <;> rintro rfl <;> cases blank _ member

theorem IsTail.quiet_whole (h : IsTail e note) (blank : Blank e) : Quiet (e ++ '/' :: '/' :: note) := by
  refine List.forall_mem_append.mpr ⟨quiet_blank blank h.unbroken, ?_⟩
  exact List.forall_mem_cons.mpr ⟨by decide, List.forall_mem_cons.mpr ⟨by decide, h.quiet⟩⟩

theorem blank_of_idle (idle : Idle e) (none : ';' ∉ e) : Blank e := by
  intro c member
  have idle := idle c member
  rw [isIdle, Bool.or_eq_true, beq_iff_eq] at idle
  exact idle.resolve_right fun same => none (same ▸ member)

theorem units_note (tail : IsTail e note) (blank : Blank e) :
    units (e ++ '/' :: '/' :: note) = ['/' :: '/' :: trimEnd note] := by
  have read := unitsFrom_undivided (undivided_of_quiet (tail.quiet_whole blank)).1 [] []
  rw [List.append_nil, List.append_nil, unitsFrom_end] at read
  rw [units, read]
  refine unitOf_eq ?_ (List.cons_ne_nil _ _)
  have first : Shown ('/' :: '/' :: note) := shown_sign (by decide)
  rw [List.reverse_reverse, trim, trimStart_append blank first]
  exact trimEnd_comment [] note

structure Trailed (u g : List Char) : Prop where
  trimmed : trim u = u
  visible : u ≠ []
  whole : Undivided .plain u
  closed : Quoting.plain.behind u = .plain
  single : (u ++ g).getLast? ≠ some '/'

theorem wordBehind_divided (ends : ∀ c ∈ s.getLast?, divides c = true) (unbroken : '\n' ∉ s) :
    wordBehind [] s = [] := by
  rcases List.eq_nil_or_concat s with rfl | ⟨s, c, rfl⟩
  · rfl
  · rw [List.concat_eq_append] at ends unbroken ⊢
    have divided := ends c List.getLast?_concat
    have newline : c ≠ '\n' := by
      rintro rfl
      exact unbroken (List.mem_append_right s List.mem_cons_self)
    rw [divides, Bool.or_eq_true, Bool.or_eq_true, Bool.or_eq_true, beq_iff_eq, beq_iff_eq, beq_iff_eq,
      beq_iff_eq] at divided
    rcases divided with ((rfl | rfl) | rfl) | rfl
    · exact wordBehind_last (by decide) (by decide) [] s
    · exact wordBehind_last (by decide) (by decide) [] s
    · exact wordBehind_last (by decide) (by decide) [] s
    · exact absurd rfl newline

theorem last_split (member : c ∈ s) : ∃ a b, s = a ++ c :: b ∧ c ∉ b := by
  obtain ⟨a, b, split, none⟩ := List.eq_append_cons_of_mem (List.mem_reverse.mpr member)
  refine ⟨b.reverse, a.reverse, ?_, fun inside => none (List.mem_reverse.mp inside)⟩
  rw [← List.reverse_reverse s, split, List.reverse_append, List.reverse_cons, List.append_assoc]
  rfl

theorem unitOf_of_blank (blank : Blank s) : unitOf s.reverse = [] := by
  have trimmed := trim_padded blank (List.forall_mem_nil _) (s := []) nofun nofun
  rw [List.append_nil, List.append_nil] at trimmed
  rw [unitOf, List.reverse_reverse, trimmed]
  rfl

theorem unitOf_comment (blank : Blank s) (note : List Char) :
    unitOf (s ++ '/' :: '/' :: note).reverse = ['/' :: '/' :: trimEnd note] := by
  refine unitOf_eq ?_ (List.cons_ne_nil _ _)
  have first : Shown ('/' :: '/' :: note) := shown_sign (by decide)
  rw [List.reverse_reverse, trim, trimStart_append blank first]
  exact trimEnd_comment [] note

theorem units_comment (closed : Quoting.plain.behind k = .plain) (unbroken : '\n' ∉ k)
    (tail : IsTail e note) (single : (k ++ e).getLast? ≠ some '/') :
    ∃ g note', IsTail g note' ∧ Blank g ∧
      ((g = [] ∧ units (k ++ (e ++ '/' :: '/' :: note)) = units k ++ ['/' :: '/' :: note']) ∨
        ∃ us u, Trailed u g ∧ units k = us ++ [u] ∧
          units (k ++ (e ++ '/' :: '/' :: note)) = us ++ [u ++ (g ++ '/' :: '/' :: note')] ∧
          wordBehind [] (u ++ g) = wordBehind [] (k ++ e)) := by
  obtain ⟨us, a, r, split, ends, closed', whole, -, -, all⟩ := exists_last_piece k
  have alone : IsTail [] (trimEnd note) := ⟨List.forall_mem_nil _, List.not_mem_nil, tail.quiet.trimEnd⟩
  have here := all []
  rw [List.append_nil, closed, unitsFrom_end] at here
  by_cases semicolon : ';' ∈ e
  · obtain ⟨b, d, rfl, last⟩ := last_split semicolon
    obtain ⟨before, after⟩ := List.forall_mem_append.mp tail.idle
    have tail' : IsTail d note := by
      refine ⟨(List.forall_mem_cons.mp after).2, fun member => tail.unbroken ?_, tail.quiet⟩
      exact List.mem_append_right b (List.mem_cons_of_mem _ member)
    refine ⟨[], trimEnd note, alone, List.forall_mem_nil _, .inl ⟨rfl, ?_⟩⟩
    rw [all, closed, here, List.append_assoc b, List.cons_append, unitsFrom_idle before,
      units_note tail' (blank_of_idle tail'.idle last), List.append_assoc]
  · have blank := blank_of_idle tail.idle semicolon
    have read : units (k ++ (e ++ '/' :: '/' :: note)) =
        us ++ unitOf (r ++ (e ++ '/' :: '/' :: note)).reverse := by
      obtain ⟨on, still⟩ := undivided_of_quiet (tail.quiet_whole blank)
      have rest := unitsFrom_undivided on r.reverse []
      rw [List.append_nil, still, unitsFrom_end, ← List.reverse_append] at rest
      rw [all, closed, rest]
    by_cases nothing : Blank r
    · refine ⟨[], trimEnd note, alone, List.forall_mem_nil _, .inl ⟨rfl, ?_⟩⟩
      rw [read, here, unitOf_of_blank nothing, List.append_nil, ← List.append_assoc,
        unitOf_comment (nothing.append blank)]
    · have visible := trim_ne_nil nothing
      obtain ⟨g, white, inside, ⟨g', white', -, split'⟩, trims⟩ := trim_comment visible
      have inLine : '\n' ∉ g := fun member =>
        unbroken (split ▸ List.mem_append_right a (inside _ member))
      have front : k ++ e = (a ++ g') ++ (trim r ++ (g ++ e)) := by
        calc k ++ e = a ++ (g' ++ (trim r ++ g)) ++ e := by rw [← split', ← split]
          _ = _ := by simp only [List.append_assoc]
      refine ⟨g ++ e, trimEnd note, tail.append white inLine tail.quiet.trimEnd, white.append blank,
        .inr ⟨us, trim r, ⟨trim_trim r, visible, whole.trim, ?_, ?_⟩, ?_, ?_, ?_⟩⟩
      · refine behind_trim ?_
        rw [split, Quoting.behind_append, closed'] at closed
        exact closed
      · rw [front, List.getLast?_append_of_ne_nil _ (by simp [visible])] at single
        exact single
      · rw [here]
        exact congrArg (us ++ ·) (unitOf_eq (by rw [List.reverse_reverse]) visible)
      · rw [read]
        refine congrArg (us ++ ·) (unitOf_eq ?_ (by simp))
        rw [List.reverse_reverse, trims]
        simp only [List.append_assoc]
      · have unbroken' : '\n' ∉ a := fun member => unbroken (split ▸ List.mem_append_left r member)
        have none : wordBehind [] (a ++ g') = [] := by
          rw [wordBehind_append, wordBehind_divided ends unbroken', wordBehind_blank white']
        rw [front, wordBehind_append [] (a ++ g'), none]

end Trails

end EmitterLogic.Tick
