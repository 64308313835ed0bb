import EmitterLogic.Proofs.Tick.CommentedListing

namespace EmitterLogic.Tick

open Text

variable {c : Char} {e g k s t u v x y note : List Char} {q : Quoting}

section Texts

variable {xs : List (List Char)} {lines : List Line} {l : Line} {indent : List Char}

theorem units_line (closed : Quoting.plain.behind s = .plain) (t : List Char) :
    units (s ++ '\n' :: t) = units s ++ units t := by
  obtain ⟨us, a, r, -, -, -, -, -, -, all⟩ := exists_last_piece s
  have here := all []
  rw [List.append_nil, closed, unitsFrom_end] at here
  rw [all, closed, unitsFrom_separator (.inr rfl), here, List.append_assoc]
  rfl

theorem units_intercalate (closed : ∀ x ∈ xs, Quoting.plain.behind x = .plain) :
    units (List.intercalate ['\n'] xs) = xs.flatMap units := by
  induction xs with
  | nil => rfl
  | cons x xs ih =>
    obtain ⟨first, rest⟩ := List.forall_mem_cons.mp closed
    cases xs with
    | nil => rw [List.intercalate_singleton, List.flatMap_singleton]
    | cons y xs =>
      rw [List.intercalate_cons_cons, List.append_assoc, List.singleton_append, units_line first, ih rest]
      rfl

theorem cut_intercalate (plain : ∀ x ∈ xs, '\n' ∉ x) (some : xs ≠ []) :
    cut '\n' (List.intercalate ['\n'] xs) = xs := by
  induction xs with
  | nil => exact absurd rfl some
  | cons x xs ih =>
    obtain ⟨first, rest⟩ := List.forall_mem_cons.mp plain
    cases xs with
    | nil => rw [List.intercalate_singleton, cut_of_not_mem first]
    | cons y xs =>
      rw [List.intercalate_cons_cons, List.append_assoc, List.singleton_append, cut_append,
        cut_of_not_mem first, ih rest (List.cons_ne_nil y xs)]
      rfl

theorem Line.Sound.text_closed (h : l.Sound) : Quoting.plain.behind (kotlinLine l.text) = .plain := by
  obtain ⟨-, closed, -⟩ := h.facts
  cases noted : l.note? with
  | none =>
    have text : l.text = l.code := by rw [Line.text, noted, List.append_nil]
    rwa [text]
  | some note =>
    have text : l.text = l.code ++ '/' :: '/' :: note := by rw [Line.text, noted]
    obtain ⟨-, quiet, answered, -⟩ := h.noted note noted
    obtain ⟨e, note', tail, same, alike⟩ := kotlinLine_comment h.unbroken quiet answered
    have front : Quoting.plain.behind (kotlinLine l.code ++ e) = .plain := by
      rw [← phase_quoting false, ← alike.phase, phase_quoting]
      exact h.closed
    rw [text, same, ← List.append_assoc, Quoting.behind_append, front]
    exact (undivided_of_quiet (List.forall_mem_cons.mpr
      ⟨by decide, List.forall_mem_cons.mpr ⟨by decide, tail.quiet⟩⟩)).2

theorem codeLines_listing {s t : List Char} (cuts : cut '\n' s = lines.map Line.text)
    (cuts' : cut '\n' t = lines.map Line.code) (sound : ∀ l ∈ lines, l.Sound)
    (parted : ∀ A l B, lines = A ++ l :: B → l.note?.isSome = true →
      EndsClose (Line.codes A ++ l.code) → ¬FrontElse (Line.codes B))
    (blank : Blank indent) (inLine : '\n' ∉ indent) :
    codeLines (listing indent s) = codeLines (listing indent t) ∧
      ∀ line ∈ listing indent s ++ listing indent t, '\n' ∉ line := by
  have start : Matches {} {} := ⟨rfl, rfl, List.forall_mem_nil _⟩
  have notes : Annotated [] (lines.flatMap fun l => Line.parts l.text)
      (lines.flatMap fun l => Line.parts l.code) :=
    annotated_lines [] sound parted nofun
  have both := notes.matches start (fun _ _ _ closes => by rcases closes with h | h <;> cases h) nofun
    blank inLine
  have texts : units (List.intercalate ['\n'] ((lines.map Line.text).map kotlinLine)) =
      lines.flatMap fun l => Line.parts l.text := by
    rw [units_intercalate, List.map_map, List.flatMap_map]
    · rfl
    · intro x member
      rw [List.map_map] at member
      obtain ⟨l, inside, rfl⟩ := List.mem_map.mp member
      exact (sound l inside).text_closed
  have codes : units (List.intercalate ['\n'] ((lines.map Line.code).map kotlinLine)) =
      lines.flatMap fun l => Line.parts l.code := by
    rw [units_intercalate, List.map_map, List.flatMap_map]
    · rfl
    · intro x member
      rw [List.map_map] at member
      obtain ⟨l, inside, rfl⟩ := List.mem_map.mp member
      exact (sound l inside).facts.2.1
  rw [listing, listing, cuts, cuts', texts, codes]
  refine ⟨?_, fun line member => both.unbroken line ?_⟩
  · rw [codeLines, codeLines, List.map_reverse, List.map_reverse, List.filter_reverse, List.filter_reverse]
    exact congrArg List.reverse both.codes
  · rw [List.mem_append, List.mem_reverse, List.mem_reverse] at member
    exact List.mem_append.mpr member

/-- The lines of code in generated code. -/
def codeIn (text : String) : List (List Char) := codeLines (cut '\n' text.toList)

theorem codeIn_toKotlin {indent : String} (blank : Blank indent.toList) (inLine : '\n' ∉ indent.toList)
    (s : String) (plain : ∀ line ∈ listing indent.toList (cleanSource s).toList, '\n' ∉ line) :
    codeIn (toKotlin indent s) = codeLines (listing indent.toList (cleanSource s).toList) := by
  rw [toKotlin]
  split
  · next none =>
    have text : (indent ++ "// no-op").toList = indent.toList ++ '/' :: '/' :: " no-op".toList := by
      rw [String.toList_append]
      rfl
    have unbroken : '\n' ∉ indent.toList ++ '/' :: '/' :: " no-op".toList := fun member =>
      (List.mem_append.mp member).elim inLine (by decide)
    rw [none, codeIn, text, cut_of_not_mem unbroken, codeLines_of_nil (codeOf_note blank _)]
    rfl
  · next some =>
    rw [codeIn, String.toList_intercalate, List.map_map]
    have back : (fun s => s) = String.toList ∘ String.ofList := by
      funext s
      exact String.toList_ofList.symm
    rw [← back, List.map_id']
    exact congrArg codeLines (cut_intercalate plain (fun none => some none))

end Texts

section Cleaning

theorem withoutEnd_cons (blank : isBlank c = true) (shown : ¬Blank s) :
    withoutEnd (c :: s) = c :: withoutEnd s := by
  have other : (c == ';') = false := by
    rw [beq_eq_false_iff_ne]
    rintro rfl
    cases blank
  have visible : trimEnd s ≠ [] := by
    intro none
    obtain ⟨g, white, split⟩ := trimEnd_split s
    rw [none, List.nil_append] at split
    exact shown (split ▸ white)
  have ends : trimEnd ([c] ++ s) = [c] ++ trimEnd s := trimEnd_append visible
  rw [withoutEnd, withoutEnd, ← List.singleton_append, ends]
  exact dropEnd_cons_of_not (trimEnd s) other

theorem rewritten_cons {ms : List (Matcher (List Char))} (mild : ∀ m ∈ ms, Mild m) (idle : isIdle c = true)
    (s : List Char) : rewritten ms (c :: s) = c :: rewritten ms s := by
  induction ms generalizing s with
  | nil => rfl
  | cons m ms ih =>
    obtain ⟨first, rest⟩ := List.forall_mem_cons.mp mild
    have here := first.replaceAll_idle (List.forall_mem_singleton.mpr idle) s
    show rewritten ms (replaceAll m (c :: s)) = c :: rewritten ms (replaceAll m s)
    rw [← List.singleton_append, here]
    exact ih rest (replaceAll m s)

theorem kotlinLine_blank (blank : Blank s) : kotlinLine s = [] := by
  have none : trimEnd s = [] := trimEnd_blank blank []
  rw [kotlinLine_eq, withoutEnd, none]
  rfl

theorem kotlinLine_cons (blank : isBlank c = true) (plain : c ≠ '\n') (s : List Char) :
    kotlinLine (c :: s) = kotlinLine s ∨ kotlinLine (c :: s) = c :: kotlinLine s := by
  by_cases white : Blank s
  · left
    rw [kotlinLine_blank white, kotlinLine_blank (List.forall_mem_cons.mpr ⟨blank, white⟩)]
  · right
    have idle : isIdle c = true := by rw [isIdle, blank, Bool.true_or]
    have stop : stops c = true := by rw [stops, idle, Bool.true_or]
    have question : '?' ∉ [c] := by
      rw [List.mem_singleton]
      rintro rfl
      cases blank
    have skip (s : List Char) : spacedChoice (c :: s) = c :: spacedChoice s :=
      spacedChoice_skip (s := [c]) (t := s) question
    rw [kotlinLine_eq, kotlinLine_eq, withoutEnd_cons blank white, rewritten_cons mild_renames idle, skip,
      withConditional_none (conditionalHere?_stops stop) plain]

def drafted (s : List Char) : List Char := List.intercalate ['\n'] ((cut '\n' s).map kotlinLine)

theorem unitsFrom_lead (blank : Blank g) (read : List Char) :
    unitsFrom q (read ++ g) s = unitsFrom q read s := by
  have here (read : List Char) : unitOf (read ++ g) = unitOf read := by
    rw [unitOf, unitOf, List.reverse_append,
      trim_lead fun c member => blank c (List.mem_reverse.mp member)]
  induction s generalizing q read with
  | nil => rw [unitsFrom_end, unitsFrom_end, here]
  | cons c s ih =>
    rcases on_or_divided q c with on | ⟨rfl, rfl | rfl | separator⟩
    · rw [unitsFrom_on on, unitsFrom_on on]
      exact ih (c :: read)
    · rw [unitsFrom_open, unitsFrom_open]
      congr 1
      exact here (openBrace :: read)
    · rw [unitsFrom_close, unitsFrom_close, here]
    · rw [unitsFrom_separator separator, unitsFrom_separator separator, here]

theorem units_lead (blank : isBlank c = true) (s : List Char) : units (c :: s) = units s := by
  by_cases newline : c = '\n'
  · subst newline
    exact unitsFrom_separator (.inr rfl) [] s
  · have on : divides c = false := by
      rw [divides_false_iff]
      refine ⟨?_, ?_, ?_, newline⟩ <;> rintro rfl <;> cases blank
    rw [units, unitsFrom_on fun _ => on, Quoting.after_of_blank blank]
    exact unitsFrom_lead (List.forall_mem_singleton.mpr blank) []

theorem intercalate_cons {xs : List (List Char)} (some : xs ≠ []) (x : List Char) :
    List.intercalate ['\n'] (x :: xs) = x ++ '\n' :: List.intercalate ['\n'] xs := by
  obtain ⟨y, ys, rfl⟩ := List.exists_cons_of_ne_nil some
  rw [List.intercalate_cons_cons, List.append_assoc]
  rfl

theorem units_drafted_cons (blank : isBlank c = true) (s : List Char) :
    units (drafted (c :: s)) = units (drafted s) := by
  obtain ⟨p, ps, found⟩ := exists_cut '\n' s
  by_cases newline : c = '\n'
  · subst newline
    rw [drafted, cut_break, List.map_cons, intercalate_cons (by simp [found]),
      kotlinLine_blank (List.forall_mem_nil _)]
    exact units_lead blank _
  · have first : drafted (c :: s) = drafted s ∨ drafted (c :: s) = c :: drafted s := by
      rw [drafted, drafted, cut_cons newline found, found, List.map_cons, List.map_cons]
      rcases kotlinLine_cons blank newline p with same | same
      · rw [same]
        exact .inl rfl
      · rw [same]
        right
        cases ps with
        | nil => rw [List.map_nil, List.intercalate_singleton, List.intercalate_singleton]
        | cons p' ps =>
          rw [intercalate_cons (by simp), intercalate_cons (by simp)]
          rfl
    rcases first with same | same
    · rw [same]
    · rw [same, units_lead blank]

theorem units_trail (blank : isBlank c = true) (s : List Char) : units (s ++ [c]) = units s := by
  obtain ⟨us, a, r, -, -, -, -, -, -, all⟩ := exists_last_piece s
  have here := all []
  rw [List.append_nil, unitsFrom_end] at here
  rw [all, here]
  congr 1
  rcases on_or_divided (Quoting.plain.behind s) c with on | ⟨outside, rfl | rfl | separator⟩
  · rw [unitsFrom_on on, unitsFrom_end, unitOf_blank blank]
  · cases blank
  · cases blank
  · rw [outside, unitsFrom_separator separator]
    exact List.append_nil _

theorem cut_trail (blank : isBlank c = true) (plain : c ≠ '\n') (s : List Char) :
    (cut '\n' (s ++ [c])).map trimEnd = (cut '\n' s).map trimEnd := by
  induction s with
  | nil =>
    have none : trimEnd [c] = trimEnd [] := trimEnd_blank (List.forall_mem_singleton.mpr blank) []
    have one : cut '\n' [c] = [[c]] := cut_of_not_mem fun member => plain (List.mem_singleton.mp member).symm
    rw [List.nil_append, one, List.map_singleton, none]
    rfl
  | cons d s ih =>
    rw [List.cons_append]
    by_cases newline : d = '\n'
    · subst newline
      rw [cut_break, cut_break, List.map_cons, List.map_cons, ih]
    · obtain ⟨p, ps, found⟩ := exists_cut '\n' (s ++ [c])
      obtain ⟨p', ps', found'⟩ := exists_cut '\n' s
      rw [found, found', List.map_cons, List.map_cons] at ih
      obtain ⟨first, others⟩ := List.cons.inj ih
      rw [cut_cons newline found, cut_cons newline found', List.map_cons, List.map_cons, others,
        trimEnd_congr d first]

theorem drafted_trimEnd (s : List Char) :
    drafted s = List.intercalate ['\n'] (((cut '\n' s).map trimEnd).map kotlinLine) := by
  have each : kotlinLine ∘ trimEnd = kotlinLine := by
    funext line
    rw [Function.comp_apply, kotlinLine_eq, withoutEnd_trimEnd, kotlinLine_eq]
  rw [drafted, List.map_map, each]

theorem units_drafted_trail (blank : isBlank c = true) (s : List Char) :
    units (drafted (s ++ [c])) = units (drafted s) := by
  by_cases newline : c = '\n'
  · subst newline
    have made : drafted (s ++ ['\n']) = drafted s ++ ['\n'] := by
      have lines : cut '\n' (s ++ ['\n']) = cut '\n' s ++ [[]] := cut_append '\n' s []
      have last (xs : List (List Char)) (some : xs ≠ []) :
          List.intercalate ['\n'] (xs ++ [[]]) = List.intercalate ['\n'] xs ++ ['\n'] := by
        induction xs with
        | nil => exact absurd rfl some
        | cons x xs ih =>
          cases xs with
          | nil =>
            rw [List.singleton_append, intercalate_cons (List.cons_ne_nil _ _), List.intercalate_singleton,
              List.intercalate_singleton]
          | cons y xs =>
            rw [List.cons_append, intercalate_cons (by simp), ih (List.cons_ne_nil y xs),
              intercalate_cons (List.cons_ne_nil y xs), List.append_assoc]
            rfl
      obtain ⟨p, ps, found⟩ := exists_cut '\n' s
      rw [drafted, drafted, lines, List.map_append, List.map_singleton,
        kotlinLine_blank (List.forall_mem_nil _)]
      exact last _ (by simp [found])
    rw [made, units_trail blank]
  · rw [drafted_trimEnd, cut_trail blank newline, ← drafted_trimEnd]

theorem units_drafted_trim (s : List Char) : units (drafted (trim s)) = units (drafted s) := by
  have front (g : List Char) (blank : Blank g) (s : List Char) :
      units (drafted (g ++ s)) = units (drafted s) := by
    induction g with
    | nil => rfl
    | cons c g ih =>
      obtain ⟨first, rest⟩ := List.forall_mem_cons.mp blank
      rw [List.cons_append, units_drafted_cons first, ih rest]
  have back (g : List Char) (blank : Blank g) (s : List Char) :
      units (drafted (s ++ g)) = units (drafted s) := by
    induction g using List.reverseRecOn with
    | nil => rw [List.append_nil]
    | append_singleton g c ih =>
      obtain ⟨rest, last⟩ := List.forall_mem_append.mp blank
      rw [← List.append_assoc, units_drafted_trail (last c List.mem_cons_self), ih rest]
  obtain ⟨g, g', blank, blank', split⟩ := trim_split s
  have whole : units (drafted s) = units (drafted (g ++ (trim s ++ g'))) := congrArg (units ∘ drafted) split
  rw [whole, front g blank, back g' blank']

theorem drafted_plainBreaks (s : List Char) : drafted (plainBreaks s) = drafted s := by
  rw [drafted_trimEnd, cut_plainBreaks, ← drafted_trimEnd]

theorem listing_cleanSource (indent : List Char) (s : String) :
    listing indent (cleanSource s).toList = listing indent s.toList := by
  have clean : (cleanSource s).toList = trim (plainBreaks s.toList) := by
    rw [cleanSource, trimmed, String.toList_ofList, replaceText_breaks]
  have units : units (drafted (cleanSource s).toList) = units (drafted s.toList) := by
    rw [clean, units_drafted_trim, drafted_plainBreaks]
  rw [listing, listing]
  exact congrArg (fun us => ((us.map tidy).foldl (Listing.add indent) {}).lines.reverse) units

end Cleaning

end EmitterLogic.Tick
