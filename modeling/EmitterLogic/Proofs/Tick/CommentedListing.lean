import EmitterLogic.Proofs.Tick.Annotated

namespace EmitterLogic.Tick

open Text

variable {c : Char} {e g k s t u v x y note : List Char} {q : Quoting}

section Firsts

theorem unitOf_cases (read : List Char) : (unitOf read = [] ∧ Blank read.reverse) ∨
    ∃ g v g', unitOf read = [v] ∧ Blank g ∧ Blank g' ∧ read.reverse = g ++ (v ++ g') := by
  cases made : unitOf read with
  | nil => exact .inl ⟨rfl, blank_of_unitOf made⟩
  | cons v rest =>
    obtain ⟨rfl, some⟩ := mem_unitOf (made ▸ List.mem_cons_self)
    obtain ⟨g, g', blank, blank', split⟩ := trim_split read.reverse
    rw [unitOf_eq rfl some] at made
    exact .inr ⟨g, _, g', made ▸ rfl, blank, blank', split⟩

theorem not_wordPart_of_next (blank : Blank g) (stop : ∀ c ∈ t.head?, Script.isWordPart c = false) :
    ∀ c ∈ (g ++ t).head?, Script.isWordPart c = false := by
  cases g with
  | nil => exact stop
  | cons d g =>
    rintro c ⟨⟩
    exact isWordPart_of_idle (idle_of_blank blank d List.mem_cons_self)

def LeadsWith (s v : List Char) : Prop := ∃ e t, s = e ++ (v ++ t) ∧ Idle e ∧
  ((∃ c ∈ v.getLast?, divides c = true) ∨ ∀ c ∈ t.head?, Script.isWordPart c = false)

theorem LeadsWith.behind (h : LeadsWith s v) (idle : Idle e) : LeadsWith (e ++ s) v := by
  obtain ⟨e', t, rfl, front, rest⟩ := h
  exact ⟨e ++ e', t, by rw [List.append_assoc], List.forall_mem_append.mpr ⟨idle, front⟩, rest⟩

theorem leadsWith_unitOf {read : List Char} (made : (unitOf read).head? = some v)
    (stop : ∀ c ∈ t.head?, Script.isWordPart c = false) : LeadsWith (read.reverse ++ t) v := by
  rcases unitOf_cases read with ⟨none, -⟩ | ⟨g, u, g', one, blank, blank', split⟩
  · rw [none] at made
    cases made
  · rw [one] at made
    obtain rfl := Option.some.inj made
    exact ⟨g, g' ++ t, by rw [split]; simp, idle_of_blank blank,
      .inr (not_wordPart_of_next blank' stop)⟩

theorem getLast?_of_padded (blank : Blank g) (blank' : Blank g') (visible : isBlank c = false)
    (last : (g ++ (u ++ g')).getLast? = some c) : u.getLast? = some c := by
  have outside {h : List Char} (blank : Blank h) : h.getLast? ≠ some c := fun last => by
    rw [blank c (List.mem_of_getLast? last)] at visible
    cases visible
  rw [← List.append_assoc, List.getLast?_append] at last
  cases ends : g'.getLast? with
  | some d =>
    rw [ends] at last
    exact absurd (ends.trans last) (outside blank')
  | none =>
    rw [ends, Option.none_or, List.getLast?_append] at last
    cases ends' : u.getLast? with
    | some d =>
      rw [ends'] at last
      exact last
    | none =>
      rw [ends', Option.none_or] at last
      exact absurd last (outside blank)

theorem leadsWith_open {read : List Char} (made : (unitOf (openBrace :: read) ++ us).head? = some v) :
    LeadsWith (read.reverse ++ openBrace :: t) v := by
  rcases unitOf_cases (openBrace :: read) with ⟨-, blank⟩ | ⟨g, u, g', one, blank, blank', split⟩
  · rw [List.reverse_cons] at blank
    cases blank openBrace (List.mem_append_right _ List.mem_cons_self)
  · rw [one] at made
    obtain rfl := Option.some.inj made
    rw [List.reverse_cons] at split
    refine ⟨g, g' ++ t, ?_, idle_of_blank blank, .inl ⟨openBrace, ?_, rfl⟩⟩
    · calc read.reverse ++ openBrace :: t = read.reverse ++ [openBrace] ++ t := by simp
        _ = _ := by rw [split]; simp
    · exact getLast?_of_padded blank blank' (by decide) (by rw [← split, List.getLast?_concat])

theorem leadsWith_close {read : List Char}
    (made : (unitOf read ++ [closeBrace] :: us).head? = some v) :
    LeadsWith (read.reverse ++ closeBrace :: t) v := by
  rcases unitOf_cases read with ⟨none, blank⟩ | ⟨g, u, g', one, -⟩
  · rw [none] at made
    obtain rfl := Option.some.inj made
    exact ⟨read.reverse, t, rfl, idle_of_blank blank, .inl ⟨closeBrace, rfl, rfl⟩⟩
  · rw [one] at made
    refine leadsWith_unitOf (by rw [one]; exact made) fun c head => ?_
    obtain rfl := Option.some.inj head
    decide

theorem first_unit (read : List Char) (first : (unitsFrom q read s).head? = some v) :
    LeadsWith (read.reverse ++ s) v := by
  induction s generalizing q read with
  | nil =>
    rw [unitsFrom_end] at first
    exact leadsWith_unitOf first nofun
  | cons c s ih =>
    rcases on_or_divided q c with on | ⟨rfl, rfl | rfl | separator⟩
    · rw [unitsFrom_on on] at first
      have later := ih (c :: read) first
      rwa [List.reverse_cons, List.append_assoc, List.singleton_append] at later
    · rw [unitsFrom_open] at first
      exact leadsWith_open first
    · rw [unitsFrom_close] at first
      exact leadsWith_close first
    · have idle : isIdle c = true := by rcases separator with rfl | rfl <;> rfl
      rw [unitsFrom_separator separator] at first
      rcases unitOf_cases read with ⟨none, blank⟩ | ⟨g, u, g', one, -⟩
      · rw [none] at first
        have later := (ih [] first).behind (idle_of_blank_cons blank idle)
        rwa [List.append_assoc] at later
      · rw [one] at first
        refine leadsWith_unitOf (by rw [one]; exact first) fun d head => ?_
        obtain rfl := Option.some.inj head
        exact isWordPart_of_idle idle

theorem beginsElse_of_tidy (trimmed : trim v = v) (goesOn : Listing.isElse (tidy v) = true) :
    BeginsElse v := by
  rw [tidy_eq, trimmed] at goesOn
  obtain ⟨g, blank, split⟩ := trimEnd_split (inOrder v)
  have begins : BeginsElse (inOrder v) := by
    rw [split]
    rcases isElse_iff.mp goesOn with same | ⟨r, same⟩
    · rw [same]
      refine ⟨g, rfl, fun c head => ?_⟩
      exact isWordPart_of_idle (idle_of_blank blank c (List.mem_of_mem_head? head))
    · rw [same]
      refine ⟨' ' :: (r ++ g), rfl, fun c head => ?_⟩
      obtain rfl := Option.some.inj head
      decide
  have spaced := beginsElse_rewritten mild_heads begins
  exact beginsElse_rewritten mild_tidies (gentle_spacedComma.faithful.beginsElse none rfl spaced)

theorem frontElse_of_units (trimmed : trim v = v) (first : (units s).head? = some v)
    (goesOn : Listing.isElse (tidy v) = true) : FrontElse s := by
  obtain ⟨e, t, split, idle, stop⟩ := first_unit [] first
  obtain ⟨rest, rfl, ends⟩ := beginsElse_of_tidy trimmed goesOn
  refine ⟨e, _, split, idle, rest ++ t, rfl, fun c head => ?_⟩
  cases rest with
  | cons d rest => exact ends c head
  | nil =>
    rcases stop with ⟨d, last, divided⟩ | stop
    · obtain rfl := Option.some.inj last
      cases divided
    · exact stop c head

end Firsts

section Lines

structure Line where
  code : List Char
  note? : Option (List Char)

namespace Line

def text (l : Line) : List Char :=
  l.code ++ match l.note? with
    | none => []
    | some note => '/' :: '/' :: note

structure Sound (l : Line) : Prop where
  unbroken : '\n' ∉ l.code
  closed : Quoting.plain.behind l.code = .plain
  noted : ∀ note ∈ l.note?, l.code.getLast? ≠ some '/' ∧ Quiet note ∧ Answered note l.code ∧
    ¬EndsElse l.code

def codes (lines : List Line) : List Char := lines.flatMap fun l => l.code ++ ['\n']

theorem codes_cons (l : Line) (lines : List Line) :
    codes (l :: lines) = l.code ++ '\n' :: codes lines := by
  rw [codes, List.flatMap_cons, List.append_assoc]
  rfl

def parts (s : List Char) : List (List Char) := units (kotlinLine s)

end Line

open Tick.Line

variable {l : Line} {lines : List Line} {last before : List Char} {us vs : List (List Char)}

theorem mem_units {read : List Char} (member : u ∈ unitsFrom q read s) (inside : c ∈ u) :
    c ∈ read ∨ c ∈ s := by
  have here {read : List Char} (member : u ∈ unitOf read) : c ∈ read := by
    obtain ⟨rfl, -⟩ := mem_unitOf member
    exact List.mem_reverse.mp (mem_trim inside)
  induction s generalizing q read with
  | nil =>
    rw [unitsFrom_end] at member
    exact .inl (here member)
  | cons d s ih =>
    have later (member : u ∈ unitsFrom .plain [] s) : c ∈ read ∨ c ∈ d :: s :=
      (ih member).elim (fun none => by cases none) fun inside => .inr (List.mem_cons_of_mem d inside)
    rcases on_or_divided q d with on | ⟨rfl, rfl | rfl | separator⟩
    · rw [unitsFrom_on on] at member
      rcases ih member with first | second
      · exact (List.mem_cons.mp first).elim (fun same => .inr (same ▸ List.mem_cons_self)) .inl
      · exact .inr (List.mem_cons_of_mem d second)
    · rw [unitsFrom_open] at member
      rcases List.mem_append.mp member with first | second
      · exact (List.mem_cons.mp (here first)).elim (fun same => .inr (same ▸ List.mem_cons_self)) .inl
      · exact later second
    · rw [unitsFrom_close] at member
      rcases List.mem_append.mp member with first | second
      · exact .inl (here first)
      · rcases List.mem_cons.mp second with rfl | third
        · exact .inr (List.mem_singleton.mp inside ▸ List.mem_cons_self)
        · exact later third
    · rw [unitsFrom_separator separator] at member
      rcases List.mem_append.mp member with first | second
      · exact .inl (here first)
      · exact later second

theorem isUnit_of_units (unbroken : '\n' ∉ s) : ∀ u ∈ units s, IsUnit u ∧ '\n' ∉ u := by
  intro u member
  have fresh : Undivided .plain ([] : List Char).reverse := trivial
  refine ⟨.of_mem rfl fresh member, fun inside => ?_⟩
  rcases mem_units member inside with none | inside
  · cases none
  · exact unbroken inside

theorem Annotated.of_same (each : ∀ u ∈ us, IsUnit u ∧ '\n' ∉ u) {as bs : List (List Char)}
    (h : Annotated (us.getLast?.getD last) as bs) : Annotated last (us ++ as) (us ++ bs) := by
  induction us generalizing last with
  | nil => exact h
  | cons u us ih =>
    obtain ⟨⟨unit, unbroken⟩, rest⟩ := List.forall_mem_cons.mp each
    refine .same unit unbroken (ih rest ?_)
    rw [List.getLast?_cons] at h
    exact h

theorem EndsClose.brace (h : EndsClose s) : (phase asks s).brace = some closeBrace := by
  obtain ⟨a, e, rfl, idle⟩ := h
  rw [phase_brace idle]
  rfl

variable (asks) in
theorem endsClose_of_brace (h : (phase asks s).brace = some closeBrace) : EndsClose s := by
  induction s using List.reverseRecOn with
  | nil => cases h
  | append_singleton s c ih =>
    rw [phase_brace (List.forall_mem_nil _)] at h
    split at h
    · next idle => exact (ih h).append (List.forall_mem_singleton.mpr idle)
    · split at h
      · obtain rfl := Option.some.inj h
        exact ⟨s, [], rfl, List.forall_mem_nil _⟩
      · cases h

theorem Line.Sound.facts (h : l.Sound) : '\n' ∉ kotlinLine l.code ∧
    Quoting.plain.behind (kotlinLine l.code) = .plain ∧ (parts l.code = [] → Idle l.code) ∧
    ((parts l.code).getLast? = some [closeBrace] → EndsClose l.code) := by
  obtain ⟨e, idle, alike⟩ := exists_kotlinLine_alike h.unbroken
  have same := alike.phase
  have closed : Quoting.plain.behind (kotlinLine l.code) = .plain := by
    refine closed_of_idle ?_ idle
    rw [← phase_quoting false, ← same, phase_quoting]
    exact h.closed
  obtain ⟨none, close⟩ := units_ends closed
  refine ⟨unbroken_kotlinLine h.unbroken, closed, fun empty => ?_, fun last => ?_⟩
  · rw [← phase_visible false, same, phase_visible]
    exact List.forall_mem_append.mpr ⟨none empty, idle⟩
  · refine endsClose_of_brace false ?_
    rw [same]
    exact ((close last).append idle).brace

theorem frontElse_of_lines (sound : ∀ l ∈ lines, l.Sound)
    (first : (lines.flatMap fun l => parts l.code).head? = some v)
    (goesOn : Listing.isElse (tidy v) = true) : FrontElse (codes lines) := by
  induction lines with
  | nil => cases first
  | cons l lines ih =>
    obtain ⟨here, rest⟩ := List.forall_mem_cons.mp sound
    obtain ⟨unbroken, -, none, -⟩ := here.facts
    have newline : isIdle '\n' = true := by decide
    have each : ∀ u ∈ parts l.code, IsUnit u ∧ '\n' ∉ u := isUnit_of_units unbroken
    rw [codes_cons]
    rw [List.flatMap_cons] at first
    cases made : parts l.code with
    | nil =>
      rw [made] at first
      have front := FrontElse.of_idle (List.forall_mem_singleton.mpr newline) (ih rest first)
      exact .of_idle (none made) front
    | cons u us =>
      rw [made] at first
      obtain rfl : u = v := Option.some.inj first
      have unit := (each u (made ▸ List.mem_cons_self)).1
      have front := frontElse_of_units unit.trimmed (congrArg List.head? made) goesOn
      refine (frontElse_kotlinLine here.unbroken front).append fun c head => ?_
      obtain rfl := Option.some.inj head
      exact isWordPart_of_idle newline

theorem Line.Sound.parts_text {note : List Char} (here : l.Sound) (noted : l.note? = some note) :
    ∃ g note', IsTail g note' ∧ Blank g ∧
      (parts l.text = parts l.code ++ ['/' :: '/' :: note'] ∨
        ∃ us u, Trailed u g ∧ parts l.code = us ++ [u] ∧
          parts l.text = us ++ [u ++ (g ++ '/' :: '/' :: note')] ∧ ¬EndsElse (u ++ g)) := by
  obtain ⟨unbroken, closed, -, -⟩ := here.facts
  have text : l.text = l.code ++ '/' :: '/' :: note := by rw [Line.text, noted]
  obtain ⟨single, quiet, answered, word⟩ := here.noted note noted
  obtain ⟨e, note', tail, same, alike⟩ := kotlinLine_comment here.unbroken quiet answered
  have agree := alike.phase
  have single' : (kotlinLine l.code ++ e).getLast? ≠ some '/' := by
    rw [ne_eq, ← phase_slash false, ← agree, phase_slash]
    exact single
  have word' : ¬EndsElse (kotlinLine l.code ++ e) := by
    rw [EndsElse, ← phase_word false, ← agree, phase_word]
    exact word
  obtain ⟨g, note'', tail', blank, made⟩ := units_comment closed unbroken tail single'
  rw [text, parts, same]
  refine ⟨g, note'', tail', blank, made.imp And.right ?_⟩
  rintro ⟨us, u, piece, front, whole, words⟩
  refine ⟨us, u, piece, front, whole, ?_⟩
  rw [EndsElse, words]
  exact word'

theorem Line.Sound.endsClose (here : l.Sound) (ends : last = [closeBrace] → EndsClose before)
    (same : (parts l.code).getLast?.getD last = [closeBrace]) : EndsClose (before ++ l.code) := by
  obtain ⟨-, -, none, close⟩ := here.facts
  cases found : (parts l.code).getLast? with
  | none =>
    rw [found] at same
    exact (ends same).append (none (List.getLast?_eq_none_iff.mp found))
  | some u =>
    rw [found, Option.getD_some] at same
    obtain ⟨a, e, split, idle⟩ := close (same ▸ found)
    exact ⟨before ++ a, e, by rw [split, List.append_assoc], idle⟩

theorem annotated_lines (before : List Char) (sound : ∀ l ∈ lines, l.Sound)
    (parted : ∀ A l B, lines = A ++ l :: B → l.note?.isSome = true →
      EndsClose (before ++ (codes A ++ l.code)) → ¬FrontElse (codes B))
    (ends : last = [closeBrace] → EndsClose before) :
    Annotated last (lines.flatMap fun l => parts l.text) (lines.flatMap fun l => parts l.code) := by
  -- Line by line; `before` is the code so far, which tells whether its last unit is a closing brace.
  induction lines generalizing last before with
  | nil => exact .nil
  | cons l lines ih =>
    obtain ⟨here, rest⟩ := List.forall_mem_cons.mp sound
    have each : ∀ u ∈ parts l.code, IsUnit u ∧ '\n' ∉ u := isUnit_of_units here.facts.1
    have ends' := here.endsClose ends
    have later : Annotated ((parts l.code).getLast?.getD last) (lines.flatMap fun l => parts l.text)
        (lines.flatMap fun l => parts l.code) := by
      have newline : Idle ['\n'] := List.forall_mem_singleton.mpr (by decide)
      refine ih (before ++ l.code ++ ['\n']) rest (fun A m B split noted close => ?_)
        fun same => (ends' same).append newline
      refine parted (l :: A) m B (by rw [split]; rfl) noted ?_
      rw [codes_cons]
      simpa only [List.append_assoc, List.cons_append, List.nil_append] using close
    rw [List.flatMap_cons, List.flatMap_cons]
    cases noted : l.note? with
    | none =>
      have text : l.text = l.code := by rw [Line.text, noted, List.append_nil]
      rw [text]
      exact .of_same each later
    | some note =>
      obtain ⟨g, note', tail, blank, made | ⟨us, u, piece, front, whole, word⟩⟩ := here.parts_text noted
      · rw [made, List.append_assoc]
        refine .of_same each (.apart tail.quiet (fun same v head => ?_) later)
        rw [Bool.eq_false_iff]
        intro goesOn
        refine parted [] l lines rfl (by rw [noted]; rfl) (ends' same) ?_
        exact frontElse_of_lines rest head goesOn
      · rw [front] at each later
        obtain ⟨each, final⟩ := List.forall_mem_append.mp each
        rw [List.getLast?_concat, Option.getD_some] at later
        rw [whole, front, List.append_assoc, List.append_assoc]
        exact .of_same each (.behind piece (final u List.mem_cons_self).2 tail blank word later)

end Lines

end EmitterLogic.Tick
