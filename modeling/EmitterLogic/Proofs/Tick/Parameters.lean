import EmitterLogic.Proofs.Tick.Arrows

namespace EmitterLogic.Tick

open Text Script Parser

theorem not_paren_of_step {t : Token} (h : bracketStep t = 0) : isParen t = false := by
  rw [not_paren_iff, Bool.eq_false_iff, Bool.eq_false_iff]
  constructor
  all_goals
    intro mark
    rw [bracketStep, kind_of_isMark mark] at h
    cases h

theorem trim_parameter {g w g' s : List Char} (blank : Blank g) (parts : ∀ c ∈ w, isWordPart c = true)
    (blank' : Blank g') (ends : ∀ c ∈ s.head?, c = ',' ∨ c = '=') :
    trim (((g ++ (w ++ (g' ++ s))).takeWhile (· != ',')).takeWhile (· != '=')) = w := by
  have other : ∀ c ∈ g ++ (w ++ g'), c ≠ ',' ∧ c ≠ '=' := by
    have visible {g : List Char} (blank : Blank g) (c : Char) (member : c ∈ g) : c ≠ ',' ∧ c ≠ '=' := by
      constructor
      all_goals
        rintro rfl
        exact absurd (blank _ member) (by decide)
    intro c member
    rcases List.mem_append.mp member with before | member
    · exact visible blank c before
    · rcases List.mem_append.mp member with inside | after
      · constructor
        all_goals
          rintro rfl
          exact absurd (parts _ inside) (by decide)
      · exact visible blank' c after
  have first : ((g ++ (w ++ (g' ++ s))).takeWhile (· != ',')).takeWhile (· != '=') =
      g ++ (w ++ g') := by
    rw [List.takeWhile_takeWhile, ← List.append_assoc w, ← List.append_assoc g]
    refine takeWhile_append_stop (fun c member => ?_) fun c head => ?_
    · simpa [and_comm] using other c member
    · rcases ends c head with rfl | rfl <;> decide
  rw [first, trim_visible blank blank' fun c member => isBlank_of_wordPart (parts c member)]

section Lists

variable {b tail : List Char} {ps a x y z inner : List Piece} {o p c : Piece} {fin : Token}

theorem Composed.parameter_ends (h : Composed b ps tail fin)
    (whole : ps = a ++ p :: (y ++ c :: z)) (plain : ∀ q ∈ y, isParen q.token = false)
    (ends : (front ((y ++ c :: z).map (·.token) ++ [fin])).isMark .comma = true ∨
      (front ((y ++ c :: z).map (·.token) ++ [fin])).isMark .rightParen = true ∨
        (front ((y ++ c :: z).map (·.token) ++ [fin])).isMark .assign = true) :
    ∃ g s, span y ++ c.gap = g ++ s ∧ Blank g ∧ ∀ e ∈ s.head?, e = ',' ∨ e = '=' := by
  cases y with
  | nil => exact ⟨c.gap, [], by simp, h.gaps c (by rw [whole]; simp), nofun⟩
  | cons n y =>
    have fits := h.fits (a ++ [p]) n (y ++ c :: z) (by rw [whole, List.append_assoc]; rfl)
    have start {m : Mark} {e : Char} (mark : n.token.isMark m = true) (spell : m.text.toList = [e])
        (listed : e = ',' ∨ e = '=') :
        ∃ g s, span (n :: y) ++ c.gap = g ++ s ∧ Blank g ∧ ∀ e ∈ s.head?, e = ',' ∨ e = '=' := by
      have chars := fits.mark mark
      rw [spell] at chars
      refine ⟨n.gap, e :: (span y ++ c.gap), by simp [chars], fits.blank, fun d head => ?_⟩
      rwa [← (Option.some.inj head : e = d)]
    rcases ends with comma | closes | assign
    · exact start comma (by decide) (.inl rfl)
    · have none := (not_paren_iff.mp (plain n List.mem_cons_self)).2
      rw [show n.token.isMark .rightParen = true from closes] at none
      cases none
    · exact start assign (by decide) (.inr rfl)

theorem parameter_mem (h : Composed b ps tail fin) {w : String} (whole : ps = a ++ o :: (inner ++ c :: z))
    (plain : ∀ q ∈ inner, isParen q.token = false) (split : inner = x ++ p :: y)
    (before : ∀ d ∈ x.getLast?, d.role = .separator) (kind : p.token.kind = .word w)
    (name : isName w = true)
    (ends : (front ((y ++ c :: z).map (·.token) ++ [fin])).isMark .comma = true ∨
      (front ((y ++ c :: z).map (·.token) ++ [fin])).isMark .rightParen = true ∨
        (front ((y ++ c :: z).map (·.token) ++ [fin])).isMark .assign = true) :
    w.toList ∈ parameterNames (span inner ++ c.gap) := by
  subst split
  have whole' : ps = (a ++ o :: x) ++ p :: (y ++ c :: z) := by
    rw [whole]
    simp only [List.append_assoc, List.cons_append]
  have fits := h.fits _ p _ whole'
  obtain ⟨chars, word, _⟩ := fits.word kind
  obtain ⟨g, s, rest, blank, stops⟩ := h.parameter_ends whole'
    (fun q member => plain q (List.mem_append_right x (List.mem_cons_of_mem p member))) ends
  have parted : Parted ',' (span x) := by
    rcases List.eq_nil_or_concat x with rfl | ⟨x', d, rfl⟩
    · nofun
    · have separator := before d (by rw [List.concat_eq_append, List.getLast?_concat]; rfl)
      have whole'' : ps = (a ++ o :: x') ++ d :: (p :: (y ++ c :: z)) := by
        rw [whole']
        simp only [List.append_assoc, List.cons_append, List.concat_eq_append, List.nil_append]
      have suits := h.suits whole''
      rw [separator] at suits
      have single : d.chars = [','] := (h.fits _ d _ whole'').mark suits.1
      intro e last
      rw [List.concat_eq_append, span_append, span_cons, single, span_nil, List.append_nil,
        ← List.append_assoc, List.getLast?_concat] at last
      exact (Option.some.inj last).symm
  have text : span (x ++ p :: y) ++ c.gap = span x ++ (p.gap ++ (w.toList ++ (g ++ s))) := by
    rw [← rest, ← chars]
    simp
  rw [text, parameterNames, List.mem_filter, List.mem_map]
  refine ⟨⟨(p.gap ++ (w.toList ++ (g ++ s))).takeWhile (· != ','), ?_,
    trim_parameter fits.blank (isWordPart_of_isWord word) blank stops⟩, name⟩
  refine mem_cut_iff.mpr ⟨span x, (p.gap ++ (w.toList ++ (g ++ s))).dropWhile (· != ','), ?_, parted,
    fun e head => ?_, fun member => ?_⟩
  · rw [List.takeWhile_append_dropWhile]
  · simpa using dropWhile_head e head
  · simpa using List.mem_takeWhile_imp member

theorem parameter_of_part (h : Composed b ps tail fin) {d : Piece} {part after : List Char}
    (whole : ps = a ++ d :: (y ++ c :: z)) (listed : d.isList = true ∨ d.role = .separator)
    (pointless : d.token.isMark .dot = false) (plain : ∀ q ∈ y, isParen q.token = false)
    (text : span y ++ c.gap = part ++ after)
    (stops : ∀ e ∈ after.head?, e = ',') (noComma : ',' ∉ part)
    (name : isNameChars (trim (part.takeWhile (· != '='))) = true) :
    ∃ p ∈ y, ∃ w, p.role = .binder .parameter ∧ p.token.kind = .word w ∧
      trim (part.takeWhile (· != '=')) = w.toList := by
  have awaits : d.toTagged.awaits = true := by
    rw [Tagged.awaits]
    rcases listed with list | separator
    · rw [Tagged.isList] at list
      split at list
      · next role => rw [role]
      · cases list
    · rw [show d.toTagged.role = .separator from separator]
  cases y with
  | nil =>
    -- Only blanks are left before the closing parenthesis.
    have blank : Blank part := fun e member =>
      h.gaps c (by rw [whole]; simp) e (by
        rw [show c.gap = part ++ after from text]
        exact List.mem_append_left after member)
    have empty : trim (part.takeWhile (· != '=')) = [] := by
      have blank' : Blank (part.takeWhile (· != '=')) :=
        fun e member => blank e ((List.takeWhile_sublist _).subset member)
      have nothing : Blank ([] : List Char) := List.forall_mem_nil _
      have none := trim_visible (w := []) blank' nothing (by rintro _ ⟨⟩)
      rwa [List.append_nil, List.append_nil] at none
    rw [empty] at name
    cases name
  | cons p y =>
    have whole' : ps = (a ++ [d]) ++ p :: (y ++ c :: z) := by rw [whole, List.append_assoc]; rfl
    have awaited := (h.suits_after (z := y ++ c :: z) whole).awaited awaits
    rcases awaited.of_list pointless listed with ⟨role, free, ends⟩ | ⟨_, close⟩
    · obtain ⟨w, kind⟩ := word_of_free free
      have fits := h.fits _ p _ whole'
      obtain ⟨chars, word, _⟩ := fits.word kind
      obtain ⟨g, s, rest, blank, ends⟩ := h.parameter_ends whole'
        (fun q member => plain q (List.mem_cons_of_mem p member)) ends
      refine ⟨p, List.mem_cons_self, w, role, kind, ?_⟩
      have same : part = (p.gap ++ (w.toList ++ (g ++ s))).takeWhile (· != ',') := by
        rw [← rest, ← chars]
        simp only [span_cons, List.append_assoc] at text
        rw [text]
        refine (takeWhile_append_stop (fun e member => ?_) fun e head => ?_).symm
        · simpa using fun comma : e = ',' => noComma (comma ▸ member)
        · simpa using stops e head
      rw [same]
      exact trim_parameter fits.blank (isWordPart_of_isWord word) blank ends
    · have none := (not_paren_iff.mp (plain p List.mem_cons_self)).2
      rw [close] at none
      cases none

theorem parameter_of_mem (h : Composed b ps tail fin) {arrow : Bool} {v : List Char}
    (whole : ps = a ++ o :: (inner ++ c :: z)) (role : o.role = .list arrow)
    (plain : ∀ q ∈ inner, bracketStep q.token = 0)
    (member : v ∈ parameterNames (span inner ++ c.gap)) :
    ∃ p ∈ inner, ∃ w, p.role = .binder .parameter ∧ p.token.kind = .word w ∧ v = w.toList := by
  rw [parameterNames, List.mem_filter, List.mem_map] at member
  obtain ⟨⟨part, cutOut, rfl⟩, name⟩ := member
  obtain ⟨before, after, text, parted, stops, noComma⟩ := mem_cut_iff.mp cutOut
  have unparen : ∀ q ∈ inner, isParen q.token = false := fun q there => not_paren_of_step (plain q there)
  have opens : o.token.isMark .leftParen = true := by
    have suits := h.suits whole
    rw [role] at suits
    exact suits.1
  have list : o.isList = true := by rw [Tagged.isList, show o.toTagged.role = .list arrow from role]
  rcases List.eq_nil_or_concat before with rfl | ⟨before', e, rfl⟩
  · refine parameter_of_part h whole (.inl list) ?_ unparen text stops noComma name
    rw [Token.isMark, kind_of_isMark opens]
    rfl
  · rw [List.concat_eq_append] at text parted
    obtain rfl : e = ',' := parted e (by rw [List.getLast?_concat]; rfl)
    rw [List.append_assoc, List.singleton_append] at text
    obtain ⟨x, d, y, u, u', rfl, chars, _, rest⟩ := locate_in
      (fun q there => h.gaps q (by rw [whole]; simp [there])) (h.gaps c (by rw [whole]; simp)) text
      (by decide)
    have whole' : ps = (a ++ o :: x) ++ d :: (y ++ c :: z) := by
      rw [whole]
      simp only [List.append_assoc, List.cons_append]
    have comma := h.sign (c := ',') (m := .comma) (by decide) whole' (by rw [chars]; simp)
    have single : d.chars = [','] := (h.fits _ d _ whole').mark comma
    obtain rfl : u' = [] := by
      have count := congrArg List.length (chars.symm.trans single)
      simp only [List.length_append, List.length_cons, List.length_nil] at count
      exact List.eq_nil_of_length_eq_zero (by omega)
    -- A comma that is none between parameters has another bracket before it.
    have separator : d.role = .separator := by
      refine ((h.suits whole').comma comma).resolve_right ?_
      rw [List.reverse_append, List.reverse_cons, List.append_assoc, List.map_append,
        List.singleton_append, List.map_cons]
      refine not_unlisted list (by
        rw [bracketStep, show o.toTagged.token.kind = .mark .leftParen from kind_of_isMark opens]
        decide) fun t there => ?_
      obtain ⟨q, before, rfl⟩ := List.mem_map.mp there
      exact plain q (List.mem_append_left _ (List.mem_reverse.mp before))
    obtain ⟨p, there, found⟩ := parameter_of_part h whole' (.inr separator) (by
        rw [Token.isMark, kind_of_isMark comma]
        rfl) (fun q there => unparen q (by simp [there])) rest.symm stops noComma name
    exact ⟨p, by simp [there], found⟩

end Lists

end EmitterLogic.Tick
