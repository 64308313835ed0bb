import EmitterLogic.Proofs.Tick.NotedLines

namespace EmitterLogic.Tick

open Text Script Stretch

variable {c : Char} {rest s chars : List Char} {n : Nat} {l : Lexeme}

section Remarks

variable {note : List Char} {r : Remark}

/-- The last line of a text. -/
def lastLine (s : List Char) : List Char := (s.reverse.takeWhile (· != '\n')).reverse

/-- The last word of a text, and the blanks behind it. -/
def lastWord (s : List Char) : List Char × List Char :=
  (((s.reverse.dropWhile isBlank).takeWhile isWordChar).reverse, (s.reverse.takeWhile isBlank).reverse)

/-- A comment that brings no code and takes none away. -/
structure Remark.Discreet (r : Remark) : Prop where
  /-- Nothing in it ends a unit or begins a quoted text. -/
  quiet : Quiet r.note
  /-- Behind each question mark in front of it on its line there is a colon and then something else, or
  there is no colon, not in the comment either. -/
  answered : ∀ t ∈ (lastLine r.before).tails, t.head? = some '?' →
    (':' ∈ t ∧ ¬Idle ((t.dropWhile (· != ':')).drop 1)) ∨ (':' ∉ t ∧ ':' ∉ r.note)
  /-- If the line in front of it ends in the word `else`, then with a space behind the word. -/
  spaced : (lastWord (lastLine r.before)).1 = "else".toList →
    (lastWord (lastLine r.before)).2.head? = some ' '
  /-- It does not stand between a closing brace and the word `else`. -/
  parted : (r.before.reverse.dropWhile isIdle).head? = some closeBrace →
    (r.after.dropWhile isIdle).takeWhile isWordPart ≠ "else".toList

instance (r : Remark) : Decidable r.Discreet :=
  decidable_of_iff (Quiet r.note ∧ (∀ t ∈ (lastLine r.before).tails, t.head? = some '?' →
      (':' ∈ t ∧ ¬Idle ((t.dropWhile (· != ':')).drop 1)) ∨ (':' ∉ t ∧ ':' ∉ r.note)) ∧
    ((lastWord (lastLine r.before)).1 = "else".toList →
      (lastWord (lastLine r.before)).2.head? = some ' ') ∧
    ((r.before.reverse.dropWhile isIdle).head? = some closeBrace →
      (r.after.dropWhile isIdle).takeWhile isWordPart ≠ "else".toList))
    ⟨fun h => ⟨h.1, h.2.1, h.2.2.1, h.2.2.2⟩, fun h => ⟨h.1, h.2, h.3, h.4⟩⟩

theorem exists_asked (s : List Char) (h : (phase true s).asked = true) :
    ∃ a t, s = a ++ '?' :: t ∧ ':' ∉ t := by
  induction s using List.reverseRecOn with
  | nil => cases h
  | append_singleton s c ih =>
    rw [phase_append] at h
    have h : ((phase true s).after true c).asked = true := h
    rw [Phase.after] at h
    by_cases colon : c = ':'
    · subst colon
      cases h
    · have other : (true && c == ':') = false := beq_eq_false_iff_ne.mpr colon
      simp only [other, Bool.false_eq_true, if_false, Bool.true_and, Bool.or_eq_true, beq_iff_eq] at h
      rcases h with before | rfl
      · obtain ⟨a, t, rfl, none⟩ := ih before
        refine ⟨a, t ++ [c], List.append_assoc .., fun member => ?_⟩
        exact (List.mem_append.mp member).elim none fun inside =>
          colon (List.mem_singleton.mp inside).symm
      · exact ⟨s, [], rfl, List.not_mem_nil⟩

theorem exists_pending (s : List Char) (h : (phase true s).pending = true) :
    ∃ a b d, s = a ++ '?' :: (b ++ ':' :: d) ∧ ':' ∉ b ∧ Idle d := by
  induction s using List.reverseRecOn with
  | nil => cases h
  | append_singleton s c ih =>
    rw [phase_append] at h
    have h : ((phase true s).after true c).pending = true := h
    rw [Phase.after] at h
    by_cases idle : isIdle c = true
    · simp only [idle, if_true] at h
      obtain ⟨a, b, d, rfl, none, idle'⟩ := ih h
      refine ⟨a, b, d ++ [c], by simp, none, ?_⟩
      exact List.forall_mem_append.mpr ⟨idle', List.forall_mem_singleton.mpr idle⟩
    · have h : (if isIdle c = true then (phase true s).pending
          else true && c == ':' && (phase true s).asked) = true := h
      rw [if_neg idle, Bool.true_and, Bool.and_eq_true, beq_iff_eq] at h
      obtain ⟨rfl, asked⟩ := h
      obtain ⟨a, t, rfl, none⟩ := exists_asked s asked
      exact ⟨a, t, [], by simp, none, List.forall_mem_nil _⟩

theorem answered_of_tails {s note : List Char} (h : ∀ t ∈ s.tails, t.head? = some '?' →
    (':' ∈ t ∧ ¬Idle ((t.dropWhile (· != ':')).drop 1)) ∨ (':' ∉ t ∧ ':' ∉ note)) : Answered note s where
  pending := by
    rw [Bool.eq_false_iff]
    intro pending
    obtain ⟨a, b, d, rfl, none, idle⟩ := exists_pending s pending
    have first : ':' ∉ '?' :: b := by
      rw [List.mem_cons, not_or]
      exact ⟨by decide, none⟩
    have rest := (takeWhile_colon (b := d) first).2
    have tail := (List.mem_tails ..).mpr (List.suffix_append a ('?' :: (b ++ ':' :: d)))
    rcases h _ tail rfl with ⟨-, tells⟩ | ⟨colon, -⟩
    · rw [← List.cons_append, rest] at tells
      exact tells idle
    · exact colon (by simp)
  asked asked := by
    obtain ⟨a, t, rfl, none⟩ := exists_asked s asked
    rcases h ('?' :: t) ((List.mem_tails ..).mpr (List.suffix_append ..)) rfl with ⟨colon, -⟩ | ⟨-, colon⟩
    · rw [List.mem_cons] at colon
      exact absurd (colon.resolve_left (by decide)) none
    · exact colon

theorem exists_wordBehind (s : List Char) : ∃ a w g, s = a ++ (w ++ g) ∧ wordBehind [] s = w ++ g ∧
    (∀ c ∈ w, isWordChar c = true) ∧ Blank g ∧ g.head? ≠ some ' ' ∧ (w = [] → g = []) ∧
    a.getLast?.any isWordChar = false := by
  -- From the right: one more character goes on the word, ends it, or begins another one.
  induction s using List.reverseRecOn with
  | nil => exact ⟨[], [], [], rfl, rfl, List.forall_mem_nil _, List.forall_mem_nil _, nofun, fun _ => rfl, rfl⟩
  | append_singleton s c ih =>
    obtain ⟨a, w, g, split, word, letters, blank, spaced, whole, free⟩ := ih
    have next : wordBehind [] (s ++ [c]) = wordAfter (w ++ g) c := by
      rw [wordBehind_append, word]
      rfl
    have tabs : (w ++ g).any isBlank = !g.isEmpty := by
      have none : w.any isBlank = false := by
        rw [List.any_eq_false]
        intro d member white
        have letter := letters d member
        rw [not_wordChar_of_blank white] at letter
        cases letter
      rw [List.any_append, none, Bool.false_or]
      cases g with
      | nil => rfl
      | cons d g => rw [List.any_cons, blank d List.mem_cons_self]; rfl
    rw [next, wordAfter, tabs]
    by_cases letter : isWordChar c = true
    · rw [if_pos letter]
      cases g with
      | nil =>
        refine ⟨a, w ++ [c], [], by rw [split]; simp, by simp, ?_, List.forall_mem_nil _, nofun,
          fun _ => rfl, free⟩
        exact List.forall_mem_append.mpr ⟨letters, List.forall_mem_singleton.mpr letter⟩
      | cons d g =>
        refine ⟨a ++ (w ++ d :: g), [c], [], by rw [split]; simp, rfl, List.forall_mem_singleton.mpr letter,
          List.forall_mem_nil _, nofun, fun _ => rfl, ?_⟩
        obtain ⟨h, e, same⟩ := (List.eq_nil_or_concat (d :: g)).resolve_left (List.cons_ne_nil d g)
        rw [List.concat_eq_append] at same
        have white := blank e (same ▸ List.mem_append_right h List.mem_cons_self)
        rw [same, ← List.append_assoc, ← List.append_assoc, List.getLast?_concat, Option.any_some]
        exact not_wordChar_of_blank white
    · rw [if_neg letter]
      split
      · next goesOn =>
        simp only [Bool.and_eq_true, Bool.or_eq_true, bne_iff_ne, Bool.not_eq_true',
          List.isEmpty_eq_false_iff] at goesOn
        obtain ⟨⟨white, tab⟩, visible⟩ := goesOn
        refine ⟨a, w, g ++ [c], by rw [split]; simp, by simp, letters,
          blank.append (List.forall_mem_singleton.mpr white), ?_, fun empty => ?_, free⟩
        · cases g with
          | nil =>
            intro space
            exact tab.elim (fun other => other (Option.some.inj space)) fun none => none rfl
          | cons d g => exact spaced
        · rw [empty, whole empty] at visible
          exact absurd rfl visible
      · refine ⟨s ++ [c], [], [], by simp, rfl, List.forall_mem_nil _, List.forall_mem_nil _, nofun,
          fun _ => rfl, ?_⟩
        rw [List.getLast?_concat, Option.any_some]
        exact Bool.not_eq_true _ ▸ letter

theorem not_endsElse {s : List Char}
    (h : (lastWord s).1 = "else".toList → (lastWord s).2.head? = some ' ') : ¬EndsElse s := by
  intro ends
  obtain ⟨a, w, g, split, word, letters, blank, spaced, -, free⟩ := exists_wordBehind s
  have stop : ∀ c ∈ g.head?, isWordChar c = false := fun c head =>
    not_wordChar_of_blank (blank c (List.mem_of_mem_head? head))
  rw [EndsElse, word, takeWhile_append_stop letters stop] at ends
  subst ends
  have white : ∀ c ∈ g.reverse, isBlank c = true := fun c member => blank c (List.mem_reverse.mp member)
  have shown : ∀ c ∈ ("else".toList.reverse ++ a.reverse).head?, isBlank c = false := by
    rintro c ⟨⟩
    decide
  have letters' : ∀ c ∈ "else".toList.reverse, isWordChar c = true := by decide
  have free' : ∀ c ∈ a.reverse.head?, isWordChar c = false := by
    intro c head
    rw [List.head?_reverse] at head
    rw [Option.mem_def.mp head] at free
    exact free
  have reversed : s.reverse = g.reverse ++ ("else".toList.reverse ++ a.reverse) := by
    rw [split, List.reverse_append, List.reverse_append, List.append_assoc]
  have found : lastWord s = ("else".toList, g) := by
    rw [lastWord, reversed, dropWhile_padded white shown, takeWhile_append_stop letters' free',
      takeWhile_append_stop white shown, List.reverse_reverse, List.reverse_reverse]
  rw [found] at h
  exact spaced (h rfl)

theorem lastLine_codes (A : List Line) {s : List Char} (unbroken : '\n' ∉ s) :
    lastLine (Line.codes A ++ s) = s := by
  have stop : ∀ c ∈ (Line.codes A).reverse.head?, (c != '\n') = false := by
    intro c head
    rcases List.eq_nil_or_concat A with rfl | ⟨A, l, rfl⟩
    · cases head
    · rw [List.concat_eq_append, Line.codes, List.flatMap_append, List.flatMap_singleton, ← List.append_assoc,
        List.reverse_append] at head
      obtain rfl := Option.some.inj head
      decide
  have all : ∀ c ∈ s.reverse, (c != '\n') = true := fun c member => by
    rw [bne_iff_ne]
    rintro rfl
    exact unbroken (List.mem_reverse.mp member)
  rw [lastLine, List.reverse_append, takeWhile_append_stop all stop, List.reverse_reverse]

theorem head_of_endsClose {s : List Char} (h : EndsClose s) :
    (s.reverse.dropWhile isIdle).head? = some closeBrace := by
  obtain ⟨a, e, rfl, idle⟩ := h
  have idle' : ∀ c ∈ e.reverse, isIdle c = true := fun c member => idle c (List.mem_reverse.mp member)
  rw [List.reverse_append, List.reverse_cons, List.append_assoc, List.dropWhile_append_of_pos idle']
  rfl

theorem word_of_frontElse {s : List Char} (h : FrontElse s) :
    (s.dropWhile isIdle).takeWhile isWordPart = "else".toList := by
  obtain ⟨e, t, rfl, idle, rest, rfl, ends⟩ := h
  have letters : ∀ c ∈ "else".toList, isWordPart c = true := by decide
  have first : ∀ c ∈ ("else".toList ++ rest).head?, isIdle c = false := by
    rintro c ⟨⟩
    decide
  rw [show 'e' :: 'l' :: 's' :: 'e' :: rest = "else".toList ++ rest from rfl, dropWhile_padded idle first,
    takeWhile_append_stop letters ends]

theorem word_of_append {s e : List Char} (idle : Idle e) : ((s ++ e).dropWhile isIdle).takeWhile isWordPart =
    (s.dropWhile isIdle).takeWhile isWordPart := by
  have nothing : e.dropWhile isIdle = [] := List.dropWhile_eq_nil_iff.mpr idle
  rw [List.dropWhile_append, nothing]
  split
  · next empty => rw [List.isEmpty_iff.mp empty]
  · exact (takeWhile_stopped fun c head => isWordPart_of_idle (idle c (List.mem_of_mem_head? head))).1

end Remarks

section Main

variable {source indent : String} {ts : List Token}

theorem sound_linesOf {ps : List Stretch} (readable : Readable ps)
    (discreet : ∀ r ∈ remarksFrom [] ps, r.Discreet) : ∀ l ∈ linesOf ps, l.Sound := by
  intro l member
  obtain ⟨unbroken, closed, single⟩ := linesOf_whole readable l member
  refine ⟨unbroken, closed, fun note noted => ?_⟩
  obtain ⟨A, B, whole⟩ := List.append_of_mem member
  obtain ⟨r, inside, rfl, front, -⟩ := exists_remark [] A readable whole noted
  obtain ⟨quiet, answered, spaced, -⟩ := discreet r inside
  rw [front, List.nil_append, lastLine_codes A unbroken] at answered spaced
  exact ⟨single (by rw [noted]; rfl), quiet, answered_of_tails answered, not_endsElse spaced⟩

/-- Comments up to the end of a line bring no code into generated code, if each of them is discreet and no
quoted text goes on in another line. -/
theorem toKotlin_uncommented (read : tokens source = .ok ts)
    (lines : ∀ p ∈ stretches source, p.isBlock = false)
    (whole : ∀ p ∈ stretches source, p.isBroken = false)
    (discreet : ∀ r ∈ remarks source, r.Discreet)
    (blank : Blank indent.toList) (inLine : '\n' ∉ indent.toList) :
    codeIn (toKotlin indent source) = codeIn (toKotlin indent (uncommented source)) := by
  obtain ⟨stretched, -⟩ := stretched_of_tokens read
  have readable := readable_of_stretched stretched lines whole
  have sound := sound_linesOf readable discreet
  obtain ⟨texts, codes⟩ := cut_linesOf readable
  rw [stretched.chars] at texts
  have parted : ∀ A l B, linesOf (stretches source) = A ++ l :: B → l.note?.isSome = true →
      EndsClose (Line.codes A ++ l.code) → ¬FrontElse (Line.codes B) := by
    intro A l B split noted close front
    obtain ⟨note, noted⟩ := Option.isSome_iff_exists.mp noted
    obtain ⟨r, inside, -, before, after⟩ := exists_remark [] A readable split noted
    have newline : Idle ['\n'] := List.forall_mem_singleton.mpr (by decide)
    have word := word_of_frontElse (front.of_idle newline)
    rw [List.singleton_append, ← after, word_of_append newline] at word
    refine (discreet r inside).parted (head_of_endsClose ?_) word
    rw [before]
    exact close
  have bared : (uncommented source).toList = bare (stretches source) := String.toList_ofList
  obtain ⟨same, unbroken⟩ := codeLines_listing texts (bared ▸ codes) sound parted blank inLine
  obtain ⟨plain, plain'⟩ := List.forall_mem_append.mp unbroken
  rw [codeIn_toKotlin blank inLine source, codeIn_toKotlin blank inLine (uncommented source),
    listing_cleanSource, listing_cleanSource, same]
  · rw [listing_cleanSource]
    exact plain'
  · rw [listing_cleanSource]
    exact plain

/-- A script with comments behind a brace, a choice, the word `else` and a line that holds a quoted text. -/
def remarkedText : String := String.intercalate "\n"
  ["if (x) \x7b // go on: x?", "\tconst y = x ? z : w; // pick", "\x7d else // or, else",
    "  a = \"// ;\" // keep", "// done"]

theorem toKotlin_uncommented_mixed :
    ∃ ts, tokens remarkedText = .ok ts ∧ (remarks remarkedText).length = 5 ∧
    codeIn (toKotlin "    " remarkedText) = codeIn (toKotlin "    " (uncommented remarkedText)) := by
  have read : (tokens remarkedText).isOk = true := by decide +kernel
  obtain ⟨ts, read⟩ := ok_of_isOk read
  have lines : ((stretches remarkedText).all fun p => !p.isBlock) = true := by decide +kernel
  have whole : ((stretches remarkedText).all fun p => !p.isBroken) = true := by decide +kernel
  refine ⟨ts, read, by decide +kernel, toKotlin_uncommented read (fun p member => ?_) (fun p member => ?_)
    (by decide +kernel) (by decide) (by decide)⟩
  · simpa using List.all_eq_true.mp lines p member
  · simpa using List.all_eq_true.mp whole p member

/-- What a comment holds behind a semicolon comes to be a line of code. -/
theorem toKotlin_separator_in_note : (parseProgram "x = 1 // a; b").isOk = true ∧
    (∀ p ∈ stretches "x = 1 // a; b", p.isBlock = false ∧ p.isBroken = false) ∧
    codeIn (toKotlin "    " "x = 1 // a; b") ≠ codeIn (toKotlin "    " (uncommented "x = 1 // a; b")) := by
  have plain : ((stretches "x = 1 // a; b").all fun p => !p.isBlock && !p.isBroken) = true := by
    decide +kernel
  refine ⟨by decide +kernel, fun p member => ?_, by decide +kernel⟩
  simpa using List.all_eq_true.mp plain p member

end Main

end EmitterLogic.Tick
