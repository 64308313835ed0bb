import EmitterLogic.Proofs.Tick.Heads

namespace EmitterLogic.Tick

open Text Script Parser

/-- A name that begins with no digit and no dollar sign, and ends with no dollar sign. -/
def isPlain (w : String) : Bool :=
  w.toList.head?.any isIdentStart && w.toList.all isNamePart && w.toList.getLast?.any isIdentPart

theorem isName_of_isPlain {w : String} (h : isPlain w = true) : isName w = true := by
  rw [isPlain, Bool.and_eq_true, Bool.and_eq_true, List.all_eq_true] at h
  obtain ⟨⟨first, parts⟩, _⟩ := h
  rw [isName]
  cases spell : w.toList with
  | nil =>
    rw [spell] at first
    cases first
  | cons c cs =>
    rw [spell] at first parts
    rw [isNameChars, Bool.and_eq_true, List.all_eq_true, isNameStart, show isIdentStart c = true from first]
    exact ⟨rfl, fun d member => parts d (List.mem_cons_of_mem c member)⟩

theorem of_boundedLength {s : List Char} {n : Nat} (h : boundedLength s = some n) :
    n ≤ s.length ∧ 0 < n ∧ ∀ c ∈ s.take n, isNamePart c = true := by
  induction s generalizing n with
  | nil => cases h
  | cons c s ih =>
    rw [boundedLength] at h
    split at h
    · next part =>
      cases longer : boundedLength s with
      | some k =>
        rw [longer] at h
        cases h
        obtain ⟨le, _, parts⟩ := ih longer
        refine ⟨Nat.succ_le_succ le, Nat.succ_pos k, ?_⟩
        rw [List.take_succ_cons]
        exact List.forall_mem_cons.mpr ⟨part, parts⟩
      | none =>
        rw [longer] at h
        dsimp only at h
        split at h
        · cases h
          refine ⟨Nat.succ_le_succ (Nat.zero_le _), Nat.one_pos, ?_⟩
          rw [List.take_succ_cons, List.take_zero]
          exact List.forall_mem_singleton.mpr part
        · cases h
    · cases h

theorem boundedLength_append {w s : List Char} (parts : ∀ c ∈ w, isNamePart c = true)
    (last : w.getLast?.any isWordChar = true) (ends : ∀ c ∈ s.head?, isWordPart c = false) :
    boundedLength (w ++ s) = some w.length := by
  -- Only at the last character does it matter that the word ends; before it a longer beginning is found.
  induction w with
  | nil => cases last
  | cons c w ih =>
    have part := parts c List.mem_cons_self
    rw [List.cons_append, boundedLength, if_pos part]
    cases w with
    | nil =>
      have none : boundedLength s = none := by
        cases s with
        | nil => rfl
        | cons d s => rw [boundedLength, if_neg (by rw [not_namePart (ends d rfl)]; exact Bool.false_ne_true)]
      have word : isWordChar c = true := last
      have boundary : isBoundary (some c) s.head? = true := by
        rw [isBoundary, Option.any_some, word]
        cases s with
        | nil => rfl
        | cons d s =>
          have other : isWordChar d = false := by
            rw [Bool.eq_false_iff]
            intro goes
            have stop := ends d rfl
            rw [Predicate.isWordPart_of_wordChar goes] at stop
            cases stop
          rw [List.head?_cons, Option.any_some, other]
          rfl
      rw [List.nil_append, none]
      dsimp only
      rw [if_pos boundary]
      rfl
    | cons d w =>
      rw [ih (fun e member => parts e (List.mem_cons_of_mem c member)) (by
        rwa [List.getLast?_cons_cons] at last)]
      rfl

section Uses

variable {b A s tail : List Char} {ps a z : List Piece} {p d : Piece} {fin : Token} {n : Nat}
  {w : String}

theorem Composed.not_wordPart_before (h : Composed b ps tail fin) (whole : ps = a ++ p :: z)
    (kind : p.token.kind = .word w) {A C : List Char} (before : span a ++ p.gap = A ++ C)
    (left : C ≠ []) : isWordPart (C.getLast left) = false := by
  refine h.before_word whole kind _ ?_
  rw [before, List.getLast?_append_of_ne_nil _ left]
  exact List.getLast?_eq_some_getLast left

theorem Composed.use_found (h : Composed b ps tail fin) (whole : ps = a ++ p :: z)
    (kind : p.token.kind = .word w) (plain : isPlain w = true) :
    ((span a ++ p.gap).length, w.toList.length,
      (⟨w, (span a ++ p.gap).getLast?, (trimStart (span z ++ tail)).head?⟩ : Use)) ∈
        findAll useAt b := by
  obtain ⟨chars, _, stops⟩ := (h.fits a p z whole).word kind
  have name := isName_of_isPlain plain
  rw [isPlain, Bool.and_eq_true, Bool.and_eq_true, List.all_eq_true] at plain
  obtain ⟨⟨first, parts⟩, last⟩ := plain
  have whole' : boundedLength (w.toList ++ (span z ++ tail)) = some w.toList.length := by
    refine boundedLength_append parts ?_ stops
    obtain ⟨c, found, part⟩ := (Option.any_eq_true _ _).mp last
    rw [found, Option.any_some]
    exact isWordChar_of_identPart part
  have begins : ((w.toList ++ (span z ++ tail)).head?.any isNameStart &&
      isBoundary (span a ++ p.gap).getLast? (w.toList ++ (span z ++ tail)).head?) = true := by
    cases spell : w.toList with
    | nil =>
      rw [spell] at first
      cases first
    | cons c cs =>
      rw [spell] at first
      have start : isIdentStart c = true := first
      rw [isBoundary, h.fresh whole kind, List.cons_append, List.head?_cons, Option.any_some,
        Option.any_some, isNameStart, start, isWordChar_of_identStart start]
      rfl
  have found : useAt (span a ++ p.gap).getLast? (p.chars ++ (span z ++ tail)) =
      some (w.toList.length, ⟨w, (span a ++ p.gap).getLast?, (trimStart (span z ++ tail)).head?⟩) := by
    rw [chars, useAt, if_pos begins, whole', Option.map_some, List.take_left, List.drop_left,
      String.ofList_toList]
  refine h.finds whole found fun A' C k u before left _ matched => ?_
  rw [useAt] at matched
  split at matched
  · obtain ⟨k', length, same⟩ := Option.map_eq_some_iff.mp matched
    cases same
    obtain ⟨_, _, parts'⟩ := of_boundedLength length
    -- No name goes on from the last character before the word.
    by_contra longer
    have inside := parts' (C.getLast left) (by
      rw [List.take_append, List.take_of_length_le (by omega)]
      exact List.mem_append_left _ (List.getLast_mem left))
    rw [not_namePart (h.not_wordPart_before whole kind before left)] at inside
    cases inside
  · cases matched

theorem dot_of_last (m : Mark) (h : m.text.toList.getLast? = some '.') : m = .dot := by
  cases m <;> simp_all [Mark.text]

theorem Composed.no_point (h : Composed b ps tail fin) (whole : ps = a ++ p :: z)
    (kind : p.token.kind = .word w) (role : p.role ≠ .property) :
    (span a ++ p.gap).getLast? ≠ some '.' := by
  intro last
  rcases List.eq_nil_or_concat p.gap with none | ⟨g, c, wide⟩
  · rcases List.eq_nil_or_concat a with rfl | ⟨a', q, rfl⟩
    · rw [none] at last
      cases last
    · rw [List.concat_eq_append] at whole last
      rw [List.append_assoc] at whole
      have whole' : ps = a' ++ q :: p :: z := whole
      have fits := h.fits a' q (p :: z) whole'
      have last : q.chars.getLast? = some '.' := by
        rw [none, List.append_nil, span_append, List.getLast?_append_of_ne_nil, span_cons, span_nil,
          List.append_nil, List.getLast?_append_of_ne_nil _ fits.chars_ne_nil] at last
        · exact last
        · simp [fits.chars_ne_nil]
      have dotted := List.mem_of_getLast? last
      have fits' := h.fits (a' ++ [q]) p z (by rw [whole', List.append_assoc]; rfl)
      obtain ⟨chars, word, _⟩ := fits'.word kind
      generalize tagged : q.token.kind = qk
      cases qk with
      | number x =>
        -- A number does not end where a word begins.
        obtain ⟨c, cs, spell, start⟩ := exists_first_of_isWord word
        have stop := fits.number tagged c (by rw [span_cons, none, chars, spell]; rfl)
        rw [start] at stop
        cases stop
      | text t =>
        have blank := fits.veiled (by rw [Piece.isText, tagged]) '.' dotted
        exact absurd blank (by decide)
      | word v =>
        have parts := isWordPart_of_isWord (fits.word tagged).2.1
        exact absurd (parts '.' (by rw [← (fits.word tagged).1]; exact dotted)) (by decide)
      | mark m =>
        have mark := isMark_of_kind tagged
        rw [fits.mark mark] at last
        obtain rfl := dot_of_last m last
        have other : q.role = .other := by
          rcases (h.suits whole').of_mark mark with other | paren | ⟨comma, _⟩
          · exact other
          · cases paren
          · cases comma
        have awaits : q.toTagged.awaits = true := by
          rw [Tagged.awaits, show q.toTagged.role = .other from other]
          exact mark
        exact role (((h.suits_after whole').awaited awaits).of_other other)
      | finish =>
        have spelled := fits.spelled
        rw [tagged] at spelled
        cases spelled
  · rw [wide, List.concat_eq_append, ← List.append_assoc, List.getLast?_concat] at last
    have blank := h.gaps p (by rw [whole]; simp) c (by rw [wide]; simp)
    rw [Option.some.inj last] at blank
    exact absurd blank (by decide)

theorem callee_parts {u m : List Char} (name : isNameChars u = true) (member : MemberName m) :
    ∀ c ∈ u ++ m, isNamePart c = true ∨ c = '.' := by
  intro c among
  rcases List.mem_append.mp among with inside | inside
  · exact .inl (mem_isNameChars name c inside)
  · rcases member with rfl | ⟨v, rfl, name'⟩
    · cases inside
    · rcases List.mem_cons.mp inside with dot | inside
      · exact .inr dot
      · exact .inl (mem_isNameChars name' c inside)

theorem callee_ends {C u m g t : List Char} {c : Char} (h : C ++ c :: s = (u ++ m) ++ (g ++ '(' :: t))
    (name : isNameChars u = true) (member : MemberName m) (blank : Blank g)
    (start : isNameStart c = true) (left : C ≠ [])
    (last : ∀ e ∈ C.getLast?, isNamePart e = false ∧ e ≠ '.') :
    u.length + m.length + g.length + 1 ≤ C.length := by
  rcases List.append_eq_append_iff.mp h with ⟨y, whole, _⟩ | ⟨y, rfl, rest⟩
  · have found := last _ (List.getLast?_eq_some_getLast left)
    rcases callee_parts name member (C.getLast left)
      (by rw [whole]; exact List.mem_append_left y (List.getLast_mem left)) with part | dot
    · rw [found.1] at part
      cases part
    · exact absurd dot found.2
  · have paren : c ≠ '(' := by
      rintro rfl
      exact absurd start (by decide)
    rcases List.append_eq_append_iff.mp rest with ⟨y', rfl, after⟩ | ⟨y', rfl, after⟩
    · cases y' with
      | nil => exact absurd (List.cons.inj after).1.symm paren
      | cons d y' =>
        simp only [List.length_append, List.length_cons]
        omega
    · cases y' with
      | nil => exact absurd (List.cons.inj after).1 paren
      | cons d y' =>
        have blank' := blank d (by simp)
        rw [← (List.cons.inj after).1,
          isBlank_of_wordPart (isWordPart_of_namePart (isNamePart_of_start start))] at blank'
        cases blank'

theorem Composed.callee_found (h : Composed b ps tail fin) (whole : ps = a ++ p :: z)
    (kind : p.token.kind = .word w) (name : isName w = true)
    (pointless : (span a ++ p.gap).getLast? ≠ some '.') {m g t : List Char} (member : MemberName m)
    (blank : Blank g) (text : span z ++ tail = m ++ (g ++ '(' :: t)) :
    ((span a ++ p.gap).length, w.toList.length + m.length + g.length + 1, w.toList ++ m) ∈
      findAll calleeAt b := by
  obtain ⟨chars, _, _⟩ := (h.fits a p z whole).word kind
  have found : calleeAt (span a ++ p.gap).getLast? (p.chars ++ (span z ++ tail)) =
      some (w.toList.length + m.length + g.length + 1, w.toList ++ m) :=
    calleeAt_eq_some_iff.mpr ⟨w.toList, m, g, t, by rw [chars, text], rfl, name, member, blank, rfl⟩
  refine h.finds whole found fun A' C k v before left _ matched => ?_
  obtain ⟨u, m', g', t', same, rfl, name', member', blank', rfl⟩ := calleeAt_eq_some_iff.mp matched
  obtain ⟨c, cs, spell, start⟩ := head_of_nameChars name
  rw [chars, spell, List.cons_append, ← List.append_assoc u] at same
  refine callee_ends same name' member' blank' start left fun e last => ?_
  have before' : (span a ++ p.gap).getLast? = some e := by
    rw [before, List.getLast?_append_of_ne_nil _ left]
    exact last
  exact ⟨not_namePart (h.before_word whole kind e before'), fun dot => pointless (dot ▸ before')⟩

end Uses

end EmitterLogic.Tick
