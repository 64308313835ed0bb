import EmitterLogic.Proofs.Tick.Places

namespace EmitterLogic.Tick

open Text Script Parser

theorem of_mem_readings {α : Type} {m : Matcher α} {s : List Char} {v : α} (h : v ∈ readings m s) :
    ∃ A B n, s = A ++ B ∧ B ≠ [] ∧ m A.getLast? B = some (n, v) ∧ (A.length, n, v) ∈ findAll m s := by
  obtain ⟨⟨q, n, v⟩, member, rfl⟩ := List.mem_map.mp h
  obtain ⟨A, B, whole, rfl, left, found⟩ := of_mem_findAll member
  exact ⟨A, B, n, whole, left, found, member⟩

section Heads

variable {b A B s tail : List Char} {ps a z : List Piece} {p d o : Piece} {fin : Token} {n : Nat}
  {v : List Char}

theorem Composed.fresh (h : Composed b ps tail fin) {w : String} (whole : ps = a ++ p :: z)
    (kind : p.token.kind = .word w) : (span a ++ p.gap).getLast?.any isWordChar = false := by
  have before := h.before_word whole kind
  cases last : (span a ++ p.gap).getLast? with
  | none => rfl
  | some c =>
    rw [Option.any_some, Bool.eq_false_iff]
    intro word
    have other := before c last
    rw [Predicate.isWordPart_of_wordChar word] at other
    cases other

theorem Composed.finds {α : Type} {m : Matcher α} {v : α} (h : Composed b ps tail fin)
    (whole : ps = a ++ d :: z)
    (found : m (span a ++ d.gap).getLast? (d.chars ++ (span z ++ tail)) = some (n, v))
    (clear : ∀ A' C k w, span a ++ d.gap = A' ++ C → C ≠ [] →
      b = A' ++ (C ++ (d.chars ++ (span z ++ tail))) →
        m A'.getLast? (C ++ (d.chars ++ (span z ++ tail))) = some (k, w) → k ≤ C.length) :
    ((span a ++ d.gap).length, n, v) ∈ findAll m b := by
  have text := h.split whole
  rw [text]
  refine mem_findAll ?_ found fun A' C k w before left matched => clear A' C k w before left ?_ matched
  · simp [(h.fits a d z whole).chars_ne_nil]
  · rw [text, before, List.append_assoc]

theorem mem_readings {α : Type} {m : Matcher α} {s : List Char} {q : Nat} {v : α}
    (found : (q, n, v) ∈ findAll m s) : v ∈ readings m s := List.mem_map_of_mem found

theorem ends_blank {g : List Char} (blank : Blank g) {p : Char → Bool}
    (apart : ∀ c, isBlank c = true → p c = false) (ends : ∀ c ∈ s.head?, p c = false) :
    ∀ c ∈ (g ++ s).head?, p c = false := by
  cases g with
  | nil => exact ends
  | cons d g =>
    intro c head
    obtain rfl : d = c := Option.some.inj head
    exact apart d (blank d List.mem_cons_self)

theorem not_wordPart_of_blank {c : Char} (blank : isBlank c = true) : isWordPart c = false := by
  rw [Bool.eq_false_iff]
  intro part
  rw [isBlank_of_wordPart part] at blank
  cases blank

theorem not_namePart {c : Char} (h : isWordPart c = false) : isNamePart c = false := by
  rw [Bool.eq_false_iff]
  intro part
  rw [isWordPart_of_namePart part] at h
  cases h

theorem head_of_nameChars (name : isNameChars v = true) :
    ∃ c w, v = c :: w ∧ isNameStart c = true := by
  cases v with
  | nil => cases name
  | cons c w =>
    rw [isNameChars, Bool.and_eq_true] at name
    exact ⟨c, w, rfl, name.1⟩

theorem Composed.name_eq (h : Composed b ps tail fin) {w : String} (whole : ps = a ++ p :: z)
    (kind : p.token.kind = .word w) (text : v ++ s = p.chars ++ (span z ++ tail))
    (name : isNameChars v = true) (ends : EndsName s) (named : isName w = true) :
    v = w.toList ∧ p.chars = w.toList ∧ s = span z ++ tail := by
  obtain ⟨chars, _, stops⟩ := (h.fits a p z whole).word kind
  rw [chars] at text
  obtain ⟨rfl, rest⟩ := run_unique text (mem_isNameChars name) (mem_isNameChars named) ends
    fun c head => not_namePart (stops c head)
  exact ⟨rfl, chars, rest⟩

def isSign (c : Char) (m : Mark) : Bool :=
  !isBlank c && !isWordPart c && !isDecimal c && !Reading.numberSigns.contains c &&
    Mark.all.all fun n => !n.text.toList.contains c || n == m

theorem mem_all (m : Mark) : m ∈ Mark.all := by cases m <;> decide

theorem Composed.sign (h : Composed b ps tail fin) {c : Char} {m : Mark} (sign : isSign c m = true)
    (whole : ps = a ++ p :: z) (member : c ∈ p.chars) : p.token.isMark m = true := by
  simp only [isSign, Bool.and_eq_true, Bool.not_eq_true', List.contains_eq_mem,
    decide_eq_false_iff_not, List.all_eq_true, Bool.or_eq_true, beq_iff_eq] at sign
  obtain ⟨⟨⟨⟨shown, word⟩, decimal⟩, number⟩, only⟩ := sign
  obtain ⟨n, kind, found⟩ := (h.fits a p z whole).mark_of_char member shown word ⟨decimal, number⟩
  rw [Token.isMark, kind]
  exact beq_iff_eq.mpr ((only n (mem_all n)).resolve_left fun none => none found)

theorem Composed.sign_of_text (h : Composed b ps tail fin) {c : Char} {m : Mark}
    (sign : isSign c m = true) (whole : ps = a ++ p :: z)
    (text : c :: s = p.chars ++ (span z ++ tail)) : p.token.isMark m = true := by
  obtain ⟨d, cs, chars⟩ := List.exists_cons_of_ne_nil (h.fits a p z whole).chars_ne_nil
  rw [chars] at text
  refine h.sign sign whole ?_
  rw [chars, (List.cons.inj text).1]
  exact List.mem_cons_self

theorem word_of_name (h : Composed b ps tail fin) (whole : ps = a ++ p :: z)
    (text : v ++ s = p.chars ++ (span z ++ tail)) (name : isNameChars v = true) {m : Mark}
    (bad : m ∈ [.leftParen, .rightParen, .leftBrace]) : p.token.isMark m = false := by
  rw [Bool.eq_false_iff]
  intro mark
  obtain ⟨c, w, rfl, start⟩ := head_of_nameChars name
  have all : ([Mark.leftParen, .rightParen, .leftBrace].all fun m =>
      m.text.toList.head?.any fun c => !isNameStart c) = true := by decide
  have other := List.all_eq_true.mp all m bad
  have same : (p.chars ++ (span z ++ tail)).head? = p.chars.head? :=
    List.head?_append_of_ne_nil _ (h.fits a p z whole).chars_ne_nil
  rw [← (h.fits a p z whole).mark mark, ← same, ← text, List.cons_append, List.head?_cons,
    Option.any_some, start] at other
  cases other

theorem name_goes (name : isNameChars v = true) :
    ∀ c ∈ (v ++ s).head?, isBlank c = false ∧ c ∉ [',', '\x7d', ':'] := by
  obtain ⟨c, w, rfl, start⟩ := head_of_nameChars name
  intro d head
  obtain rfl : c = d := Option.some.inj head
  refine ⟨shown_of_isNameChars name (s := s) c rfl, fun bad => ?_⟩
  have none : ([',', '\x7d', ':'].all fun c => !isNameStart c) = true := by decide
  have other := List.all_eq_true.mp none c bad
  rw [start] at other
  cases other

theorem gap_ends {g : List Char} (blank : Blank g) (wide : g ≠ []) :
    ∀ c ∈ (g ++ s).head?, isWordPart c = false := by
  obtain ⟨c, g, rfl⟩ := List.exists_cons_of_ne_nil wide
  intro d head
  obtain rfl : c = d := Option.some.inj head
  exact not_wordPart_of_blank (blank c List.mem_cons_self)

theorem not_mark_of_word {t : Token} {m : Mark} {w : String} (kind : t.kind = .word w) :
    t.isMark m = false := by rw [Token.isMark, kind]

theorem word_of_free {t : Token} (free : ∃ w, t.freeWord? = some w) : ∃ w, t.kind = .word w :=
  free.imp fun _ free => (kind_of_freeWord free).1

theorem declaration_reads (r : Regular ps) (h : Composed b ps tail fin) (text : b = A ++ B)
    (found : declaration A.getLast? B = some (n, v)) :
    ∃ a d p z kind w, ps = a ++ d :: p :: z ∧ A = span a ++ d.gap ∧ d.role = .keyword ∧
      p.role = .binder kind ∧ kind ≠ .later ∧ p.token.kind = .word w ∧ v = w.toList ∧
        n = d.chars.length + (span [p]).length := by
  obtain ⟨fresh, k, member, g, t, rfl, blank, wide, name, ends, rfl⟩ :=
    declaration_eq_some_iff.mp found
  have telling : k ∈ tellingWords := List.mem_append_left ["catch"] member
  obtain ⟨a, d, p, z, whole, keyword, before, rfl, after, awaited⟩ := r.opened h telling text fresh
    blank (by simp [ne_nil_of_isNameChars name]) (gap_ends blank wide) (name_goes name)
  obtain ⟨role, word⟩ := keyword_of_isKeyword keyword
  have role : d.role = .keyword := role
  have whole' : ps = (a ++ [d]) ++ p :: z := by rw [whole, List.append_assoc]; rfl
  have unmarked {m : Mark} := word_of_name (m := m) h whole' after name
  obtain ⟨kind, binder, first, w, kind'⟩ : ∃ kind, p.role = .binder kind ∧ kind ≠ .later ∧
      ∃ w, p.token.kind = .word w := by
    rcases awaited.of_keyword (not_mark_of_word word) role with
      ⟨word', ⟨first, _⟩ | ⟨function, _⟩⟩ | ⟨opening, _⟩ | opening
    · exact ⟨_, first, nofun, word'⟩
    · exact ⟨_, function, nofun, word'⟩
    · rw [unmarked (by decide)] at opening
      cases opening
    · rw [unmarked (by decide)] at opening
      cases opening
  -- No statement begins with the word for classes.
  have declares : k ∈ ["let", "const", "var", "function"] := by
    have split : k = "class" ∨ k ∈ ["let", "const", "var", "function"] := by
      simp only [List.mem_cons, List.not_mem_nil, or_false] at member ⊢
      tauto
    refine split.resolve_left ?_
    rintro rfl
    have suits := h.suits whole
    rw [role] at suits
    obtain ⟨_, w', known, kind''⟩ := suits
    obtain rfl : "class" = w' := TokenKind.word.inj (word.symm.trans kind'')
    exact absurd known (by decide)
  have named := r.names whole declares (isWord_of_kind word) kind'
  obtain ⟨rfl, chars, _⟩ := h.name_eq whole' kind' after name ends named
  refine ⟨a, d, p, z, kind, w, whole, before, role, binder, first, kind', rfl, ?_⟩
  rw [((h.fits a d (p :: z) whole).word word).1, span_cons, chars]
  simp only [List.length_append, span_nil, List.length_nil]
  omega

theorem Composed.gap_ne_nil (h : Composed b ps tail fin) {k w : String}
    (whole : ps = a ++ d :: p :: z) (kind : d.token.kind = .word k) (kind' : p.token.kind = .word w)
    (name : isName w = true) : p.gap ≠ [] := by
  obtain ⟨_, _, stops⟩ := (h.fits a d (p :: z) whole).word kind
  obtain ⟨chars, _⟩ := (h.fits (a ++ [d]) p z (by rw [whole, List.append_assoc]; rfl)).word kind'
  intro none
  obtain ⟨c, cs, spell, start⟩ := head_of_nameChars name
  rw [span_cons, none, chars, spell] at stops
  have stop := stops c rfl
  rw [isWordPart_of_namePart (isNamePart_of_start start)] at stop
  cases stop

theorem declared_read (r : Regular ps) (h : Composed b ps tail fin) {k w : String}
    (whole : ps = a ++ d :: p :: z) (declares : k ∈ ["let", "const", "var", "function"])
    (keyword : d.toTagged.isKeyword k = true) (kind : p.token.kind = .word w) :
    w.toList ∈ readings declaration b := by
  obtain ⟨role, word⟩ := keyword_of_isKeyword keyword
  have role : d.role = .keyword := role
  have fits := h.fits a d (p :: z) whole
  have fits' := h.fits (a ++ [d]) p z (by rw [whole, List.append_assoc]; rfl)
  obtain ⟨chars, _⟩ := fits.word word
  obtain ⟨chars', _, stops⟩ := fits'.word kind
  have name := r.names whole declares (isWord_of_kind word) kind
  have wide := h.gap_ne_nil whole word kind name
  have after : d.chars ++ (span (p :: z) ++ tail) =
      k.toList ++ (p.gap ++ (w.toList ++ (span z ++ tail))) := by simp [chars, chars']
  have found : declaration (span a ++ d.gap).getLast? (d.chars ++ (span (p :: z) ++ tail)) =
      some (k.toList.length + p.gap.length + w.toList.length, w.toList) := by
    rw [after]
    exact declaration_eq_some_iff.mpr ⟨h.fresh whole word, k,
      List.mem_append_left ["class"] declares, p.gap, span z ++ tail, rfl, fits'.blank, wide, name,
        fun c head => not_namePart (stops c head), rfl⟩
  refine mem_readings (h.finds whole found fun A' C n' v' before left text matched => ?_)
  obtain ⟨a', d', p', z', kind', w', whole', there, role', binder, _, _, _, rfl⟩ :=
    declaration_reads r h text matched
  refine clear_of whole before left (R := [p']) whole' there fun x y same _ => ?_
  -- The name of the earlier declaration is no keyword.
  have last : p' = d := by
    cases x with
    | nil => exact (List.cons.inj same).1
    | cons q x =>
      have none := (List.cons.inj same).2
      cases x <;> cases none
  rw [last, role] at binder
  cases binder

theorem Composed.noSign (h : Composed b ps tail fin) {e : Char} {m : Mark} {inner : List Piece}
    {c : Piece} (sign : isSign e m = true) (whole : ps = a ++ (inner ++ c :: z))
    (plain : ∀ q ∈ inner, q.token.isMark m = false) : e ∉ span inner ++ c.gap := by
  have visible {g : List Char} (blank : Blank g) : e ∉ g := fun member => by
    rw [isSign, blank e member] at sign
    cases sign
  rw [List.mem_append, not_or]
  refine ⟨fun member => ?_, visible (h.gaps c (by rw [whole]; simp))⟩
  obtain ⟨q, there, found⟩ := List.mem_flatMap.mp member
  obtain ⟨x, y, rfl⟩ := List.append_of_mem there
  have whole' : ps = (a ++ x) ++ q :: (y ++ c :: z) := by
    rw [whole]
    simp only [List.append_assoc, List.cons_append]
  rcases List.mem_append.mp found with gap | chars
  · exact visible (h.fits _ q _ whole').blank gap
  · have none := plain q there
    rw [h.sign sign whole' chars] at none
    cases none

theorem not_paren_iff {t : Token} :
    isParen t = false ↔ t.isMark .leftParen = false ∧ t.isMark .rightParen = false := by
  rw [isParen, Bool.or_eq_false_iff]

theorem Composed.noClose (h : Composed b ps tail fin) {inner : List Piece} {c : Piece}
    (whole : ps = a ++ (inner ++ c :: z)) (plain : ∀ q ∈ inner, isParen q.token = false) :
    ')' ∉ span inner ++ c.gap :=
  h.noSign (m := .rightParen) (by decide) whole fun q member => (not_paren_iff.mp (plain q member)).2

theorem Regular.listed (r : Regular ps) (h : Composed b ps tail fin) {arrow : Bool}
    (whole : ps = a ++ o :: z) (role : o.role = .list arrow) :
    ∃ inner c more, z = inner ++ c :: more ∧ (∀ q ∈ inner, isParen q.token = false) ∧
      c.token.isMark .rightParen = true ∧ o.chars = ['('] ∧ c.chars = [')'] ∧
        ')' ∉ span inner ++ c.gap := by
  obtain ⟨inner, c, more, rfl, plain, closes, _⟩ := r.lists whole role
  have suits := h.suits whole
  rw [role] at suits
  have whole' : ps = (a ++ [o]) ++ (inner ++ c :: more) := by rw [whole, List.append_assoc]; rfl
  have fits := h.fits (a ++ o :: inner) c more (by rw [whole, List.append_assoc]; rfl)
  exact ⟨inner, c, more, rfl, plain, closes, (h.fits a o _ whole).mark suits.1, fits.mark closes,
    h.noClose whole' plain⟩

theorem Regular.enclosed (r : Regular ps) (h : Composed b ps tail fin) {arrow : Bool}
    (whole : ps = a ++ o :: z) (role : o.role = .list arrow) (noClose : ')' ∉ v)
    (text : '(' :: (v ++ ')' :: s) = o.chars ++ (span z ++ tail)) :
    ∃ inner c more, z = inner ++ c :: more ∧ (∀ q ∈ inner, isParen q.token = false) ∧
      c.token.isMark .rightParen = true ∧ v = span inner ++ c.gap ∧ o.chars = ['('] ∧
        c.chars = [')'] ∧ s = span more ++ tail := by
  obtain ⟨inner, c, more, rfl, plain, closes, opened, closed, none⟩ := r.listed h whole role
  rw [opened, span_append, span_cons, closed] at text
  obtain ⟨rfl, rest⟩ := enclosed_unique (t := span more ++ tail)
    (by simpa using (List.cons.inj text).2) noClose none
  exact ⟨inner, c, more, rfl, plain, closes, rfl, opened, closed, rest⟩

end Heads

end EmitterLogic.Tick
