import EmitterLogic.Proofs.Text.Search
import EmitterLogic.Proofs.Tick.Regular
import EmitterLogic.Proofs.Tick.Shapes

namespace EmitterLogic.Tick

open Text Script Parser

section Splits

theorem split_cases {α : Type} {a a' z z' : List α} {p p' : α} (h : a ++ p :: z = a' ++ p' :: z') :
    (∃ m, a = a' ++ p' :: m ∧ z' = m ++ p :: z) ∨ (a = a' ∧ p = p' ∧ z = z') ∨
      ∃ m, a' = a ++ p :: m ∧ z = m ++ p' :: z' := by
  have one {b c y w : List α} {q r : α} (first : c = b ++ y) (second : q :: w = y ++ r :: z) :
      (b = c ∧ q = r ∧ w = z) ∨ ∃ m, c = b ++ q :: m ∧ w = m ++ r :: z := by
    cases y with
    | nil =>
      obtain ⟨rfl, rfl⟩ := List.cons.inj second
      exact .inl ⟨by rw [first, List.append_nil], rfl, rfl⟩
    | cons s y =>
      obtain ⟨rfl, rest⟩ := List.cons.inj second
      exact .inr ⟨y, first, rest⟩
  rcases List.append_eq_append_iff.mp h with ⟨y, first, second⟩ | ⟨y, first, second⟩
  · cases y with
    | nil =>
      obtain ⟨rfl, rfl⟩ := List.cons.inj second
      exact .inr (.inl ⟨by rw [first, List.append_nil], rfl, rfl⟩)
    | cons s y =>
      obtain ⟨rfl, rest⟩ := List.cons.inj second
      exact .inr (.inr ⟨y, first, rest⟩)
  · rcases one first second with ⟨rfl, rfl, rfl⟩ | there
    · exact .inr (.inl ⟨rfl, rfl, rfl⟩)
    · exact .inl there

theorem run_unique {p : Char → Bool} {x y s t : List Char} (h : x ++ s = y ++ t)
    (hx : ∀ c ∈ x, p c = true) (hy : ∀ c ∈ y, p c = true) (hs : ∀ c ∈ s.head?, p c = false)
    (ht : ∀ c ∈ t.head?, p c = false) : x = y ∧ s = t := by
  have same : x = y := by
    rw [← takeWhile_append_stop hx hs, h, takeWhile_append_stop hy ht]
  subst same
  exact ⟨rfl, List.append_cancel_left h⟩

theorem blanks_unique_end {x y g g' : List Char} (h : x ++ g = y ++ g') (blank : Blank g)
    (blank' : Blank g') (shown : ∀ c ∈ x.getLast?, isBlank c = false)
    (shown' : ∀ c ∈ y.getLast?, isBlank c = false) : x = y ∧ g = g' := by
  have flipped := congrArg List.reverse h
  rw [List.reverse_append, List.reverse_append] at flipped
  have back {g : List Char} (blank : Blank g) : Blank g.reverse :=
    fun c member => blank c (List.mem_reverse.mp member)
  obtain ⟨gaps, texts⟩ := blanks_unique flipped (back blank) (back blank')
    (by rwa [Text.Shown, List.head?_reverse]) (by rwa [Text.Shown, List.head?_reverse])
  exact ⟨List.reverse_injective texts, List.reverse_injective gaps⟩

theorem enclosed_unique {v e s t : List Char} (h : v ++ ')' :: s = e ++ ')' :: t) (hv : ')' ∉ v)
    (he : ')' ∉ e) : v = e ∧ s = t := by
  have other {s : List Char} (none : ')' ∉ s) : ∀ d ∈ s, (d != ')') = true := fun d member => by
    simpa using fun e : d = ')' => none (e ▸ member)
  have stop {s : List Char} : ∀ d ∈ (')' :: s).head?, (d != ')') = false := fun d first => by
    obtain rfl : ')' = d := Option.some.inj first
    rfl
  obtain ⟨same, rest⟩ := run_unique h (other hv) (other he) stop stop
  exact ⟨same, (List.cons.inj rest).2⟩

end Splits

section Places

variable {b A B C g s tail : List Char} {ps a a' z z' : List Piece} {p d d' : Piece} {fin : Token}

theorem length_span_append_cons (a m : List Piece) (p : Piece) :
    (span (a ++ p :: m)).length = (span a).length + p.gap.length + p.chars.length +
      (span m).length := by
  simp only [span_append, span_cons, List.length_append]
  omega

theorem clear_of {A' : List Char} {R rest : List Piece} (whole : ps = a ++ d :: rest)
    (here : span a ++ d.gap = A' ++ C) (left : C ≠ []) (whole' : ps = a' ++ d' :: (R ++ z'))
    (there : A' = span a' ++ d'.gap)
    (apart : ∀ x y, R = x ++ d :: y → rest = y ++ z' → False) :
    d'.chars.length + (span R).length ≤ C.length := by
  have count := congrArg List.length here
  have positive := List.length_pos_iff.mpr left
  rw [there] at count
  simp only [List.length_append] at count
  rcases split_cases (whole.symm.trans whole') with ⟨m, rfl, rest'⟩ | ⟨rfl, rfl, _⟩ | ⟨m, rfl, _⟩
  · rw [length_span_append_cons] at count
    -- The pieces of the match end before the later piece.
    rcases List.append_eq_append_iff.mp rest' with ⟨y, rfl, _⟩ | ⟨y, inner, outer⟩
    · rw [span_append, List.length_append] at count
      omega
    · cases y with
      | nil =>
        rw [List.append_nil] at inner
        subst inner
        omega
      | cons q y =>
        obtain ⟨rfl, rest'⟩ := List.cons.inj outer
        exact (apart m y inner rest').elim
  · omega
  · rw [length_span_append_cons] at count
    omega

namespace Composed

variable (h : Composed b ps tail fin)
include h

theorem followed (whole : ps = a ++ p :: z) (awaits : p.toTagged.awaits = true)
    (text : span z ++ tail = g ++ s) (blank : Blank g) (shown : Shown s) (left : s ≠ []) :
    ∃ q z', z = q :: z' ∧ g = q.gap ∧ s = q.chars ++ (span z' ++ tail) ∧
      Awaited p.toTagged q.token (z'.map (·.token) ++ [fin]) q.role := by
  have awaited {q : Piece} {z' : List Piece} (same : z = q :: z') :
      Suits (p.toTagged :: a.reverse.map Piece.toTagged) q.token (z'.map (·.token) ++ [fin])
        q.role := h.suits_after (by rw [whole, same])
  obtain ⟨q, z', rfl, gap, chars⟩ := h.following (a := a ++ [p]) (z := z)
    (by rw [whole, List.append_assoc]; rfl) text blank shown left fun q head => by
      cases z with
      | nil => cases head
      | cons r z =>
        obtain rfl : r = q := Option.some.inj head
        rw [Piece.isText]
        split
        · next t kind => exact absurd kind ((awaited rfl).not_text awaits t)
        · rfl
  exact ⟨q, z', rfl, gap, chars, (awaited rfl).awaited awaits⟩

theorem next_mark {m : Mark} (whole : ps = a ++ z) (text : span z ++ tail = g ++ s)
    (blank : Blank g) (shown : Shown s) (left : s ≠ [])
    (mark : (front (z.map (·.token) ++ [fin])).isMark m = true) : ∃ rest, s = m.text.toList ++ rest := by
  obtain ⟨q, z', rfl, here⟩ := front_mark h.finish mark
  obtain ⟨q', z'', same, _, chars⟩ := h.following whole text blank shown left fun q' head => by
    obtain rfl : q = q' := Option.some.inj head
    rw [Piece.isText, kind_of_isMark here]
  obtain ⟨rfl, rfl⟩ := List.cons.inj same
  exact ⟨_, by rw [chars, (h.fits a q z' whole).mark here]⟩

theorem word_at {k : List Char} (text : b = A ++ (k ++ s)) (parts : ∀ c ∈ k, isWordPart c = true)
    (first : ∃ c ∈ k.head?, isDecimal c = false ∧ c ∉ Reading.numberSigns)
    (ends : ∀ c ∈ s.head?, isWordPart c = false) :
    ∃ a p z w u, ps = a ++ p :: z ∧ p.token.kind = .word w ∧ w.toList = u ++ k ∧
      A = (span a ++ p.gap) ++ u ∧ s = span z ++ tail := by
  obtain ⟨c, head, number⟩ := first
  cases k with
  | nil => cases head
  | cons d k =>
    obtain rfl : d = c := Option.some.inj head
    have part := parts d List.mem_cons_self
    obtain ⟨a, p, z, u, v, whole, chars, before, after⟩ := h.locate text (isBlank_of_wordPart part)
    have fits := h.fits a p z whole
    obtain ⟨w, kind⟩ := fits.word_of_char (by rw [chars]; simp) part number
    obtain ⟨spelled, word, stops⟩ := fits.word kind
    rw [chars] at spelled
    have all := isWordPart_of_isWord word
    rw [← spelled] at all
    obtain ⟨rfl, rest⟩ := run_unique after (fun e there => parts e (List.mem_cons_of_mem d there))
      (fun e there => all e (by simp [there])) ends stops
    exact ⟨a, p, z, w, u, whole, kind, spelled.symm, by rw [before, List.append_assoc], rest⟩

theorem locate_mark {c : Char} (text : b = A ++ c :: B) (shown : isBlank c = false)
    (word : isWordPart c = false) (number : isDecimal c = false ∧ c ∉ Reading.numberSigns) :
    ∃ a p z m u v, ps = a ++ p :: z ∧ p.token.kind = .mark m ∧ m.text.toList = u ++ c :: v ∧
      A = (span a ++ p.gap) ++ u ∧ B = v ++ (span z ++ tail) := by
  obtain ⟨a, p, z, u, v, whole, chars, before, after⟩ := h.locate text shown
  have fits := h.fits a p z whole
  obtain ⟨m, kind, _⟩ := fits.mark_of_char (by rw [chars]; simp) shown word number
  exact ⟨a, p, z, m, u, v, whole, kind, by rw [← fits.mark (isMark_of_kind kind), chars],
    by rw [before, List.append_assoc], after⟩

end Composed

theorem endsWithWord_append {word : String} {u : List Char}
    (fresh : u.getLast?.any isWordChar = false) :
    endsWithWord word (u ++ word.toList) = true := by
  rw [endsWithWord, List.reverse_append, dropWord?_append]
  simp only [List.head?_reverse, fresh, Bool.not_false]

theorem tellingWords_plain : ∀ k ∈ tellingWords, k.toList.all isWordPart = true ∧
    (∃ c ∈ k.toList.head?, isDecimal c = false ∧ c ∉ Reading.numberSigns) ∧
      isReserved k = true ∧ literalOf? k = none ∧ (k ∈ statementWords → k ∈ awaitingWords) := by
  have first : ∀ k ∈ tellingWords, (k.toList.head?.any fun c =>
      !isDecimal c && !(Reading.numberSigns.contains c)) = true := by decide
  have others : ∀ k ∈ tellingWords, k.toList.all isWordPart = true ∧ isReserved k = true ∧
      literalOf? k = none ∧ (k ∈ statementWords → k ∈ awaitingWords) := by decide
  intro k member
  obtain ⟨parts, others⟩ := others k member
  obtain ⟨c, head, number⟩ := (Option.any_eq_true _ _).mp (first k member)
  exact ⟨parts, ⟨c, head, by simpa using number⟩, others⟩

theorem Regular.told (r : Regular ps) (h : Composed b ps tail fin) {k : String}
    (member : k ∈ tellingWords) (text : b = A ++ (k.toList ++ s))
    (fresh : A.getLast?.any isWordChar = false) (ends : ∀ c ∈ s.head?, isWordPart c = false) :
    ∃ a p z, ps = a ++ p :: z ∧ p.token.kind = .word k ∧ A = span a ++ p.gap ∧
      s = span z ++ tail ∧ ∀ d ∈ a.getLast?, d.token.isMark .dot = false := by
  obtain ⟨parts, first, _⟩ := tellingWords_plain k member
  obtain ⟨a, p, z, w, u, whole, kind, chars, before, after⟩ := h.word_at text
    (List.all_eq_true.mp parts) first ends
  have endsWith : endsWithWord k w.toList = true := by
    rw [chars]
    refine endsWithWord_append ?_
    rcases List.eq_nil_or_concat u with rfl | ⟨u', d, rfl⟩
    · rfl
    · rw [before, List.concat_eq_append, ← List.append_assoc, List.getLast?_concat] at fresh
      rwa [List.concat_eq_append, List.getLast?_concat]
  obtain ⟨rfl, apart⟩ := r.words whole kind member endsWith
  obtain rfl : u = [] := List.self_eq_append_left.mp chars
  rw [List.append_nil] at before
  exact ⟨a, p, z, whole, kind, before, after, apart⟩

theorem Regular.opened (r : Regular ps) (h : Composed b ps tail fin) {k : String}
    (member : k ∈ tellingWords) (text : b = A ++ (k.toList ++ (g ++ s)))
    (fresh : A.getLast?.any isWordChar = false) (blank : Blank g) (left : s ≠ [])
    (ends : ∀ c ∈ (g ++ s).head?, isWordPart c = false)
    (goes : ∀ c ∈ s.head?, isBlank c = false ∧ c ∉ [',', '\x7d', ':']) :
    ∃ a p q z, ps = a ++ p :: q :: z ∧ p.toTagged.isKeyword k = true ∧ A = span a ++ p.gap ∧
      g = q.gap ∧ s = q.chars ++ (span z ++ tail) ∧
        Awaited p.toTagged q.token (z.map (·.token) ++ [fin]) q.role := by
  obtain ⟨a, p, z, whole, kind, before, after, apart⟩ := r.told h member text fresh ends
  obtain ⟨_, _, reserved, literal, awaiting⟩ := tellingWords_plain k member
  have shown : Shown s := fun d head => (goes d head).1
  have suits := h.suits whole
  have unmarked {m : Mark} {d : Char} (bad : d ∈ [',', '\x7d', ':']) (single : m.text.toList = [d])
      (mark : (front (z.map (·.token) ++ [fin])).isMark m = true) : False := by
    obtain ⟨rest, same⟩ := h.next_mark (a := a ++ [p]) (by rw [whole, List.append_assoc]; rfl)
      after.symm blank shown left mark
    exact (goes d (by rw [same, single]; rfl)).2 bad
  have keyword : p.role = .keyword := by
    rcases suits.keyword_of_reserved kind reserved literal (fun d head => by
      obtain ⟨a', q, rfl, same⟩ := exists_last (P := (· = d)) ⟨d, head, rfl⟩
      subst same
      exact apart q List.getLast?_concat) with keyword | mark | mark | mark
    · exact keyword
    · exact (unmarked (d := ',') (by simp) (by decide) mark).elim
    · exact (unmarked (d := '\x7d') (by simp) (by decide) mark).elim
    · exact (unmarked (d := ':') (by simp) (by decide) mark).elim
  have known : k ∈ statementWords := by
    rw [keyword] at suits
    obtain ⟨_, w, known, kind'⟩ := suits
    obtain rfl : k = w := TokenKind.word.inj (kind.symm.trans kind')
    exact known
  have word := isWord_of_kind kind
  have awaits : p.toTagged.awaits = true := by
    rw [Tagged.awaits, show p.toTagged.role = .keyword from keyword]
    exact List.any_eq_true.mpr ⟨k, awaiting known, word⟩
  obtain ⟨q, z', rfl, gap, chars, awaited⟩ := h.followed whole awaits after.symm blank shown left
  refine ⟨a, p, q, z', whole, ?_, before, gap, chars, awaited⟩
  rw [Tagged.isKeyword, show p.toTagged.role = .keyword from keyword]
  exact word

end Places

end EmitterLogic.Tick
