import EmitterLogic.Proofs.Tick.Known

namespace EmitterLogic.Tick

open Text Script Parser

section Checks

/-- A word is a plain name. -/
def wordsPlain (rest : List Token) : Bool :=
  match rest with
  | ⟨.word w, _, _⟩ :: _ => isPlain w
  | _ => true

/-- A member stands directly after its point, and that of a member which is called directly after the name
of the mathematics namespace. -/
def membersTold (past rest : List Token) : Bool :=
  match past, rest with
  | d :: past, ⟨.word _, position, _⟩ :: more =>
    !d.isMark .dot || (position == d.position + 1 && (!(front more).isMark .leftParen ||
      past.head?.any fun o => o.isWord "Math" && d.position == o.position + 4))
  | _, _ => true

/-- A word of a statement that stands before a parenthesis is known to stand there without calling
anything. -/
def headsTold (rest : List Token) : Bool :=
  match rest with
  | ⟨.word w, _, _⟩ :: more =>
    !statementWords.contains w || headWords.contains w || !(front more).isMark .leftParen
  | _ => true

def evidentAt (past rest : List Token) : Bool :=
  wordsPlain rest && membersTold past rest && headsTold rest

/-- Can the names that a script uses and calls be told without parsing it? -/
def isEvident (source : String) : Bool :=
  match tokens source with
  | .ok ts => everywhere evidentAt [] ts
  | .error _ => false

end Checks

structure Evident (ps : List Piece) : Prop where
  plain : ∀ {p w}, p ∈ ps → p.token.kind = .word w → isPlain w = true
  members : ∀ {a d p z w}, ps = a ++ d :: p :: z → d.token.isMark .dot = true →
    p.token.kind = .word w → p.gap = []
  holders : ∀ {a d p r z w}, ps = a ++ d :: p :: r :: z → d.token.isMark .dot = true →
    p.token.kind = .word w → r.token.isMark .leftParen = true →
    ∃ a' o, a = a' ++ [o] ∧ o.token.kind = .word "Math" ∧ d.gap = []
  heads : ∀ {a p r z w}, ps = a ++ p :: r :: z → p.token.kind = .word w → w ∈ statementWords →
    r.token.isMark .leftParen = true → w ∈ headWords

section Evident

variable {b tail : List Char} {ps a z : List Piece} {p d r : Piece} {fin : Token} {w : String}

theorem Composed.gap_nil (h : Composed b ps tail fin) (whole : ps = a ++ d :: p :: z)
    (adjacent : p.token.position = d.token.position + d.chars.length) : p.gap = [] := by
  have first := (h.fits a d (p :: z) whole).place
  have second := (h.fits (a ++ [d]) p z (by rw [whole, List.append_assoc]; rfl)).place
  simp only [span_append, span_cons, span_nil, List.append_nil, List.length_append] at second
  exact List.length_eq_zero_iff.mp (by omega)

theorem evident_of_tells (h : Composed b ps tail fin)
    (tells : everywhere evidentAt [] (ps.map (·.token) ++ [fin]) = true) : Evident ps := by
  have told {a z : List Piece} (whole : ps = a ++ z) :
      evidentAt (a.map (·.token)).reverse (z.map (·.token) ++ [fin]) = true := tells_split tells whole
  simp only [evidentAt, Bool.and_eq_true] at told
  have member {a z : List Piece} {d p : Piece} {w : String} (whole : ps = a ++ d :: p :: z)
      (dot : d.token.isMark .dot = true) (kind : p.token.kind = .word w) : p.token.position = d.token.position + 1 ∧
        ((front (z.map (·.token) ++ [fin])).isMark .leftParen = true →
          ∃ a' o, a = a' ++ [o] ∧ o.token.kind = .word "Math" ∧
            d.token.position = o.token.position + 4) := by
    have tell := (told (a := a ++ [d]) (z := p :: z) (by rw [whole, List.append_assoc]; rfl)).1.2
    obtain ⟨position, broken, token⟩ := exists_word kind
    rw [List.map_cons, List.cons_append, token, tokens_before, List.reverse_append,
      List.reverse_singleton, List.singleton_append, List.map_cons, membersTold, dot, Bool.not_true,
      Bool.false_or, Bool.and_eq_true, beq_iff_eq] at tell
    refine ⟨by rw [token]; exact tell.1, fun opening => ?_⟩
    have there := tell.2
    rw [opening, Bool.not_true, Bool.false_or] at there
    rcases List.eq_nil_or_concat a with rfl | ⟨a', o, rfl⟩
    · cases there
    · rw [List.concat_eq_append, List.reverse_append, List.reverse_singleton, List.singleton_append,
        List.map_cons, List.head?_cons, Option.any_some, Bool.and_eq_true, beq_iff_eq] at there
      exact ⟨a', o, List.concat_eq_append, kind_of_isWord there.1, there.2⟩
  constructor
  · intro p w among kind
    obtain ⟨a, z, whole⟩ := List.append_of_mem among
    have tell := (told whole).1.1
    obtain ⟨position, broken, token⟩ := exists_word kind
    rwa [List.map_cons, List.cons_append, token] at tell
  · intro a d p z w whole dot kind
    refine h.gap_nil whole ?_
    rw [(member whole dot kind).1, (h.fits a d (p :: z) whole).mark dot]
    rfl
  · intro a d p r z w whole dot kind opening
    obtain ⟨a', o, rfl, math, adjacent⟩ := (member whole dot kind).2 opening
    have whole' : ps = a' ++ o :: d :: p :: r :: z := by rw [whole, List.append_assoc]; rfl
    refine ⟨a', o, rfl, math, h.gap_nil whole' ?_⟩
    rw [adjacent, ((h.fits a' o _ whole').word math).1]
    rfl
  · intro a p r z w whole kind statement opening
    have tell := (told whole).2
    obtain ⟨position, broken, token⟩ := exists_word kind
    have next : (front (r.token :: (z.map (·.token) ++ [fin]))).isMark .leftParen = true := opening
    rw [List.map_cons, List.map_cons, List.cons_append, List.cons_append, token, headsTold, next,
      List.contains_iff_mem.mpr statement] at tell
    simpa using tell

end Evident

section Uses

variable {b tail : List Char} {ps a z : List Piece} {p d r : Piece} {fin : Token} {w : String}

theorem mem_signOf_or {s : List Char} : ∀ c ∈ s, c ∈ (Reading.signOf s).2 ∨ c = '-' ∨ c = '+' := by
  intro c member
  unfold Reading.signOf
  split
  · exact (List.mem_cons.mp member).elim (.inr ∘ .inl) .inl
  · exact (List.mem_cons.mp member).elim (.inr ∘ .inr) .inl
  · exact .inl member

theorem before_exponent {whole fraction exponent x y : List Char} {c : Char}
    (spells : Reading.IsUnsigned isDecimal whole fraction exponent)
    (split : whole ++ (fraction ++ exponent) = x ++ c :: y) (start : isNameStart c = true) :
    isWordChar c = true ∧ ∃ e, x.getLast? = some e ∧ (isDecimal e = true ∨ e = '.') := by
  obtain ⟨digit, signs⟩ : isDecimal c = false ∧ c ∉ ['.', '-', '+'] := by
    have all : (!isDecimal c && !(['.', '-', '+'].contains c)) = true := by
      rw [isNameStart, Bool.or_eq_true, beq_iff_eq] at start
      rcases start with letter | rfl
      · exact of_isIdentStart (f := fun c => !isDecimal c && !(['.', '-', '+'].contains c))
          (by decide) letter
      · decide
    simpa using all
  have front : ∀ e ∈ whole ++ fraction, isDecimal e = true ∨ e = '.' := by
    refine List.forall_mem_append.mpr ⟨fun e member => .inl (spells.digits e member), ?_⟩
    cases fraction with
    | nil => exact List.forall_mem_nil _
    | cons point ds =>
      exact List.forall_mem_cons.mpr
        ⟨.inr spells.fractional.1, fun e member => .inl (spells.fractional.2 e member)⟩
  have left : whole ++ fraction ≠ [] := by
    intro none
    obtain ⟨rfl, rfl⟩ := List.append_eq_nil_iff.mp none
    exact absurd (spells.counts rfl) (by decide)
  have outside : c ∉ whole ++ fraction := fun member => by
    rcases front c member with decimal | rfl
    · rw [digit] at decimal
      cases decimal
    · exact signs (by decide)
  have power := spells.power
  -- The character begins the exponent, since it is no digit and no sign.
  obtain ⟨rfl, rest⟩ : x = whole ++ fraction ∧ exponent = c :: y := by
    rw [← List.append_assoc] at split
    rcases List.append_eq_append_iff.mp split with ⟨k, rfl, rest⟩ | ⟨k, same, rest⟩
    · cases k with
      | nil => exact ⟨List.append_nil _, rest⟩
      | cons e k =>
        rw [rest] at power
        rcases mem_signOf_or c (List.mem_append_right k List.mem_cons_self) with decimal | rfl | rfl
        · have decimal := power.2.2 c decimal
          rw [digit] at decimal
          cases decimal
        · exact absurd (by decide) signs
        · exact absurd (by decide) signs
    · cases k with
      | nil => exact ⟨by rw [same, List.append_nil], rest.symm⟩
      | cons e k =>
        obtain ⟨rfl, _⟩ := List.cons.inj rest
        exact absurd (by rw [same]; simp) outside
  rw [rest] at power
  refine ⟨?_, _, List.getLast?_eq_some_getLast left, front _ (List.getLast_mem left)⟩
  have mark := power.1
  rw [Bool.or_eq_true, beq_iff_eq, beq_iff_eq] at mark
  rcases mark with rfl | rfl
  · decide
  · decide

theorem Composed.word_of_use (h : Composed b ps tail fin) (e : Evident ps) {u : Use}
    (read : u ∈ readings useAt b) (value : u.isValue = true) :
    ∃ a p z w, ps = a ++ p :: z ∧ p.token.kind = .word w ∧
      u = ⟨w, (span a ++ p.gap).getLast?, (trimStart (span z ++ tail)).head?⟩ := by
  obtain ⟨A, B, n, text, _, found, there⟩ := of_mem_readings read
  rw [useAt] at found
  split at found
  · next begins =>
    rw [Bool.and_eq_true] at begins
    obtain ⟨start, boundary⟩ := begins
    obtain ⟨_, _, same⟩ := Option.map_eq_some_iff.mp found
    have before : u.before = A.getLast? := by
      cases same
      rfl
    cases B with
    | nil => cases start
    | cons c B =>
      have start : isNameStart c = true := start
      have part := isWordPart_of_namePart (isNamePart_of_start start)
      obtain ⟨a, p, z, x, y, whole, chars, rfl, _⟩ := h.locate text (isBlank_of_wordPart part)
      have fits := h.fits a p z whole
      rcases fits.operand_of_part (c := c) (by rw [chars]; simp) part with ⟨f, number⟩ | ⟨w, word⟩
      -- The exponent sign of a number: no word begins there, or it is behind the point of a member.
      · have spelled := fits.spelled
        rw [number] at spelled
        generalize p.chars = cs at spelled chars
        cases spelled with
        | number spells _ =>
          obtain ⟨word, d, last, what⟩ := before_exponent spells chars start
          have last' : (span a ++ (p.gap ++ x)).getLast? = some d := by
            rw [← List.append_assoc, List.getLast?_append, last]
            rfl
          rcases what with digit | rfl
          · rw [last', isBoundary, Option.any_some, List.head?_cons, Option.any_some, word, isWordChar,
              isAlphanumeric, digit] at boundary
            simp at boundary
          · rw [Use.isValue, before, last'] at value
            cases value
      · obtain ⟨spell, _, _⟩ := fits.word word
        have there' := h.use_found whole word (e.plain (by rw [whole]; simp) word)
        rw [spell] at chars
        obtain ⟨_, _, rfl⟩ := found_within there' there
          (by simp only [List.length_append]; omega)
          (by rw [chars]; simp only [List.length_append, List.length_cons]; omega)
        exact ⟨a, p, z, w, whole, word, rfl⟩
  · cases found

end Uses

end EmitterLogic.Tick
