import EmitterLogic.Proofs.Script.Lexing

namespace EmitterLogic.Script

open Text (identStarts of_isIdentStart)

section Lexing

variable {cs ds : List Char} {ts us : Nat → List Token} {stops ends : List Char → Prop}

section Marks

theorem lexes_mark {m : Mark} (some : m.text.toList ≠ [])
    (h : ∀ rest, stops rest →
      lexemeAt (m.text.toList ++ rest) = .ok (m.text.length, .token (.mark m))) :
    Lexes m.text.toList (fun place => [Code.markAt m place]) stops :=
  lexes_token some h

theorem lexes_opening : Lexes ['('] (fun place => [Code.markAt .leftParen place]) fun _ => True :=
  lexes_mark (m := .leftParen) nofun fun _ _ => rfl

theorem lexes_closing : Lexes [')'] (fun place => [Code.markAt .rightParen place]) fun _ => True :=
  lexes_mark (m := .rightParen) nofun fun _ _ => rfl

theorem lexes_dot : Lexes ['.'] (fun place => [Code.markAt .dot place])
    fun rest => ∀ c ∈ rest.head?, Text.isDigitMark c = false := by
  refine lexes_mark (m := .dot) nofun fun rest stop => ?_
  have number : ¬startsNumber ('.' :: rest) = true := by
    cases rest with
    | nil => decide
    | cons c rest =>
      rw [startsNumber, stop c rfl]
      exact Bool.false_ne_true
  have mark : Mark.at? ('.' :: rest) = some .dot := rfl
  have visible : visible '.' = true := by decide
  refine (lexemeAt_visible visible rest).trans ?_
  rw [if_neg number, if_neg (by decide), if_neg (by decide), mark]

theorem lexes_minus : Lexes ['-'] (fun place => [Code.markAt .minus place])
    fun rest => ∀ c ∈ rest.head?, c ≠ '-' ∧ c ≠ '=' := by
  refine lexes_mark (m := .minus) nofun fun rest stop => ?_
  have mark : Mark.at? ('-' :: rest) = some .minus := by
    cases rest with
    | nil => rfl
    | cons c rest =>
      obtain ⟨minus, equals⟩ := stop c rfl
      simp [Mark.at?, Mark.all, Mark.text, List.isPrefixOf, minus.symm, equals.symm]
  have visible : visible '-' = true := by decide
  refine (lexemeAt_visible visible rest).trans ?_
  rw [startsNumber_of_ne (by decide), if_neg (by decide), if_neg (by decide), if_neg (by decide),
    mark]

theorem lexes_connective (o : Connective) :
    Lexes o.mark.text.toList (fun place => [Code.markAt o.mark place])
      fun rest => ∃ more, rest = ' ' :: more := by
  refine lexes_mark ?_ ?_
  · rcases o with o | o | o <;> cases o <;> exact nofun
  · rintro _ ⟨more, rfl⟩
    rcases o with o | o | o <;> cases o <;> rfl

end Marks

theorem endsWord_mark {c : Char} (h : isWordPart c = false) (cs : List Char) : EndsWord (c :: cs) := by
  rintro _ ⟨⟩
  exact h

theorem lexes_doubleTail : Lexes Code.doubleTail (fun close => [Code.markAt .rightParen close,
    Code.markAt .dot (close + 1), Code.wordAt "toDouble" (close + 2),
    Code.markAt .leftParen (close + 10), Code.markAt .rightParen (close + 11)]) fun _ => True := by
  have word : Lexes "toDouble".toList (fun place => [Code.wordAt "toDouble" place]) EndsWord :=
    lexes_word (by decide)
  have call := lexes_opening.append lexes_closing fun _ _ => trivial
  have named := word.append call fun rest _ => endsWord_mark (by decide) (')' :: rest)
  have member := lexes_dot.append named fun rest _ => by
    rintro _ ⟨⟩
    decide
  exact lexes_closing.append member fun _ _ => trivial

theorem lexes_absHead : Lexes Code.absHead (fun place => [Code.wordAt "kotlin" place,
    Code.markAt .dot (place + 6), Code.wordAt "math" (place + 7), Code.markAt .dot (place + 11),
    Code.wordAt "abs" (place + 12), Code.markAt .leftParen (place + 15)]) fun _ => True := by
  have library : Lexes "kotlin".toList (fun place => [Code.wordAt "kotlin" place]) EndsWord :=
    lexes_word (by decide)
  have part : Lexes "math".toList (fun place => [Code.wordAt "math" place]) EndsWord :=
    lexes_word (by decide)
  have function : Lexes "abs".toList (fun place => [Code.wordAt "abs" place]) EndsWord :=
    lexes_word (by decide)
  have called := function.append lexes_opening fun rest _ => endsWord_mark (by decide) rest
  have ofPart := lexes_dot.append called fun rest _ => by
    rintro _ ⟨⟩
    decide
  have inPart := part.append ofPart fun rest _ => endsWord_mark (by decide) _
  have ofLibrary := lexes_dot.append inPart fun rest _ => by
    rintro _ ⟨⟩
    decide
  exact library.append ofLibrary fun rest _ => endsWord_mark (by decide) _

end Lexing

namespace Code

theorem operand_begins (c : Code .operand) (h : c.WellNamed) (rest : List Char) :
    ∀ d ∈ (c.chars ++ rest).head?, d ≠ '-' ∧ d ≠ '=' := by
  intro d hd
  cases c with
  | numeral s =>
    rw [chars] at hd
    cases e : s.chars with
    | nil => exact absurd e s.chars_ne_nil
    | cons c cs =>
      rw [e] at hd
      cases hd
      have all : (asciiDigits.all fun c => c != '-' && c != '=') = true := by decide
      simpa using of_isDigit all (s.head_isDigit e)
  | name w =>
    have ident := h.1
    rw [chars] at hd
    cases e : w.toList with
    | nil =>
      rw [e] at ident
      cases ident
    | cons c cs =>
      rw [e] at hd ident
      cases hd
      rw [Text.isIdentChars, Bool.and_eq_true] at ident
      have all : (identStarts.all fun c => c != '-' && c != '=') = true := by decide
      simpa using of_isIdentStart all ident.1
  | group c =>
    cases hd
    decide
  | toDouble c =>
    cases hd
    decide
  | abs c =>
    cases hd
    decide

theorem closes_paren (cs : List Char) : Closes (')' :: cs) := by
  rintro _ ⟨⟩
  exact .inr rfl

theorem closes_space (cs : List Char) : Closes (' ' :: cs) := by
  rintro _ ⟨⟩
  exact .inl rfl

theorem lexes {r : Rank} (c : Code r) (h : c.WellNamed) : Lexes c.chars c.tokens Closes := by
  induction c with
  | numeral s => exact lexes_numeral s
  | name w => exact (lexes_word h.1).weaken fun _ closes => closes.endsWord
  | group c ih =>
    have inside := (ih h).append lexes_closing fun rest _ => closes_paren rest
    exact (lexes_opening.append inside fun _ _ => trivial).weaken fun _ _ => trivial
  | toDouble c ih =>
    have inside := (ih h).append lexes_doubleTail fun rest _ => closes_paren _
    exact (lexes_opening.append inside fun _ _ => trivial).weaken fun _ _ => trivial
  | abs c ih =>
    have inside := (ih h).append lexes_closing fun rest _ => closes_paren rest
    exact (lexes_absHead.append inside fun _ _ => trivial).weaken fun _ _ => trivial
  | plain c ih => exact ih h
  | negated c ih => exact lexes_minus.append (ih h) fun rest _ => operand_begins c h rest
  | single c ih => exact ih h
  | joined a o b iha ihb =>
    have right := lexes_space.append (ihb h.2) fun _ _ => trivial
    have sign := (lexes_connective o).append right fun rest _ => ⟨_, rfl⟩
    have spaced := lexes_space.append sign fun _ _ => trivial
    exact (iha h.1).append spaced fun rest _ => closes_space _

theorem tokens_text {r : Rank} (c : Code r) (h : c.WellNamed) :
    Script.tokens c.text = .ok (c.tokens 0 ++ [⟨.finish, c.chars.length, false⟩]) := by
  have all := c.lexes h 0 [] (by rintro _ ⟨⟩)
  rw [List.append_nil, Nat.zero_add] at all
  rw [Script.tokens, text, String.toList_ofList, all]
  rfl

end Code

end EmitterLogic.Script
