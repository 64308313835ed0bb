import EmitterLogic.Proofs.Tick.Layout

namespace EmitterLogic.Script

open Text

variable {c : Char} {s rest : List Char} {n : Nat} {l : Lexeme}

/-- Does a text end in a comment that only a line break ends? `skip` characters belong to what has been
read. -/
def endsInComment : Nat → List Char → Bool
  | _, [] => false
  | skip + 1, _ :: rest => endsInComment skip rest
  | 0, c :: rest =>
    match lexemeAt (c :: rest) with
    | .ok (n, _) =>
      ("//".toList.isPrefixOf (c :: rest) && !(c :: rest).contains '\n') || endsInComment (n - 1) rest
    | .error _ => false

abbrev enclosed (s rest : List Char) : List Char := s ++ ')' :: rest

section Fronts

theorem isPrefixOf_enclosed {p : List Char} (other : ')' ∉ p) (s rest : List Char) :
    p.isPrefixOf (enclosed s rest) = p.isPrefixOf s := by
  induction p generalizing s with
  | nil => rfl
  | cons d p ih =>
    rw [List.mem_cons, not_or] at other
    cases s with
    | nil =>
      have differs : (d == ')') = false := beq_eq_false_iff_ne.mpr (Ne.symm other.1)
      simp [enclosed, List.isPrefixOf, differs]
    | cons c s => simp only [enclosed, List.cons_append, List.isPrefixOf, ih other.2 s]

theorem takeWhile_enclosed {p : Char → Bool} (stop : p ')' = false) (s rest : List Char) :
    (enclosed s rest).takeWhile p = s.takeWhile p := by
  induction s with
  | nil => exact List.takeWhile_cons_of_neg (by rw [stop]; exact Bool.false_ne_true)
  | cons c s ih =>
    rw [enclosed, List.cons_append, List.takeWhile_cons, List.takeWhile_cons, ih]

theorem closedComment_enclosed (h : closedComment s = some n) (rest : List Char) :
    closedComment (enclosed s rest) = some n := by
  induction s using closedComment.induct generalizing n with
  | case1 s => exact h
  | case2 c s other ih =>
    have other' (more : List Char) : c = '*' → enclosed s rest = '/' :: more → False := by
      intro star slash
      cases s with
      | nil => cases slash
      | cons d s => exact other s star (congrArg (· :: s) (List.cons.inj slash).1)
    rw [closedComment] at h
    · obtain ⟨k, closed, rfl⟩ := Option.map_eq_some_iff.mp h
      rw [enclosed, List.cons_append, closedComment]
      · rw [ih closed]
        rfl
      · exact other'
    · exact other
  | case3 => cases h

theorem fractionEnd_enclosed (n : Nat) (s rest : List Char) :
    fractionEnd n (enclosed s rest) = fractionEnd n s := by
  cases s with
  | nil => rfl
  | cons c s =>
    by_cases point : c = '.'
    · subst point
      exact congrArg (n + 1 + List.length ·) (takeWhile_enclosed (by decide) s rest)
    · have apart (more : List Char) : fractionEnd n (c :: more) = n := by
        unfold fractionEnd
        split
        · next same => exact absurd (List.cons.inj same).1 point
        · rfl
      rw [enclosed, List.cons_append, apart, apart]

theorem exponentEnd_enclosed (n : Nat) (s rest : List Char) :
    exponentEnd n (enclosed s rest) = exponentEnd n s := by
  cases s with
  | nil => rfl
  | cons e more =>
    rw [enclosed, List.cons_append, exponentEnd, exponentEnd]
    have digits (ds : List Char) : (ds ++ ')' :: rest).takeWhile isDigitMark = ds.takeWhile isDigitMark :=
      takeWhile_enclosed (by decide) ds rest
    cases more with
    | nil => rfl
    | cons d more =>
      have head : (d :: more ++ ')' :: rest).head? = (d :: more).head? := rfl
      rw [head]
      by_cases sign : ((d :: more).head?.any fun c => c == '+' || c == '-') = true
      · simp only [sign, if_true, List.cons_append, List.drop_succ_cons, List.drop_zero, digits]
      · simp only [sign, Bool.false_eq_true, if_false, List.drop_zero, digits]

theorem numberLength_enclosed (s rest : List Char) :
    numberLength (enclosed s rest) = numberLength s ∧ numberLength s ≤ s.length := by
  have digits (ds : List Char) : (enclosed ds rest).takeWhile isDigitMark = ds.takeWhile isDigitMark :=
    takeWhile_enclosed (by decide) ds rest
  have first : (s.takeWhile isDigitMark).length ≤ s.length := (List.takeWhile_sublist _).length_le
  obtain ⟨fraction, left, split, _, second⟩ := fractionEnd_split (s.drop (s.takeWhile isDigitMark).length)
  have le : fractionEnd (s.takeWhile isDigitMark).length (s.drop (s.takeWhile isDigitMark).length) ≤
      s.length := by
    have whole := congrArg List.length split
    rw [List.length_drop, List.length_append] at whole
    rw [second]
    omega
  obtain ⟨exponent, left', split', _, third⟩ := exponentEnd_split
    (s.drop (fractionEnd (s.takeWhile isDigitMark).length (s.drop (s.takeWhile isDigitMark).length)))
  constructor
  · rw [numberLength_eq, numberLength_eq, digits, enclosed, List.drop_append_of_le_length first,
      fractionEnd_enclosed, List.drop_append_of_le_length le, exponentEnd_enclosed]
  · have whole := congrArg List.length split'
    rw [List.length_drop, List.length_append] at whole
    rw [numberLength_eq, third]
    omega

theorem startsNumber_enclosed (c : Char) (s rest : List Char) :
    startsNumber (c :: enclosed s rest) = startsNumber (c :: s) := by
  by_cases point : c = '.'
  · subst point
    cases s with
    | nil => rfl
    | cons d s => rfl
  · rw [startsNumber_of_ne point, startsNumber_of_ne point]

theorem at?_enclosed (c : Char) (s rest : List Char) :
    Mark.at? (c :: enclosed s rest) = Mark.at? (c :: s) := by
  have same (m : Mark) : m.text.toList.isPrefixOf (c :: enclosed s rest) =
      m.text.toList.isPrefixOf (c :: s) := by
    by_cases closing : m = .rightParen
    · subst closing
      have text : Mark.rightParen.text.toList = [')'] := by decide
      rw [text, List.isPrefixOf, List.isPrefixOf, List.isPrefixOf, List.isPrefixOf]
    · refine isPrefixOf_enclosed ?_ (c :: s) rest
      cases m <;> first | decide | exact absurd rfl closing
  simp only [Mark.at?, same]

theorem takeWhile_line_enclosed (broken : '\n' ∈ s) (rest : List Char) :
    (enclosed s rest).takeWhile (· != '\n') = s.takeWhile (· != '\n') := by
  rw [List.takeWhile_append, if_neg]
  intro whole
  have all := (List.takeWhile_prefix (· != '\n') (l := s)).eq_of_length whole
  have none := List.mem_takeWhile_imp (all.symm ▸ broken)
  simp at none

theorem numberLexeme_enclosed (h : numberLexeme s = .ok (n, l)) (rest : List Char) :
    numberLexeme (enclosed s rest) = .ok (n, l) ∧ n ≤ s.length := by
  obtain ⟨length, le⟩ := numberLength_enclosed s rest
  have next : ((enclosed s rest).drop (numberLength s)).head?.any isWordStart =
      (s.drop (numberLength s)).head?.any isWordStart := by
    rw [enclosed, List.drop_append_of_le_length le]
    cases s.drop (numberLength s) with
    | nil => rfl
    | cons d more => rfl
  rw [numberLexeme] at h ⊢
  dsimp only at h ⊢
  rw [length, next, enclosed, List.take_append_of_le_length le]
  split at h
  · cases h
  · next ends =>
    rw [if_neg ends]
    split at h
    · next x read =>
      cases h
      exact ⟨rfl, le⟩
    · cases h

theorem lexemeAt_enclosed (plain : isQuote c = false)
    (closed : "//".toList.isPrefixOf (c :: s) = true → '\n' ∈ c :: s)
    (h : lexemeAt (c :: s) = .ok (n, l)) (rest : List Char) :
    lexemeAt (c :: enclosed s rest) = .ok (n, l) ∧ n ≤ s.length + 1 := by
  have two (d e : Char) (other : ')' ∉ [d, e]) :
      [d, e].isPrefixOf (c :: enclosed s rest) = [d, e].isPrefixOf (c :: s) :=
    isPrefixOf_enclosed other (c :: s) rest
  rw [lexemeAt] at h ⊢
  rw [show "//".toList = ['/', '/'] from by decide, show "/*".toList = ['/', '*'] from by decide] at *
  rw [two '/' '/' (by decide), two '/' '*' (by decide), startsNumber_enclosed, at?_enclosed]
  split at h
  · next newline =>
    cases h
    exact ⟨by rw [if_pos newline], by omega⟩
  next inLine =>
  rw [if_neg inLine]
  split at h
  · next blank =>
    cases h
    exact ⟨by rw [if_pos blank], by omega⟩
  next visible =>
  rw [if_neg visible]
  split at h
  · next line =>
    cases h
    have same : (c :: enclosed s rest).takeWhile (· != '\n') = (c :: s).takeWhile (· != '\n') :=
      takeWhile_line_enclosed (closed line) rest
    rw [if_pos line, same]
    exact ⟨rfl, (List.takeWhile_sublist _).length_le⟩
  next code =>
  rw [if_neg code]
  split at h
  · next comment =>
    rw [if_pos comment]
    obtain ⟨rfl, more, rfl⟩ := prefix_cons comment
    rw [enclosed, List.cons_append, List.drop_succ_cons, List.drop_zero] at *
    split at h
    · next k ends =>
      cases h
      have le := Tick.closedComment_le ends
      rw [closedComment_enclosed ends]
      refine ⟨?_, Nat.succ_le_succ (Nat.succ_le_succ le)⟩
      have front : ('*' :: (more ++ ')' :: rest)).take k = ('*' :: more).take k := by
        rw [← List.cons_append, List.take_append_of_le_length (Nat.le_succ_of_le le)]
      simp only [front]
    · cases h
  next open' =>
  rw [if_neg open']
  split at h
  · next starts =>
    rw [if_pos starts]
    exact numberLexeme_enclosed h rest
  next wordy =>
  rw [if_neg wordy]
  rw [if_neg (by rw [plain]; exact Bool.false_ne_true)] at h ⊢
  split at h
  · next start =>
    cases h
    rw [if_pos start, takeWhile_enclosed (by decide)]
    exact ⟨rfl, Nat.succ_le_succ (List.takeWhile_sublist _).length_le⟩
  next sign =>
  rw [if_neg sign]
  split at h
  · next m found =>
    cases h
    have front := List.find?_some found
    have le := (List.isPrefixOf_iff_prefix.mp front).length_le
    rw [String.length_toList] at le
    exact ⟨rfl, le⟩
  · cases h

end Fronts

theorem tokensFrom_rightParen (place : Nat) (broken : Bool) (rest : List Char) :
    tokensFrom place 0 broken (')' :: rest) =
      (tokensFrom (place + 1) 0 false rest).map (⟨.mark .rightParen, place, broken⟩ :: ·) := by
  have mark : lexemeAt (')' :: rest) = .ok (1, .token (.mark .rightParen)) := rfl
  rw [tokensFrom, mark]

theorem not_endsInComment_lexed (closed : endsInComment 0 (c :: s) = false)
    (lexed : lexemeAt (c :: s) = .ok (n, l)) :
    ("//".toList.isPrefixOf (c :: s) = true → '\n' ∈ c :: s) ∧ endsInComment (n - 1) s = false := by
  rw [endsInComment, lexed] at closed
  simp only [Bool.or_eq_false_iff, Bool.and_eq_false_iff, Bool.not_eq_false'] at closed
  refine ⟨fun line => ?_, closed.2⟩
  rcases closed.1 with none | breaks
  · rw [line] at none
    cases none
  · exact List.contains_iff_mem.mp breaks

def Token.moved (d : Nat) (t : Token) : Token := { t with position := t.position + d }

theorem tokensFrom_enclosed {place skip : Nat} {broken : Bool} {ts : List Token}
    (plain : ∀ c ∈ s, isQuote c = false) (closed : endsInComment skip s = false) (le : skip ≤ s.length)
    (read : tokensFrom place skip broken s = .ok ts) :
    ∃ us last, ts = us ++ [last] ∧ last.kind = .finish ∧ (∀ t ∈ us, t.kind ≠ .finish) ∧
      ∀ d rest, tokensFrom (place + d) skip broken (enclosed s rest) =
        (tokensFrom (place + s.length + d) 0 last.afterBreak (')' :: rest)).map
          (us.map (Token.moved d) ++ ·) := by
  -- Place by place: what a lexeme skips is counted in `skip`, and the tokens move with the place.
  induction s generalizing place skip broken ts with
  | nil =>
    cases read
    obtain rfl : skip = 0 := Nat.le_zero.mp le
    refine ⟨[], _, rfl, rfl, List.forall_mem_nil _, fun d rest => ?_⟩
    rw [enclosed, List.nil_append, List.length_nil, Nat.add_zero]
    cases tokensFrom (place + d) 0 broken (')' :: rest) <;> rfl
  | cons c s ih =>
    rw [List.forall_mem_cons] at plain
    have here (d : Nat) : place + d + 1 = place + 1 + d := Nat.add_right_comm place d 1
    have there : place + (c :: s).length = place + 1 + s.length := by
      rw [List.length_cons]
      omega
    rw [there]
    cases skip with
    | succ skip =>
      rw [tokensFrom] at read
      obtain ⟨us, last, same, finish, goes, read'⟩ :=
        ih plain.2 closed (Nat.le_of_succ_le_succ le) read
      refine ⟨us, last, same, finish, goes, fun d rest => ?_⟩
      rw [enclosed, List.cons_append, tokensFrom, here]
      exact read' d rest
    | zero =>
      rw [tokensFrom] at read
      split at read
      · next n hasBreak lexed =>
        obtain ⟨ends, closed'⟩ := not_endsInComment_lexed closed lexed
        have same (rest : List Char) := lexemeAt_enclosed plain.1 ends lexed rest
        have le' := (same []).2
        obtain ⟨us, last, split, finish, goes, read'⟩ := ih plain.2 closed' (by omega) read
        refine ⟨us, last, split, finish, goes, fun d rest => ?_⟩
        rw [enclosed, List.cons_append, tokensFrom, (same rest).1, here]
        exact read' d rest
      · next n kind lexed =>
        obtain ⟨ends, closed'⟩ := not_endsInComment_lexed closed lexed
        have same (rest : List Char) := lexemeAt_enclosed plain.1 ends lexed rest
        have le' := (same []).2
        cases more : tokensFrom (place + 1) (n - 1) false s with
        | error e =>
          rw [more] at read
          cases read
        | ok vs =>
          rw [more] at read
          cases read
          obtain ⟨us, last, rfl, finish, goes, read'⟩ := ih plain.2 closed' (by omega) more
          have token : kind ≠ .finish := by
            cases lexemeAt_lexed lexed <;> rintro ⟨⟩
          refine ⟨⟨kind, place, broken⟩ :: us, last, rfl, finish,
            List.forall_mem_cons.mpr ⟨token, goes⟩, fun d rest => ?_⟩
          rw [enclosed, List.cons_append, tokensFrom, (same rest).1]
          dsimp only
          rw [here, read']
          cases tokensFrom (place + 1 + s.length + d) 0 last.afterBreak (')' :: rest) <;> rfl
      · cases read
      · cases read

theorem lexes_enclosed {ts : List Token} (plain : ∀ c ∈ s, isQuote c = false)
    (closed : endsInComment 0 s = false) (read : tokensFrom 0 0 false s = .ok ts) :
    ∃ us last, ts = us ++ [last] ∧ last.kind = .finish ∧ (∀ t ∈ us, t.kind ≠ .finish) ∧
      Lexes (s ++ [')']) (fun place => us.map (Token.moved place) ++
        [⟨.mark .rightParen, place + s.length, last.afterBreak⟩]) fun _ => True := by
  obtain ⟨us, last, split, finish, goes, moved⟩ := tokensFrom_enclosed plain closed (Nat.zero_le _) read
  refine ⟨us, last, split, finish, goes, fun place rest _ => ?_⟩
  have here := moved place rest
  rw [Nat.zero_add, Nat.zero_add, Nat.add_comm s.length] at here
  rw [List.append_assoc, List.singleton_append, here, tokensFrom_rightParen, List.length_append,
    List.length_singleton, ← Nat.add_assoc]
  cases tokensFrom (place + s.length + 1) 0 false rest with
  | error e => rfl
  | ok vs => exact congrArg Except.ok (List.append_assoc _ [_] vs).symm

end EmitterLogic.Script
