import EmitterLogic.Proofs.Number.Marks
import EmitterLogic.Proofs.Predicate.Gate

namespace EmitterLogic.Script

open Text Reading

section Span

theorem takeWhile_mark (s : List Char) : ∀ c ∈ s.takeWhile isDigitMark, isDigitMark c = true :=
  fun _ h => List.mem_takeWhile_imp h

theorem fractionEnd_split (s : List Char) : ∃ fraction rest, s = fraction ++ rest ∧
    IsFraction isDigitMark fraction ∧ ∀ n, fractionEnd n s = n + fraction.length := by
  by_cases point : ∃ rest, s = '.' :: rest
  · obtain ⟨rest, rfl⟩ := point
    refine ⟨'.' :: rest.takeWhile isDigitMark, rest.dropWhile isDigitMark, ?_,
      ⟨rfl, takeWhile_mark rest⟩, ?_⟩
    · rw [List.cons_append, List.takeWhile_append_dropWhile]
    · intro n
      rw [fractionEnd, List.length_cons]
      omega
  · refine ⟨[], s, rfl, trivial, fun n => ?_⟩
    unfold fractionEnd
    split
    · exact absurd ⟨_, rfl⟩ point
    · rfl

theorem signOf_marks {ds : List Char} (h : ∀ c ∈ ds, isDigitMark c = true) :
    signOf ds = (false, ds) := by
  unfold signOf
  split
  · exact absurd (h _ List.mem_cons_self) (by decide)
  · exact absurd (h _ List.mem_cons_self) (by decide)
  · rfl

theorem sign_split (s : List Char) : ∃ sign rest, s = sign ++ rest ∧
    (if s.head?.any (fun c => c == '+' || c == '-') then 1 else 0) = sign.length ∧
    (signOf (sign ++ rest.takeWhile isDigitMark)).2 = rest.takeWhile isDigitMark := by
  have unsigned (h : ¬s.head?.any (fun c => c == '+' || c == '-') = true) :
      ∃ sign rest, s = sign ++ rest ∧
        (if s.head?.any (fun c => c == '+' || c == '-') then 1 else 0) = sign.length ∧
        (signOf (sign ++ rest.takeWhile isDigitMark)).2 = rest.takeWhile isDigitMark :=
    ⟨[], s, rfl, if_neg h, congrArg Prod.snd (signOf_marks (takeWhile_mark s))⟩
  cases s with
  | nil => exact unsigned (by simp)
  | cons c rest =>
    by_cases signed : (c == '+' || c == '-') = true
    · refine ⟨[c], rest, rfl, if_pos signed, ?_⟩
      simp only [Bool.or_eq_true, beq_iff_eq] at signed
      rcases signed with rfl | rfl
      · rfl
      · rfl
    · exact unsigned signed

theorem exponentEnd_split (s : List Char) : ∃ exponent rest, s = exponent ++ rest ∧
    IsExponent isDigitMark exponent ∧ ∀ n, exponentEnd n s = n + exponent.length := by
  have nothing (h : ∀ n, exponentEnd n s = n) : ∃ exponent rest, s = exponent ++ rest ∧
      IsExponent isDigitMark exponent ∧ ∀ n, exponentEnd n s = n + exponent.length :=
    ⟨[], s, rfl, trivial, h⟩
  cases s with
  | nil => exact nothing fun _ => rfl
  | cons e more =>
    by_cases mark : (e == 'e' || e == 'E') = true
    · obtain ⟨sign, rest, rfl, count, digits⟩ := sign_split more
      have ends (n : Nat) : exponentEnd n (e :: (sign ++ rest)) =
          if ((rest.takeWhile isDigitMark).length == 0) = true then n
          else n + 1 + sign.length + (rest.takeWhile isDigitMark).length := by
        rw [exponentEnd, if_pos mark]
        simp only [count, List.drop_left]
      by_cases none : rest.takeWhile isDigitMark = []
      · refine nothing fun n => ?_
        rw [ends, none]
        rfl
      · refine ⟨e :: (sign ++ rest.takeWhile isDigitMark), rest.dropWhile isDigitMark, ?_,
          ⟨mark, ?_, ?_⟩, fun n => ?_⟩
        · rw [List.cons_append, List.append_assoc, List.takeWhile_append_dropWhile]
        · rw [digits]
          exact none
        · rw [digits]
          exact takeWhile_mark rest
        · have some : ¬((rest.takeWhile isDigitMark).length == 0) = true := by simpa using none
          rw [ends, if_neg some, List.length_cons, List.length_append]
          omega
    · refine nothing fun n => ?_
      rw [exponentEnd, if_neg mark]

theorem numberLength_spells {s : List Char} (starts : startsNumber s = true) :
    ∃ whole fraction exponent, s.take (numberLength s) = whole ++ (fraction ++ exponent) ∧
      IsUnsigned isDigitMark whole fraction exponent := by
  have text : s.takeWhile isDigitMark ++ s.dropWhile isDigitMark = s :=
    List.takeWhile_append_dropWhile
  obtain ⟨fraction, left, split, fractional, first⟩ := fractionEnd_split (s.dropWhile isDigitMark)
  obtain ⟨exponent, rest, split', power, second⟩ := exponentEnd_split left
  have marks := takeWhile_mark s
  -- The number and what is left after it, with `whole` for the digits at the front.
  generalize whole : s.takeWhile isDigitMark = ds at text marks
  have parts : s = (ds ++ (fraction ++ exponent)) ++ rest := by
    rw [List.append_assoc, List.append_assoc, ← split', ← split, text]
  have dropped : s.drop ds.length = s.dropWhile isDigitMark := by
    conv => lhs; rw [← text]
    exact List.drop_left
  have dropped' : s.drop (ds.length + fraction.length) = left := by
    rw [← List.drop_drop, dropped, split, List.drop_left]
  have length : numberLength s = (ds ++ (fraction ++ exponent)).length := by
    rw [numberLength_eq, whole, dropped, first, dropped', second, List.length_append,
      List.length_append]
    omega
  refine ⟨ds, fraction, exponent, ?_, marks, fractional, power, fun none => ?_⟩
  · rw [length]
    conv => lhs; rw [parts]
    exact List.take_left
  · -- Without a digit in front the text begins with a point and a digit.
    subst none
    have point : ∃ d more, s = '.' :: d :: more ∧ isDigitMark d = true := by
      unfold startsNumber at starts
      split at starts
      · exact ⟨_, _, rfl, starts⟩
      · next c more _ =>
        rw [List.takeWhile_cons_of_pos starts] at whole
        cases whole
      · cases starts
    obtain ⟨d, more, rfl, mark⟩ := point
    have same : ('.' :: d :: more).dropWhile isDigitMark = '.' :: d :: more := text
    have counted := first 0
    rw [same, fractionEnd, List.takeWhile_cons_of_pos mark, List.length_cons] at counted
    omega

end Span

section Scanner

variable {s t : List Char} {f : Fault}

/-- A numeral that no word follows, with a digit sign in it that is no decimal. -/
structure UnreadableNumeral (s : List Char) : Prop where
  starts : startsNumber s = true
  stops : (s.drop (numberLength s)).head?.any isWordStart = false
  strange : ∃ c ∈ s.take (numberLength s), isDigitMark c = true ∧ isDecimal c = false

theorem float?_span_eq_none_iff (starts : startsNumber s = true) :
    float? (s.take (numberLength s)) = none ↔
      ∃ c ∈ s.take (numberLength s), isDigitMark c = true ∧ isDecimal c = false := by
  obtain ⟨whole, fraction, exponent, span, spells⟩ := numberLength_spells starts
  rw [span]
  exact float?_eq_none_iff spells

def spanFault (s : List Char) : Fault := .unreadable (String.ofList (s.take (numberLength s)))

theorem numberLexeme_fault_iff (starts : startsNumber s = true) :
    numberLexeme s = .error (.inr f) ↔ UnreadableNumeral s ∧ f = spanFault s := by
  have span := float?_span_eq_none_iff starts
  rw [numberLexeme]
  dsimp only
  by_cases word : (s.drop (numberLength s)).head?.any isWordStart = true
  · rw [if_pos word]
    constructor
    · intro fault
      cases fault
    · rintro ⟨unreadable, _⟩
      rw [unreadable.stops] at word
      cases word
  · rw [if_neg word]
    cases read : float? (s.take (numberLength s)) with
    | some x =>
      constructor
      · intro fault
        cases fault
      · rintro ⟨unreadable, _⟩
        rw [span.mpr unreadable.strange] at read
        cases read
    | none =>
      constructor
      · intro fault
        cases fault
        exact ⟨⟨starts, Bool.not_eq_true _ ▸ word, span.mp read⟩, rfl⟩
      · rintro ⟨_, rfl⟩
        rfl

theorem lexemeAt_of_startsNumber (starts : startsNumber s = true) :
    lexemeAt s = numberLexeme s := by
  cases s with
  | nil => cases starts
  | cons c rest =>
    have first : isDigitMark c = true ∨ c = '.' := by
      unfold startsNumber at starts
      split at starts
      · next e => exact .inr (List.cons.inj e).1
      · next e => exact .inl ((List.cons.inj e).1 ▸ starts)
      · next e => cases e
    have other {d : Char} (mark : isDigitMark d = false) (point : d ≠ '.') : c ≠ d := by
      rcases first with h | rfl
      · exact isDigitMark_ne h mark
      · exact point.symm
    have visible : isBlank c = false := by
      rcases first with h | rfl
      · exact isDigitMark_not_blank h
      · decide
    have newline : ¬(c == '\n') = true := by simpa using other (by decide) (by decide)
    have slash : ¬c = '/' := other (by decide) (by decide)
    have line : ¬"//".toList.isPrefixOf (c :: rest) = true := fun h => slash (prefix_cons h).1
    have comment : ¬"/*".toList.isPrefixOf (c :: rest) = true := fun h => slash (prefix_cons h).1
    rw [lexemeAt, if_neg newline, if_neg (by rw [visible]; exact Bool.false_ne_true), if_neg line,
      if_neg comment, if_pos starts]

theorem lexemeAt_fault_iff :
    lexemeAt s = .error (.inr f) ↔ UnreadableNumeral s ∧ f = spanFault s := by
  by_cases starts : startsNumber s = true
  · rw [lexemeAt_of_startsNumber starts, numberLexeme_fault_iff starts]
  · constructor
    · intro fault
      cases s with
      | nil => cases fault
      | cons c rest =>
        -- Every other lexeme is read or is an error of the script.
        rw [lexemeAt] at fault
        repeat' split at fault
        all_goals cases fault
    · rintro ⟨unreadable, _⟩
      exact absurd unreadable.starts starts

theorem lexemeAt_pos {c : Char} {rest : List Char} {n : Nat} {l : Lexeme}
    (h : lexemeAt (c :: rest) = .ok (n, l)) : 0 < n := by
  cases lexemeAt_lexed h with
  | newline => exact Nat.one_pos
  | blank _ => exact Nat.one_pos
  | @line rest _ =>
    rw [List.takeWhile_cons_of_pos (by decide), List.length_cons]
    exact Nat.succ_pos _
  | comment _ _ => exact Nat.succ_pos _
  | number x starts _ => exact numberLength_pos starts
  | word _ => exact Nat.succ_pos _
  | @mark m _ _ => cases m <;> decide
  | text t quote =>
    have starts : ¬startsNumber (c :: rest) = true := by
      intro starts
      rw [lexemeAt_of_startsNumber starts, numberLexeme] at h
      dsimp only at h
      repeat' split at h
      all_goals cases h
    rw [lexemeAt] at h
    repeat' split at h
    all_goals cases h
    exact Nat.succ_pos _

/-- The scanner comes to a place of a text, with another text left there. -/
inductive Reaches : List Char → List Char → Prop where
  | here (s : List Char) : Reaches s s
  | past {c : Char} {rest t : List Char} {n : Nat} {l : Lexeme}
    (read : lexemeAt (c :: rest) = .ok (n, l)) (more : Reaches ((c :: rest).drop n) t) :
    Reaches (c :: rest) t

/-- The scanner comes to an unreadable numeral, whose fault it is. -/
def MeetsFault (s : List Char) (f : Fault) : Prop :=
  ∃ t, Reaches s t ∧ UnreadableNumeral t ∧ f = spanFault t

theorem meetsFault_nil : ¬MeetsFault [] f := by
  rintro ⟨t, reached, unreadable, _⟩
  cases reached
  cases unreadable.starts

theorem meetsFault_of_error {c : Char} {rest : List Char} {e : (SyntaxCause × Nat) ⊕ Fault}
    (read : lexemeAt (c :: rest) = .error e) : MeetsFault (c :: rest) f ↔ e = .inr f := by
  constructor
  · rintro ⟨t, reached, unreadable⟩
    cases reached with
    | here => exact Except.error.inj (read.symm.trans (lexemeAt_fault_iff.mpr unreadable))
    | past read' _ => cases read.symm.trans read'
  · rintro rfl
    exact ⟨_, .here _, lexemeAt_fault_iff.mp read⟩

theorem meetsFault_of_ok {c : Char} {rest : List Char} {n : Nat} {l : Lexeme}
    (read : lexemeAt (c :: rest) = .ok (n, l)) :
    MeetsFault (c :: rest) f ↔ MeetsFault (rest.drop (n - 1)) f := by
  have after : (c :: rest).drop n = rest.drop (n - 1) := by
    rw [← Nat.sub_add_cancel (lexemeAt_pos read), List.drop_succ_cons, Nat.add_sub_cancel]
  constructor
  · rintro ⟨t, reached, unreadable⟩
    cases reached with
    | here => cases read.symm.trans (lexemeAt_fault_iff.mpr unreadable)
    | past read' more =>
      cases read.symm.trans read'
      rw [after] at more
      exact ⟨t, more, unreadable⟩
  · rintro ⟨t, reached, unreadable⟩
    rw [← after] at reached
    exact ⟨t, .past read reached, unreadable⟩

theorem tokensFrom_fault_iff {position skip : Nat} {broken : Bool} :
    tokensFrom position skip broken s = .error (.fault f) ↔ MeetsFault (s.drop skip) f := by
  -- Place by place, with the characters that belong to the last lexeme left out on both sides.
  induction s generalizing position skip broken with
  | nil =>
    rw [List.drop_nil]
    have ended : tokensFrom position skip broken [] = .ok [⟨.finish, position, broken⟩] := by
      cases skip with
      | zero => rfl
      | succ skip => rfl
    rw [ended]
    constructor
    · intro h
      cases h
    · intro h
      exact absurd h meetsFault_nil
  | cons c rest ih =>
    cases skip with
    | succ skip => exact ih
    | zero =>
      rw [tokensFrom, List.drop_zero]
      cases read : lexemeAt (c :: rest) with
      | error e =>
        rw [meetsFault_of_error read]
        cases e with
        | inl wrong =>
          constructor
          · intro h
            cases h
          · intro h
            cases h
        | inr f' =>
          constructor
          · intro h
            cases h
            rfl
          · intro h
            cases h
            rfl
      | ok found =>
        obtain ⟨n, l⟩ := found
        rw [meetsFault_of_ok read]
        cases l with
        | gap hasBreak => exact ih
        | token kind =>
          have later : tokensFrom (position + 1) (n - 1) false rest = .error (.fault f) ↔
              MeetsFault (rest.drop (n - 1)) f := ih
          rw [← later]
          dsimp only
          cases tokensFrom (position + 1) (n - 1) false rest with
          | ok ts => exact ⟨fun h => (by cases h), fun h => (by cases h)⟩
          | error e => exact Iff.rfl

theorem tokens_fault_iff {text : String} :
    tokens text = .error (.fault f) ↔ MeetsFault text.toList f := tokensFrom_fault_iff

end Scanner

end EmitterLogic.Script
