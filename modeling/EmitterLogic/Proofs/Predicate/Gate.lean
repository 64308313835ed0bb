import EmitterLogic.Predicate.Basic
import EmitterLogic.Proofs.Script.Code

namespace EmitterLogic

namespace Text

variable {α : Type} {m : Matcher α} {before : Option Char} {c : Char} {rest s : List Char}

def NoMatch (m : Matcher α) : Option Char → List Char → Prop
  | _, [] => True
  | before, c :: rest => m before (c :: rest) = none ∧ NoMatch m (some c) rest

theorem noMatch_of_findFrom {place : Nat} (h : findFrom m before place 0 s = []) :
    NoMatch m before s := by
  induction s generalizing before place with
  | nil => trivial
  | cons c rest ih =>
    rw [findFrom] at h
    split at h
    · cases h
    · next none => exact ⟨none, ih h⟩

theorem noMatch_of_found (h : found m s = false) : NoMatch m none s := by
  rw [found, Bool.not_eq_false', List.isEmpty_iff] at h
  exact noMatch_of_findFrom h

theorem isWordChar_of_identStart {c : Char} (h : isIdentStart c = true) : isWordChar c = true :=
  of_isIdentStart (by decide) h

theorem isWordChar_of_identPart {c : Char} (h : isIdentPart c = true) : isWordChar c = true := by
  rw [isIdentPart, Bool.or_eq_true] at h
  rcases h with start | digit
  · exact isWordChar_of_identStart start
  · have digit : c.isDigit = true := digit
    exact of_isDigit (by decide) digit

theorem drop_takeWhile_head {p : Char → Bool} {s : List Char} :
    ∀ c ∈ (s.drop (s.takeWhile p).length).head?, p c = false := by
  have whole : s.takeWhile p ++ s.dropWhile p = s := List.takeWhile_append_dropWhile
  have left : s.drop (s.takeWhile p).length = s.dropWhile p :=
    calc s.drop (s.takeWhile p).length
      _ = (s.takeWhile p ++ s.dropWhile p).drop (s.takeWhile p).length := by rw [whole]
      _ = s.dropWhile p := List.drop_left
  rw [left]
  exact dropWhile_head

end Text

namespace Script

open Text

variable {c : Char} {s rest : List Char} {n : Nat} {l : Lexeme}

inductive Lexed : List Char → Nat → Lexeme → Prop where
  | newline {rest : List Char} : Lexed ('\n' :: rest) 1 (.gap true)
  | blank {c : Char} {rest : List Char} (h : isBlank c = true) : Lexed (c :: rest) 1 (.gap false)
  | line {rest : List Char} (first : rest.head? = some '/') :
    Lexed ('/' :: rest) (('/' :: rest).takeWhile (· != '\n')).length (.gap false)
  | comment {n : Nat} {rest : List Char} (broken : Bool) (closed : closedComment rest = some n) :
    Lexed ('/' :: '*' :: rest) (n + 2) (.gap broken)
  | number {s : List Char} (x : Float) (starts : startsNumber s = true)
    (stops : (s.drop (numberLength s)).head?.any isWordStart = false) :
    Lexed s (numberLength s) (.token (.number x))
  | text {c : Char} {n : Nat} {rest : List Char} (t : String) (quote : isQuote c = true) :
    Lexed (c :: rest) n (.token (.text t))
  | word {c : Char} {rest : List Char} (start : isWordStart c = true) :
    Lexed (c :: rest) (c :: rest.takeWhile isWordPart).length
      (.token (.word (String.ofList (c :: rest.takeWhile isWordPart))))
  | mark {m : Mark} {s : List Char} (found : Mark.at? s = some m) :
    Lexed s m.text.length (.token (.mark m))

theorem prefix_cons {a b c : Char} {rest : List Char} (h : [a, b].isPrefixOf (c :: rest) = true) :
    c = a ∧ ∃ more, rest = b :: more := by
  cases rest with
  | nil => simp [List.isPrefixOf] at h
  | cons d more =>
    simp only [List.isPrefixOf, Bool.and_true, Bool.and_eq_true, beq_iff_eq] at h
    exact ⟨h.1.symm, more, by rw [h.2]⟩

theorem take_word (c : Char) (rest : List Char) :
    (c :: rest).take (c :: rest.takeWhile isWordPart).length = c :: rest.takeWhile isWordPart := by
  rw [List.length_cons, List.take_succ_cons,
    ← List.prefix_iff_eq_take.mp (List.takeWhile_prefix isWordPart)]

theorem lexemeAt_lexed (h : lexemeAt (c :: rest) = .ok (n, l)) : Lexed (c :: rest) n l := by
  rw [lexemeAt] at h
  split at h
  · next newline =>
    cases h
    rw [beq_iff_eq.mp newline]
    exact .newline
  split at h
  · next blank =>
    cases h
    exact .blank blank
  split at h
  · next line =>
    cases h
    obtain ⟨rfl, more, rfl⟩ := prefix_cons line
    exact .line rfl
  split at h
  · next comment =>
    obtain ⟨rfl, more, rfl⟩ := prefix_cons comment
    split at h
    · next k closed =>
      cases h
      exact .comment _ closed
    · cases h
  split at h
  · next starts =>
    rw [numberLexeme] at h
    dsimp only at h
    split at h
    · cases h
    · next stops =>
      split at h
      · next x _ =>
        cases h
        exact .number x starts (Bool.not_eq_true _ ▸ stops)
      · cases h
  split at h
  · next quote =>
    split at h
    · cases h
      exact .text _ quote
    · cases h
  split at h
  · next start =>
    cases h
    exact .word start
  · split at h
    · next m found =>
      cases h
      exact .mark found
    · cases h

theorem le_exponentEnd (n : Nat) (s : List Char) : n ≤ exponentEnd n s := by
  unfold exponentEnd
  split
  · split
    · dsimp only
      split
      all_goals
        split
        · exact Nat.le_refl n
        · omega
    · exact Nat.le_refl n
  · exact Nat.le_refl n

theorem numberLength_pos (starts : startsNumber s = true) : 0 < numberLength s := by
  rw [numberLength_eq]
  refine Nat.lt_of_lt_of_le ?_ (le_exponentEnd _ _)
  unfold startsNumber at starts
  split at starts
  · next c rest =>
    have none : ('.' :: c :: rest).takeWhile isDigitMark = [] :=
      List.takeWhile_cons_of_neg (by decide)
    rw [none, List.length_nil, List.drop_zero, fractionEnd]
    omega
  · next c rest _ =>
    have some : (c :: rest).takeWhile isDigitMark = c :: rest.takeWhile isDigitMark :=
      List.takeWhile_cons_of_pos starts
    rw [some, List.length_cons]
    unfold fractionEnd
    split
    · omega
    · omega
  · cases starts

theorem Mark.last_not_wordChar (m : Mark) : m.text.toList.getLast?.any isWordChar = false := by
  cases m <;> decide

end Script

namespace Predicate

open Text Script

def allowedChars : List Char :=
  identStarts ++ asciiDigits ++ "+-*/%().<>=!&|?: \t\r\n".toList

variable {before : Option Char} {c : Char} {s rest : List Char} {n : Nat} {l : Lexeme}

theorem of_isAllowedChar {f : Char → Bool} (all : allowedChars.all f = true)
    (h : isAllowedChar c = true) : f c = true := by
  rw [allowedChars, List.all_append, List.all_append, Bool.and_eq_true, Bool.and_eq_true] at all
  rw [isAllowedChar, isIdentPart, Bool.or_eq_true, Bool.or_eq_true] at h
  rcases h with (h | h) | h
  · exact of_isIdentStart all.1.1 h
  · exact of_isDigit all.1.2 h
  · exact List.all_eq_true.mp all.2 c (List.contains_iff_mem.mp h)

theorem isQuote_of_allowed (h : isAllowedChar c = true) : isQuote c = false := by
  have all : (allowedChars.all fun c => !isQuote c) = true := by decide
  simpa using of_isAllowedChar all h

theorem isWordChar_of_blank (h : isAllowedChar c = true) (blank : isBlank c = true) :
    isWordChar c = false := by
  have all : (allowedChars.all fun c => !(isBlank c && isWordChar c)) = true := by decide
  simpa [blank] using of_isAllowedChar all h

theorem isWordPart_of_start (h : isWordStart c = true) : isWordPart c = true := by
  simp only [isWordStart, isWordPart, isAlphanumeric, Bool.or_eq_true] at h ⊢
  rcases h with (letter | low) | dollar
  · exact .inl (.inl (.inl (.inl letter)))
  · exact .inl (.inr low)
  · exact .inr dollar

theorem isWordPart_of_wordChar (h : isWordChar c = true) : isWordPart c = true := by
  simp only [isWordChar, isWordPart, Bool.or_eq_true] at h ⊢
  exact .inl h.symm

def Fresh (before : Option Char) (s : List Char) : Prop :=
  ∀ c ∈ s.head?, isWordStart c = true → before.any isWordChar = false

theorem Fresh.of_before (h : before.any isWordChar = false) : Fresh before s :=
  fun _ _ _ => h

theorem closedComment_last {k : Nat} (h : closedComment s = some k) :
    (s.take k).getLast? = some '/' := by
  induction s using closedComment.induct generalizing k with
  | case1 rest =>
    cases h
    rfl
  | case2 c rest other ih =>
    rw [closedComment] at h
    · obtain ⟨j, closed, rfl⟩ := Option.map_eq_some_iff.mp h
      rw [List.take_succ_cons, List.getLast?_cons, ih closed]
      rfl
    · exact other
  | case3 => cases h

theorem fresh_after (lexed : Lexed s n l) (allowed : ∀ c ∈ s, isAllowedChar c = true) :
    0 < n ∧ Fresh (s.take n).getLast? (s.drop n) := by
  -- A lexeme ends in no character of a word, or stops because no word begins after it.
  cases lexed with
  | @newline rest =>
    have last : (('\n' :: rest).take 1).getLast? = some '\n' := rfl
    exact ⟨Nat.one_pos, .of_before (by rw [last]; decide)⟩
  | @blank c rest h =>
    exact ⟨Nat.one_pos, .of_before (isWordChar_of_blank (allowed c List.mem_cons_self) h)⟩
  | @line rest first =>
    have some : ('/' :: rest).takeWhile (· != '\n') = '/' :: rest.takeWhile (· != '\n') :=
      List.takeWhile_cons_of_pos (by decide)
    refine ⟨by rw [some]; exact Nat.succ_pos _, fun c head start => ?_⟩
    have newline : c = '\n' := by simpa using drop_takeWhile_head c head
    subst newline
    cases start
  | @comment k rest broken closed =>
    refine ⟨Nat.succ_pos _, .of_before ?_⟩
    rw [List.take_succ_cons, List.take_succ_cons, List.getLast?_cons, List.getLast?_cons,
      closedComment_last closed]
    decide
  | number x starts stops =>
    -- A number may end in a letter or digit, but the reader refuses a word right after it.
    refine ⟨numberLength_pos starts, fun c head start => ?_⟩
    rw [Option.mem_def.mp head, Option.any_some, start] at stops
    cases stops
  | @text c k rest t quote =>
    have none := isQuote_of_allowed (allowed c List.mem_cons_self)
    rw [quote] at none
    cases none
  | @word c rest start =>
    refine ⟨Nat.succ_pos _, fun d head more => ?_⟩
    have whole : (c :: rest).takeWhile isWordPart = c :: rest.takeWhile isWordPart :=
      List.takeWhile_cons_of_pos (isWordPart_of_start start)
    rw [← whole] at head
    have stop := drop_takeWhile_head d head
    rw [isWordPart_of_start more] at stop
    cases stop
  | @mark m s found =>
    have front := List.find?_some found
    obtain ⟨rest, rfl⟩ := List.isPrefixOf_iff_prefix.mp front
    rw [← String.length_toList, List.take_left]
    refine ⟨?_, .of_before m.last_not_wordChar⟩
    cases m <;> decide

structure Permitted (before : Option Char) (s : List Char) : Prop where
  chars : ∀ c ∈ s, isAllowedChar c = true
  arrow : NoMatch (fun _ s => (dropWord? ['=', '>'] s).map fun _ => (2, ())) before s
  words : ∀ w ∈ blockedWords, NoMatch (boundedWord w.toList) before s

theorem Permitted.tail (h : Permitted before (c :: rest)) : Permitted (some c) rest where
  chars d hd := h.chars d (List.mem_cons_of_mem c hd)
  arrow := h.arrow.2
  words w hw := (h.words w hw).2

theorem permitted_of_isAllowed {text : String} (h : isAllowed text = true) :
    Permitted none text.toList := by
  rw [isAllowed, isBlocked] at h
  simp only [Bool.and_eq_true, Bool.not_eq_true', Bool.or_eq_false_iff, List.any_eq_false,
    List.all_eq_true, Bool.not_eq_true] at h
  obtain ⟨⟨_, chars⟩, arrow, words⟩ := h
  exact ⟨chars, noMatch_of_found arrow, fun w hw => noMatch_of_found (words w hw)⟩

theorem boundedWord_here {w : List Char} (first : before.any isWordChar = false)
    (last : ∀ c ∈ rest.head?, isWordChar c = false) :
    boundedWord w before (w ++ rest) = some (w.length, ()) := by
  have closed : rest.head?.any isWordChar = false := by
    cases rest with
    | nil => rfl
    | cons c rest => exact last c rfl
  rw [boundedWord, first, dropWord?_append]
  simp only [Bool.false_eq_true, if_false, closed]

def IsPlain : TokenKind → Prop
  | .number _ => True
  | .text _ => False
  | .word w => w ∉ blockedWords
  | .mark m =>
    m ∉ [.arrow, .leftBrace, .rightBrace, .leftBracket, .rightBracket, .comma, .semicolon]
  | .finish => True

theorem word_not_blocked (h : Permitted before (c :: rest)) (fresh : Fresh before (c :: rest))
    (start : isWordStart c = true) :
    String.ofList (c :: rest.takeWhile isWordPart) ∉ blockedWords := by
  intro blocked
  have unmatched := (h.words _ blocked).1
  have whole : (c :: rest.takeWhile isWordPart) ++ rest.dropWhile isWordPart = c :: rest := by
    rw [List.cons_append, List.takeWhile_append_dropWhile]
  have last : ∀ d ∈ (rest.dropWhile isWordPart).head?, isWordChar d = false := by
    intro d head
    refine Bool.eq_false_iff.mpr fun inWord => ?_
    have stop := dropWhile_head d head
    rw [isWordPart_of_wordChar inWord] at stop
    cases stop
  have found := boundedWord_here (w := c :: rest.takeWhile isWordPart) (fresh c rfl start) last
  rw [String.toList_ofList, ← whole, found] at unmatched
  cases unmatched

theorem mark_plain {m : Mark} (h : Permitted before s) (found : Mark.at? s = some m) :
    IsPlain (.mark m) := by
  have front := List.find?_some found
  obtain ⟨rest, rfl⟩ := List.isPrefixOf_iff_prefix.mp front
  have chars : m.text.toList.all isAllowedChar = true :=
    List.all_eq_true.mpr fun c hc => h.chars c (List.mem_append_left rest hc)
  intro excluded
  rcases List.mem_cons.mp excluded with rfl | excluded
  · have text : Mark.arrow.text.toList = ['=', '>'] := by decide
    have unmatched := h.arrow
    rw [text] at unmatched
    cases unmatched.1
  · have none : ∀ m ∈ [Mark.leftBrace, .rightBrace, .leftBracket, .rightBracket, .comma,
        .semicolon], m.text.toList.all isAllowedChar = false := by decide
    rw [none m excluded] at chars
    cases chars

theorem lexed_plain {kind : TokenKind} (h : Permitted before s) (fresh : Fresh before s)
    (lexed : Lexed s n (.token kind)) : IsPlain kind := by
  cases lexed with
  | number x starts stops => trivial
  | @text c _ rest t quote =>
    have none := isQuote_of_allowed (h.chars c List.mem_cons_self)
    rw [quote] at none
    cases none
  | word start => exact word_not_blocked h fresh start
  | mark found => exact mark_plain h found

theorem Fresh.skip {skip : Nat}
    (h : Fresh ((c :: rest).take (skip + 1)).getLast? ((c :: rest).drop (skip + 1))) :
    Fresh ((rest.take skip).getLast?.or (some c)) (rest.drop skip) := by
  rw [List.take_succ_cons, List.getLast?_cons, List.drop_succ_cons] at h
  rw [Option.or_some]
  exact h

theorem tokensFrom_plain {place skip : Nat} {broken : Bool} {ts : List Token}
    (h : Permitted before s)
    (fresh : Fresh ((s.take skip).getLast?.or before) (s.drop skip))
    (read : tokensFrom place skip broken s = .ok ts) : ∀ t ∈ ts, IsPlain t.kind := by
  -- `skip` characters of the last lexeme are still to be passed; what is known is where they end.
  induction s generalizing before place skip broken ts with
  | nil =>
    cases read
    exact List.forall_mem_singleton.mpr trivial
  | cons c rest ih =>
    cases skip with
    | succ skip =>
      have last : ((c :: rest).take (skip + 1)).getLast?.or before =
          ((c :: rest).take (skip + 1)).getLast? := by
        rw [List.take_succ_cons, List.getLast?_cons, Option.some_or]
      rw [last] at fresh
      exact ih h.tail fresh.skip read
    | zero =>
      rw [tokensFrom] at read
      split at read
      · next n hasBreak lexed =>
        obtain ⟨pos, after⟩ := fresh_after (lexemeAt_lexed lexed) h.chars
        rw [← Nat.sub_add_cancel pos] at after
        exact ih h.tail after.skip read
      · next n kind lexed =>
        obtain ⟨pos, after⟩ := fresh_after (lexemeAt_lexed lexed) h.chars
        rw [← Nat.sub_add_cancel pos] at after
        have front := lexed_plain h fresh (lexemeAt_lexed lexed)
        cases more : tokensFrom (place + 1) (n - 1) false rest with
        | error e =>
          rw [more] at read
          cases read
        | ok us =>
          rw [more] at read
          cases read
          exact List.forall_mem_cons.mpr ⟨front, ih h.tail after.skip more⟩
      · cases read
      · cases read

theorem tokens_plain {text : String} {ts : List Token} (h : isAllowed text = true)
    (read : tokens text = .ok ts) : ∀ t ∈ ts, IsPlain t.kind :=
  tokensFrom_plain (permitted_of_isAllowed h) (.of_before rfl) read

end Predicate

end EmitterLogic
