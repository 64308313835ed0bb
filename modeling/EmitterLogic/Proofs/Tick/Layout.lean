import EmitterLogic.Proofs.Script.Unreadable
import EmitterLogic.Proofs.Tick.Shapes

namespace EmitterLogic.Tick

open Text Script

variable {c : Char} {s t w rest : List Char} {n : Nat}

section Veil

theorem replaceFrom_hidden (before : Option Char) (skip : Nat) (s : List Char) :
    replaceFrom (fun _ s => (hiddenLength s).map fun n => (n, List.replicate n ' ')) before skip s =
      blanked (s.drop skip) := by
  have before_free (before before' : Option Char) (skip : Nat) (s : List Char) :
      replaceFrom (fun _ s => (hiddenLength s).map fun n => (n, List.replicate n ' ')) before skip s =
      replaceFrom (fun _ s => (hiddenLength s).map fun n => (n, List.replicate n ' ')) before'
        skip s := by
    cases s with
    | nil => simp [replaceFrom]
    | cons c s =>
      cases skip with
      | succ skip => rfl
      | zero => rw [replaceFrom, replaceFrom]
  induction s generalizing before skip with
  | nil => rw [List.drop_nil, blanked, replaceAll, replaceFrom, replaceFrom]
  | cons c s ih =>
    cases skip with
    | zero => exact before_free before none 0 (c :: s)
    | succ skip => exact ih (some c) skip

theorem blanked_of_none (h : hiddenLength (c :: rest) = none) :
    blanked (c :: rest) = c :: blanked rest := by
  rw [blanked, replaceAll, replaceFrom, h]
  exact congrArg (c :: ·) (replaceFrom_hidden (some c) 0 rest)

theorem blanked_of_hidden (h : hiddenLength s = some (n + 1)) :
    blanked s = List.replicate (n + 1) ' ' ++ blanked (s.drop (n + 1)) := by
  cases s with
  | nil => cases h
  | cons c rest =>
    rw [blanked, replaceAll, replaceFrom, h]
    exact congrArg (List.replicate (n + 1) ' ' ++ ·) (replaceFrom_hidden (some c) n rest)

def Open (s : List Char) : Prop := ∀ c ∈ s, c ≠ '/' ∧ isQuote c = false

theorem hiddenLength_open (slash : c ≠ '/') (quote : isQuote c = false) :
    hiddenLength (c :: rest) = none := by
  rw [hiddenLength]
  · rw [if_neg (by rw [quote]; exact Bool.false_ne_true)]
  · exact fun _ same _ => slash same
  · exact fun _ same _ => slash same

theorem blanked_open (h : Open w) : blanked (w ++ t) = w ++ blanked t := by
  induction w with
  | nil => rfl
  | cons c w ih =>
    obtain ⟨slash, quote⟩ := h c List.mem_cons_self
    rw [List.cons_append, blanked_of_none (hiddenLength_open slash quote),
      ih fun d member => h d (List.mem_cons_of_mem c member), List.cons_append]

theorem blanked_head (s : List Char) : ∀ c ∈ (blanked s).head?, c ∈ s.head? ∨ c = ' ' := by
  intro c head
  cases s with
  | nil => cases head
  | cons d rest =>
    cases hidden : hiddenLength (d :: rest) with
    | none =>
      rw [blanked_of_none hidden] at head
      exact .inl head
    | some n =>
      rw [blanked, replaceAll, replaceFrom, hidden] at head
      cases n with
      | zero =>
        -- A hidden text is never empty.
        rw [hiddenLength.eq_def] at hidden
        split at hidden
        · cases closed : closedComment _ with
          | none => rw [closed] at hidden; cases hidden
          | some k => rw [closed] at hidden; cases hidden
        · cases hidden
        · split at hidden
          · cases body : quotedLength _ _ with
            | none => rw [body] at hidden; cases hidden
            | some k => rw [body] at hidden; cases hidden
          · cases hidden
        · cases hidden
      | succ n => exact .inr (Option.some.inj head).symm

end Veil

section Hidden

theorem closedComment_le (h : closedComment s = some n) : n ≤ s.length := by
  induction s using closedComment.induct generalizing n with
  | case1 rest =>
    cases h
    simp
  | case2 c rest other ih =>
    rw [closedComment] at h
    · obtain ⟨k, closed, rfl⟩ := Option.map_eq_some_iff.mp h
      exact Nat.succ_le_succ (ih closed)
    · exact other
  | case3 => cases h

theorem quotedLength_le {quote : Char} (h : quotedLength quote s = some n) : n ≤ s.length := by
  induction s using quotedLength.induct quote generalizing n with
  | case1 => cases h
  | case2 c rest newline =>
    rw [quotedLength, if_pos newline] at h
    cases h
  | case3 c rest other ih =>
    rw [quotedLength, if_neg other] at h
    obtain ⟨k, closed, rfl⟩ := Option.map_eq_some_iff.mp h
    exact Nat.succ_le_succ (Nat.succ_le_succ (ih closed))
  | case4 c rest plain same =>
    rw [quotedLength, if_pos same] at h
    · cases h
      simp
    · exact plain
  | case5 c rest plain other slash =>
    rw [quotedLength, if_neg other, if_pos slash] at h
    · cases h
    · exact plain
  | case6 c rest plain other slash ih =>
    rw [quotedLength, if_neg other, if_neg slash] at h
    · obtain ⟨k, closed, rfl⟩ := Option.map_eq_some_iff.mp h
      exact Nat.succ_le_succ (ih closed)
    · exact plain

theorem quotedLength_eq {quote : Char} {k : Nat} {cs : List Char}
    (h : quotedLength quote s = some n) (read : quotedBody quote s = some (k, cs)) : n = k := by
  -- The readers step alike up to the quote, but where a reversed slash makes one of them give up.
  induction s using quotedLength.induct quote generalizing n k cs with
  | case1 => cases h
  | case2 c rest newline =>
    rw [quotedLength, if_pos newline] at h
    cases h
  | case3 c rest other ih =>
    rw [quotedLength, if_neg other] at h
    rw [quotedBody] at read
    obtain ⟨n, closed, rfl⟩ := Option.map_eq_some_iff.mp h
    obtain ⟨⟨k, cs⟩, closed', same⟩ := Option.map_eq_some_iff.mp read
    cases same
    rw [ih closed closed']
  | case4 c rest plain same =>
    rw [quotedLength, if_pos same] at h
    · rw [quotedBody, if_pos same] at read
      · cases h
        cases read
        rfl
      · exact plain
    · exact plain
  | case5 c rest plain other slash =>
    rw [quotedLength, if_neg other, if_pos slash] at h
    · cases h
    · exact plain
  | case6 c rest plain other slash ih =>
    rw [quotedLength, if_neg other, if_neg slash] at h
    · rw [quotedBody, if_neg other] at read
      · split at read
        · cases read
        · obtain ⟨n, closed, rfl⟩ := Option.map_eq_some_iff.mp h
          obtain ⟨⟨k, cs⟩, closed', same⟩ := Option.map_eq_some_iff.mp read
          cases same
          rw [ih closed closed']
      · exact plain
    · exact plain

end Hidden

section Spelled

inductive Spelled : TokenKind → List Char → List Char → Prop where
  | number {x : Float} {whole fraction exponent rest : List Char}
    (spells : Reading.IsUnsigned isDecimal whole fraction exponent)
    (stops : ∀ c ∈ rest.head?, isWordStart c = false) :
    Spelled (.number x) (whole ++ (fraction ++ exponent)) rest
  | text {t : String} {n : Nat} {rest : List Char} :
    Spelled (.text t) (List.replicate (n + 1) ' ') rest
  | word {w : String} {rest : List Char} (parts : isWord w = true)
    (stops : ∀ c ∈ rest.head?, isWordPart c = false) : Spelled (.word w) w.toList rest
  | mark {m : Mark} {rest : List Char} (assign : m = .assign → rest.head? ≠ some '>')
    (slash : m = .slash → ∀ c ∈ rest.head?, c ≠ '/' ∧ c ≠ '*') :
    Spelled (.mark m) m.text.toList rest

def Laid : Lexeme → List Char → List Char → Prop
  | .gap _, cs, _ => Blank cs
  | .token kind, cs, rest => Spelled kind cs rest

theorem not_quote_of {p : Char → Bool} (h : (['"', '\'', '\x60'].all fun d => !p d) = true)
    (part : p c = true) : isQuote c = false := by
  rw [Bool.eq_false_iff]
  intro quote
  rw [isQuote, Bool.or_eq_true, Bool.or_eq_true, beq_iff_eq, beq_iff_eq, beq_iff_eq] at quote
  have none := List.all_eq_true.mp h c (by rcases quote with (rfl | rfl) | rfl <;> decide)
  rw [part] at none
  cases none

theorem open_of {p : Char → Bool} (h : (['/', '"', '\'', '\x60'].all fun d => !p d) = true)
    (parts : ∀ c ∈ s, p c = true) : Open s := by
  intro c member
  rw [List.all_cons, Bool.and_eq_true, Bool.not_eq_true'] at h
  refine ⟨?_, not_quote_of h.2 (parts c member)⟩
  rintro rfl
  rw [parts '/' member] at h
  cases h.1

theorem blanked_stops {p : Char → Bool} (blank : p ' ' = false) (h : ∀ c ∈ s.head?, p c = false) :
    ∀ c ∈ (blanked s).head?, p c = false := by
  intro c head
  rcases blanked_head s c head with same | rfl
  · exact h c same
  · exact blank

theorem of_lexemeAt_text {t : String} (read : lexemeAt (c :: rest) = .ok (n, .token (.text t))) :
    isQuote c = true ∧ c ≠ '/' ∧ ∃ k cs, quotedBody c rest = some (k, cs) ∧ n = k + 1 := by
  have quote : isQuote c = true := by
    cases lexemeAt_lexed read with
    | text _ quote => exact quote
  have slash : c ≠ '/' := by
    rintro rfl
    cases quote
  have starts : ¬startsNumber (c :: rest) = true := by
    intro starts
    rw [lexemeAt_of_startsNumber starts, numberLexeme] at read
    dsimp only at read
    repeat' split at read
    all_goals cases read
  refine ⟨quote, slash, ?_⟩
  rw [lexemeAt] at read
  repeat' split at read
  all_goals first | cases read; done | skip
  · next k cs body =>
    cases read
    exact ⟨k, cs, body, rfl⟩

theorem slash_alone {m : Mark} (read : lexemeAt ('/' :: rest) = .ok (n, .token (.mark m))) :
    ∀ c ∈ rest.head?, c ≠ '/' ∧ c ≠ '*' := by
  intro c head
  obtain ⟨more, rfl⟩ : ∃ more, rest = c :: more := by
    cases rest with
    | nil => cases head
    | cons d more => exact ⟨more, by rw [Option.some.inj head]⟩
  constructor
  · rintro rfl
    cases read
  · rintro rfl
    have line : "//".toList.isPrefixOf ('/' :: '*' :: more) = false := rfl
    have block : "/*".toList.isPrefixOf ('/' :: '*' :: more) = true := rfl
    rw [lexemeAt, if_neg (by decide), if_neg (by decide), line, if_neg Bool.false_ne_true, block,
      if_pos rfl] at read
    split at read
    · cases read
    · cases read

theorem assign_alone {m : Mark} (found : Mark.at? (m.text.toList ++ rest) = some m)
    (assign : m = .assign) : rest.head? ≠ some '>' := by
  subst assign
  intro head
  cases rest with
  | nil => cases head
  | cons d more =>
    obtain rfl := Option.some.inj head
    cases found

theorem open_of_mark {m : Mark} (slash : m ≠ .slash) (division : m ≠ .divAssign) :
    Open m.text.toList := by
  have all : (m.text.toList.all fun c => c != '/' && !isQuote c) = true := by
    cases m <;> first | exact absurd rfl slash | exact absurd rfl division | decide
  intro c member
  simpa using List.all_eq_true.mp all c member

theorem blanked_mark {m : Mark} (alone : m = .slash → ∀ c ∈ rest.head?, c ≠ '/' ∧ c ≠ '*') :
    blanked (m.text.toList ++ rest) = m.text.toList ++ blanked rest := by
  by_cases slash : m = .slash
  · subst slash
    have plain : hiddenLength ('/' :: rest) = none := by
      rw [hiddenLength]
      · rfl
      · exact fun more _ same => (alone rfl '*' (by rw [same]; rfl)).2 rfl
      · exact fun more _ same => (alone rfl '/' (by rw [same]; rfl)).1 rfl
    exact blanked_of_none plain
  by_cases division : m = .divAssign
  · subst division
    have second : blanked ('=' :: rest) = '=' :: blanked rest :=
      blanked_of_none (hiddenLength_open (by decide) (by decide))
    have first : blanked ('/' :: '=' :: rest) = '/' :: blanked ('=' :: rest) := blanked_of_none rfl
    exact first.trans (by rw [second]; rfl)
  · exact blanked_open (open_of_mark slash division)

def Unquoted (s : List Char) : Prop := ∀ c ∈ blanked s, isQuote c = false

def Fronts (s : List Char) (n : Nat) (l : Lexeme) : Prop :=
  ∃ cs, cs.length = (s.take n).length ∧ blanked s = cs ++ blanked (s.drop n) ∧
    Laid l cs (blanked (s.drop n))

theorem fronts_hidden {l : Lexeme} (h : hiddenLength s = some (n + 1)) (within : n + 1 ≤ s.length)
    (laid : Laid l (List.replicate (n + 1) ' ') (blanked (s.drop (n + 1)))) : Fronts s (n + 1) l :=
  ⟨_, by rw [List.length_replicate, List.length_take_of_le within], blanked_of_hidden h, laid⟩

theorem fronts_open {l : Lexeme} (h : Open (s.take n))
    (laid : Laid l (s.take n) (blanked (s.drop n))) : Fronts s n l := by
  refine ⟨s.take n, rfl, ?_, laid⟩
  rw [← blanked_open h, List.take_append_drop]

theorem Blank.open (h : Blank s) : Open s := open_of (by decide) h

theorem open_number {whole fraction exponent : List Char}
    (h : Reading.IsUnsigned isDecimal whole fraction exponent) :
    Open (whole ++ (fraction ++ exponent)) := by
  refine open_of (p := fun c => isDecimal c || Reading.numberSigns.contains c) (by decide) ?_
  intro c member
  rw [Bool.or_eq_true, List.contains_iff_mem]
  exact h.chars c member

theorem isWordPart_of_isWord {w : String} (h : isWord w = true) :
    ∀ c ∈ w.toList, isWordPart c = true := by
  rw [isWord] at h
  cases whole : w.toList with
  | nil => exact List.forall_mem_nil _
  | cons c cs =>
    rw [whole] at h
    rw [Bool.and_eq_true, List.all_eq_true] at h
    exact List.forall_mem_cons.mpr ⟨Predicate.isWordPart_of_start h.1, h.2⟩

theorem exists_first_of_isWord {w : String} (h : isWord w = true) :
    ∃ c cs, w.toList = c :: cs ∧ isWordStart c = true := by
  rw [isWord] at h
  split at h
  · cases h
  · next c cs whole =>
    rw [Bool.and_eq_true] at h
    exact ⟨c, cs, whole, h.1⟩

theorem blank_replicate : Blank (List.replicate n ' ') := fun c member => by
  rw [List.eq_of_mem_replicate member]
  decide

theorem fronts_number {x : Float} (starts : startsNumber s = true)
    (stops : (s.drop (numberLength s)).head?.any isWordStart = false)
    (read : lexemeAt s = .ok (numberLength s, .token (.number x))) :
    Fronts s (numberLength s) (.token (.number x)) := by
  obtain ⟨whole, fraction, exponent, span, spells⟩ := numberLength_spells starts
  have decimal : ∀ c ∈ whole ++ (fraction ++ exponent), isDigitMark c = true →
      isDecimal c = true := by
    intro c member mark
    refine Classical.byContradiction fun other => ?_
    have unreadable : UnreadableNumeral s :=
      ⟨starts, stops, c, span ▸ member, mark, Bool.not_eq_true _ ▸ other⟩
    cases read.symm.trans (lexemeAt_fault_iff.mpr ⟨unreadable, rfl⟩)
  have spells' := spells.weaken decimal
  have stop : ∀ c ∈ (s.drop (numberLength s)).head?, isWordStart c = false := by
    intro c head
    rw [Option.mem_def.mp head] at stops
    exact stops
  refine fronts_open ?_ ?_
  · rw [span]
    exact open_number spells'
  · rw [span]
    exact .number spells' (blanked_stops (by decide) stop)

theorem fronts_word (start : isWordStart c = true) :
    Fronts (c :: rest) (c :: rest.takeWhile isWordPart).length
      (.token (.word (String.ofList (c :: rest.takeWhile isWordPart)))) := by
  have parts : ∀ d ∈ c :: rest.takeWhile isWordPart, isWordPart d = true :=
    List.forall_mem_cons.mpr ⟨Predicate.isWordPart_of_start start, fun _ => List.mem_takeWhile_imp⟩
  have word : isWord (String.ofList (c :: rest.takeWhile isWordPart)) = true := by
    rw [isWord, String.toList_ofList]
    dsimp only
    rw [start, List.all_takeWhile]
    rfl
  have stop : ∀ d ∈ ((c :: rest).drop (c :: rest.takeWhile isWordPart).length).head?,
      isWordPart d = false := by
    rw [List.length_cons, List.drop_succ_cons]
    exact drop_takeWhile_head
  refine fronts_open ?_ ?_
  · rw [take_word]
    exact open_of (by decide) parts
  · have spelled := Spelled.word word (blanked_stops (by decide) stop)
    rw [String.toList_ofList] at spelled
    rw [take_word]
    exact spelled

theorem fronts_mark {m : Mark} (found : Mark.at? s = some m)
    (read : lexemeAt s = .ok (m.text.length, .token (.mark m))) :
    Fronts s m.text.length (.token (.mark m)) := by
  have front := List.find?_some found
  obtain ⟨rest, rfl⟩ := List.isPrefixOf_iff_prefix.mp front
  have taken : (m.text.toList ++ rest).take m.text.length = m.text.toList := by
    rw [← String.length_toList, List.take_left]
  have left : (m.text.toList ++ rest).drop m.text.length = rest := by
    rw [← String.length_toList, List.drop_left]
  have shown {c : Char} {p : Char → Prop} (blank : p ' ') (h : ∀ c ∈ rest.head?, p c)
      (head : (blanked rest).head? = some c) : p c := by
    rcases blanked_head rest c head with same | rfl
    · exact h c same
    · exact blank
  have spelled : Spelled (.mark m) m.text.toList (blanked rest) := by
    refine .mark (fun assign head => ?_) fun slash c head => ?_
    · exact shown (p := (· ≠ '>')) (by decide)
        (fun c first same => assign_alone found assign (same ▸ first)) head rfl
    · subst slash
      exact shown (p := fun c => c ≠ '/' ∧ c ≠ '*') (by decide) (slash_alone read) head
  refine ⟨m.text.toList, by rw [taken], ?_, by rw [left]; exact spelled⟩
  rw [left]
  exact blanked_mark fun slash c head => by
    subst slash
    exact slash_alone read c head

theorem fronts_text {t : String} (read : lexemeAt (c :: rest) = .ok (n, .token (.text t)))
    (unquoted : Unquoted (c :: rest)) : Fronts (c :: rest) n (.token (.text t)) := by
  obtain ⟨quote, slash, k, cs, body, rfl⟩ := of_lexemeAt_text read
  have unfolded : hiddenLength (c :: rest) = (quotedLength c rest).map (· + 1) := by
    rw [hiddenLength, if_pos quote]
    · exact fun _ same _ => slash same
    · exact fun _ same _ => slash same
  cases length : quotedLength c rest with
  | none =>
    -- The opening mark would be left.
    rw [length] at unfolded
    have left := unquoted c (by rw [blanked_of_none unfolded]; exact List.mem_cons_self)
    rw [quote] at left
    cases left
  | some j =>
    obtain rfl := quotedLength_eq length body
    rw [length] at unfolded
    exact fronts_hidden unfolded (Nat.succ_le_succ (quotedLength_le length)) .text

theorem lexeme_fronts {l : Lexeme} (read : lexemeAt (c :: rest) = .ok (n, l))
    (unquoted : Unquoted (c :: rest)) : Fronts (c :: rest) n l := by
  have gap {cs more : List Char} {broken : Bool} (blank : Blank cs) : Laid (.gap broken) cs more :=
    blank
  have single {broken : Bool} (blank : isBlank c = true) (quote : isQuote c = false)
      (slash : c ≠ '/') : Fronts (c :: rest) 1 (.gap broken) :=
    fronts_open (List.forall_mem_singleton.mpr ⟨slash, quote⟩)
      (gap (List.forall_mem_singleton.mpr blank))
  cases lexed : lexemeAt_lexed read with
  | newline => exact single (by decide) (by decide) (by decide)
  | blank h =>
    have quote : isQuote c = false := not_quote_of (p := isBlank) (by decide) h
    exact single h quote (by rintro rfl; cases h)
  | @line rest first =>
    obtain ⟨more, rfl⟩ : ∃ more, rest = '/' :: more := by
      cases rest with
      | nil => cases first
      | cons d more => exact ⟨more, by rw [Option.some.inj first]⟩
    have count : (('/' :: '/' :: more).takeWhile (· != '\n')).length =
        (more.takeWhile (· != '\n')).length + 1 + 1 := by simp
    rw [count]
    refine fronts_hidden rfl ?_ (gap blank_replicate)
    have le := (List.takeWhile_prefix (· != '\n') (l := more)).length_le
    simp only [List.length_cons]
    omega
  | @comment k rest broken closed =>
    refine fronts_hidden (by rw [hiddenLength, closed]; rfl) ?_ (gap blank_replicate)
    have le := closedComment_le closed
    simp only [List.length_cons]
    omega
  | number x starts stops => exact fronts_number starts stops read
  | text t quote => exact fronts_text read unquoted
  | word start => exact fronts_word start
  | mark found => exact fronts_mark found read

end Spelled

inductive Layout : Nat → List Char → List Token → Prop where
  | finish {place : Nat} {gap : List Char} {broken : Bool} (blank : Blank gap) :
    Layout place gap [⟨.finish, place + gap.length, broken⟩]
  | token {place : Nat} {gap cs rest : List Char} {kind : TokenKind} {broken : Bool}
    {ts : List Token} (blank : Blank gap) (spelled : Spelled kind cs rest)
    (more : Layout (place + gap.length + cs.length) rest ts) :
    Layout place (gap ++ (cs ++ rest)) (⟨kind, place + gap.length, broken⟩ :: ts)

theorem Layout.after_gap {place : Nat} {g : List Char} {ts : List Token} (blank : Blank g)
    (h : Layout (place + g.length) s ts) : Layout place (g ++ s) ts := by
  cases h with
  | @finish _ gap broken blank' =>
    rw [Nat.add_assoc, ← List.length_append]
    exact .finish (blank.append blank')
  | @token _ gap cs rest kind broken ts blank' spelled more =>
    rw [← List.append_assoc, Nat.add_assoc, ← List.length_append]
    rw [Nat.add_assoc place, ← List.length_append] at more
    exact .token (blank.append blank') spelled more

theorem Layout.blanked {place : Nat} {ts : List Token} (h : Layout place s ts) :
    Tick.blanked s = s := by
  have shown {g s : List Char} (open' : Open g) (ih : Tick.blanked s = s) :
      Tick.blanked (g ++ s) = g ++ s := by rw [blanked_open open', ih]
  induction h with
  | @finish _ gap _ blank =>
    rw [← List.append_nil gap]
    exact shown (Blank.open blank) rfl
  | token blank spelled more ih =>
    refine shown (Blank.open blank) ?_
    cases spelled with
    | number spells _ => exact shown (open_number spells) ih
    | text => exact shown (Blank.open blank_replicate) ih
    | word parts _ => exact shown (open_of (by decide) (isWordPart_of_isWord parts)) ih
    | mark _ alone => rw [blanked_mark alone, ih]

theorem layout_of_tokensFrom {place skip : Nat} {broken : Bool} {ts : List Token}
    (read : tokensFrom place skip broken s = .ok ts) (unquoted : Unquoted (s.drop skip)) :
    Layout (place + (s.take skip).length) (blanked (s.drop skip)) ts := by
  induction s generalizing place skip broken ts with
  | nil =>
    rw [tokensFrom] at read
    cases read
    rw [List.take_nil, List.drop_nil]
    have none : Blank ([] : List Char) := List.forall_mem_nil _
    exact (Layout.finish none :)
  | cons c rest ih =>
    cases skip with
    | succ skip =>
      have layout := ih read unquoted
      rw [List.take_succ_cons, List.length_cons, Nat.add_comm _ 1, ← Nat.add_assoc]
      exact layout
    | zero =>
      rw [List.drop_zero] at unquoted
      rw [List.take_zero, List.drop_zero]
      -- The front of the text is `n` characters, of which the scanner skips all but the first.
      have onward {n : Nat} {l : Lexeme} (lexed : lexemeAt (c :: rest) = .ok (n, l)) :
          ∃ cs, blanked (c :: rest) = cs ++ blanked (rest.drop (n - 1)) ∧
            cs.length = 1 + (rest.take (n - 1)).length ∧ Laid l cs (blanked (rest.drop (n - 1))) ∧
              Unquoted (rest.drop (n - 1)) := by
        obtain ⟨cs, length, whole, laid⟩ := lexeme_fronts lexed unquoted
        rw [← Nat.sub_add_cancel (lexemeAt_pos lexed), List.drop_succ_cons] at whole laid
        rw [← Nat.sub_add_cancel (lexemeAt_pos lexed), List.take_succ_cons, List.length_cons,
          Nat.add_comm] at length
        exact ⟨cs, whole, length, laid, fun d member => unquoted d
          (by rw [whole]; exact List.mem_append_right _ member)⟩
      rw [tokensFrom] at read
      split at read
      · next n hasBreak lexed =>
        obtain ⟨cs, whole, length, blank, unquoted'⟩ := onward lexed
        have layout := ih read unquoted'
        rw [Nat.add_assoc, ← length] at layout
        rw [whole]
        exact layout.after_gap blank
      · next n kind lexed =>
        obtain ⟨cs, whole, length, spelled, unquoted'⟩ := onward lexed
        cases more : tokensFrom (place + 1) (n - 1) false rest with
        | error e =>
          rw [more] at read
          cases read
        | ok us =>
          rw [more] at read
          cases read
          have layout := ih more unquoted'
          rw [Nat.add_assoc, ← length] at layout
          rw [whole]
          have none : Blank ([] : List Char) := List.forall_mem_nil _
          exact (Layout.token none spelled layout :)
      · cases read
      · cases read

theorem layout_of_tokens {source : String} {ts : List Token} (read : tokens source = .ok ts)
    (unquoted : Unquoted source.toList) : Layout 0 (blanked source.toList) ts :=
  layout_of_tokensFrom read unquoted

end EmitterLogic.Tick
