import EmitterLogic.Proofs.Fault
import EmitterLogic.Proofs.Script.Spelling
import EmitterLogic.Proofs.Script.Unreadable

/-!
The stretches of a text: what the scanner reads at one place after the other. Put together they are the
text, and the tokens are those of them that are no gaps, each at its place. So nothing of a text is lost in
its tokens: between white space and comments there stand, one after the other, the spellings of the tokens,
and what a token tells of the line breaks before it is what the text holds between it and the token before.
-/

namespace EmitterLogic.Script

/-- A part of a text and what stands in it. -/
structure Stretch where
  chars : List Char
  lexeme : Lexeme

/-- The stretches of a text up to its first error; `skip` characters belong to what has been read. -/
def stretchesFrom : Nat → List Char → List Stretch
  | _, [] => []
  | skip + 1, _ :: rest => stretchesFrom skip rest
  | 0, c :: rest =>
    match lexemeAt (c :: rest) with
    | .ok (n, l) => ⟨(c :: rest).take n, l⟩ :: stretchesFrom (n - 1) rest
    | .error _ => []

def stretches (text : String) : List Stretch := stretchesFrom 0 text.toList

theorem stretchesFrom_nil (skip : Nat) : stretchesFrom skip [] = [] := by cases skip <;> rfl

/-- The tokens among stretches that begin at a place. -/
def tokensOf : Nat → Bool → List Stretch → List Token
  | place, broken, [] => [⟨.finish, place, broken⟩]
  | place, broken, ⟨cs, .gap hasBreak⟩ :: more =>
    tokensOf (place + cs.length) (broken || hasBreak) more
  | place, broken, ⟨cs, .token kind⟩ :: more =>
    ⟨kind, place, broken⟩ :: tokensOf (place + cs.length) false more

inductive Stretched : List Char → List Stretch → Prop where
  | nil : Stretched [] []
  | cons {c : Char} {rest : List Char} {n : Nat} {l : Lexeme} {more : List Stretch}
    (lexed : lexemeAt (c :: rest) = .ok (n, l)) (later : Stretched ((c :: rest).drop n) more) :
    Stretched (c :: rest) (⟨(c :: rest).take n, l⟩ :: more)

variable {s : List Char} {text : String} {ts : List Token}

theorem Stretched.chars {ls : List Stretch} (h : Stretched s ls) : ls.flatMap Stretch.chars = s := by
  induction h with
  | nil => rfl
  | cons lexed later ih => rw [List.flatMap_cons, ih, List.take_append_drop]

theorem stretched_of_tokensFrom {place skip : Nat} {broken : Bool}
    (read : tokensFrom place skip broken s = .ok ts) :
    Stretched (s.drop skip) (stretchesFrom skip s) ∧
      ts = tokensOf (place + (s.take skip).length) broken (stretchesFrom skip s) := by
  induction s generalizing place skip broken ts with
  | nil =>
    rw [tokensFrom] at read
    cases read
    rw [List.drop_nil, List.take_nil, stretchesFrom_nil]
    exact ⟨.nil, rfl⟩
  | cons c rest ih =>
    cases skip with
    | succ skip =>
      rw [tokensFrom] at read
      obtain ⟨later, same⟩ := ih read
      rw [stretchesFrom, List.drop_succ_cons, List.take_succ_cons, List.length_cons,
        Nat.add_comm _ 1, ← Nat.add_assoc]
      exact ⟨later, same⟩
    | zero =>
      rw [List.drop_zero, List.take_zero, List.length_nil, Nat.add_zero, stretchesFrom]
      -- The scanner skips all but the first of the `n` characters of the stretch.
      have onward {n : Nat} {l : Lexeme} (lexed : lexemeAt (c :: rest) = .ok (n, l)) :
          (c :: rest).drop n = rest.drop (n - 1) ∧
            ((c :: rest).take n).length = 1 + (rest.take (n - 1)).length := by
        rw [← Nat.sub_add_cancel (lexemeAt_pos lexed), List.drop_succ_cons, List.take_succ_cons,
          List.length_cons, Nat.add_sub_cancel, Nat.add_comm]
        exact ⟨rfl, rfl⟩
      rw [tokensFrom] at read
      split at read
      · next n hasBreak lexed =>
        obtain ⟨left, length⟩ := onward lexed
        obtain ⟨later, same⟩ := ih read
        rw [lexed]
        refine ⟨.cons lexed (left ▸ later), ?_⟩
        rw [tokensOf, same, length, Nat.add_assoc]
      · next n kind lexed =>
        obtain ⟨left, length⟩ := onward lexed
        obtain ⟨us, read', rfl⟩ := map_ok read
        obtain ⟨later, same⟩ := ih read'
        rw [lexed]
        refine ⟨.cons lexed (left ▸ later), ?_⟩
        rw [tokensOf, same, length, Nat.add_assoc]
      · cases read
      · cases read

theorem stretched_of_tokens (read : tokens text = .ok ts) :
    Stretched text.toList (stretches text) ∧ ts = tokensOf 0 false (stretches text) :=
  stretched_of_tokensFrom read

open Text Reading

/-- White space and whole comments that stand before a text. -/
inductive Gap (after : List Char) : List Char → Prop where
  | nil : Gap after []
  | blank {c : Char} {gap : List Char} (white : isBlank c = true) (more : Gap after gap) :
    Gap after (c :: gap)
  | line {body gap : List Char} (unbroken : '\n' ∉ body)
    (ends : ∀ c ∈ (gap ++ after).head?, c = '\n') (more : Gap after gap) :
    Gap after ('/' :: '/' :: (body ++ gap))
  | block {body gap : List Char} (unclosed : ¬['*', '/'] <:+: body) (more : Gap after gap) :
    Gap after ('/' :: '*' :: (body ++ '*' :: '/' :: gap))

/-- The text that is written between two quotes. -/
inductive Decodes (quote : Char) : List Char → List Char → Prop where
  | nil : Decodes quote [] []
  | plain {c : Char} {body cs : List Char} (other : c ≠ quote) (unescaped : c ≠ '\\')
    (inLine : c = '\n' → quote = '\x60') (more : Decodes quote body cs) :
    Decodes quote (c :: body) (c :: cs)
  | escape {c : Char} {body cs : List Char} (more : Decodes quote body cs) :
    Decodes quote ('\\' :: c :: body) (escaped c :: cs)

/-- How a token is written that stands before a text. -/
inductive Spans (after : List Char) : TokenKind → List Char → Prop where
  | number {x : Float} {whole fraction exponent : List Char}
    (spells : IsUnsigned isDigitMark whole fraction exponent)
    (reads : Reading.float? (whole ++ (fraction ++ exponent)) = some x)
    (stops : ∀ c ∈ after.head?, isWordStart c = false) :
    Spans after (.number x) (whole ++ (fraction ++ exponent))
  | text {quote : Char} {body : List Char} {t : String} (quotes : isQuote quote = true)
    (decodes : Decodes quote body t.toList) : Spans after (.text t) (quote :: (body ++ [quote]))
  | word {w : String} (reads : isWord w = true) (stops : ∀ c ∈ after.head?, isWordPart c = false) :
    Spans after (.word w) w.toList
  | mark {m : Mark} : Spans after (.mark m) m.text.toList

/-- A text from a place on, as the tokens and the gaps between them. -/
inductive Scanned : Nat → List Char → List Token → Prop where
  | finish {place : Nat} {gap : List Char} (between : Gap [] gap) :
    Scanned place gap [⟨.finish, place + gap.length, gap.contains '\n'⟩]
  | token {place : Nat} {gap span rest : List Char} {kind : TokenKind} {ts : List Token}
    (between : Gap (span ++ rest) gap) (spans : Spans rest kind span)
    (later : Scanned (place + gap.length + span.length) rest ts) :
    Scanned place (gap ++ (span ++ rest))
      (⟨kind, place + gap.length, gap.contains '\n'⟩ :: ts)

def Written (after span : List Char) : Lexeme → Prop
  | .gap hasBreak => Gap after span ∧ hasBreak = span.contains '\n'
  | .token kind => Spans after kind span

def Stands (s : List Char) (n : Nat) (l : Lexeme) : Prop :=
  ∃ span after, s = span ++ after ∧ n = span.length ∧ Written after span l

variable {c : Char} {rest gap span : List Char} {n : Nat} {l : Lexeme}

section Gaps

theorem Gap.append {more after : List Char} (h : Gap (more ++ after) gap) (k : Gap after more) :
    Gap after (gap ++ more) := by
  induction h with
  | nil => exact k
  | blank white _ ih => exact .blank white ih
  | @line body gap unbroken ends _ ih =>
    rw [← List.append_assoc] at ends
    rw [List.cons_append, List.cons_append, List.append_assoc]
    exact .line unbroken ends ih
  | @block body gap unclosed _ ih =>
    rw [List.cons_append, List.cons_append, List.append_assoc]
    exact .block unclosed ih

theorem closedComment_split (h : closedComment s = some n) : ∃ body rest,
    s = body ++ '*' :: '/' :: rest ∧ n = body.length + 2 ∧ ¬['*', '/'] <:+: body := by
  induction s using closedComment.induct generalizing n with
  | case1 rest =>
    cases h
    exact ⟨[], rest, rfl, rfl, by simp⟩
  | case2 c rest other ih =>
    rw [closedComment] at h
    · obtain ⟨k, closed, rfl⟩ := Option.map_eq_some_iff.mp h
      obtain ⟨body, left, rfl, rfl, unclosed⟩ := ih closed
      refine ⟨c :: body, left, rfl, rfl, fun inside => ?_⟩
      rcases List.infix_cons_iff.mp inside with ⟨more, first⟩ | later
      · cases first
        exact other _ rfl rfl
      · exact unclosed later
    · exact other
  | case3 => cases h

theorem isBlank_newline : isBlank '\n' = true := by decide

theorem stands_blank (other : c ≠ '\n') (white : isBlank c = true) :
    Stands (c :: rest) 1 (.gap false) := by
  refine ⟨[c], rest, rfl, rfl, .blank white .nil, ?_⟩
  simp [Ne.symm other]

theorem stands_line (rest : List Char) :
    Stands ('/' :: '/' :: rest) (('/' :: '/' :: rest).takeWhile (· != '\n')).length (.gap false) := by
  have unbroken : '\n' ∉ rest.takeWhile (· != '\n') := fun inside => by
    simpa using List.mem_takeWhile_imp inside
  have ends : ∀ c ∈ (rest.dropWhile (· != '\n')).head?, c = '\n' := fun c head => by
    simpa using dropWhile_head c head
  refine ⟨'/' :: '/' :: (rest.takeWhile (· != '\n') ++ []), rest.dropWhile (· != '\n'), ?_, ?_,
    .line unbroken ends .nil, ?_⟩
  · simp
  · simp
  · simp [unbroken]

theorem stands_block (closed : closedComment rest = some n) :
    Stands ('/' :: '*' :: rest) (n + 2) (.gap ((('*' :: rest).take n).contains '\n')) := by
  obtain ⟨body, left, rfl, rfl, unclosed⟩ := closedComment_split closed
  refine ⟨'/' :: '*' :: (body ++ '*' :: '/' :: []), left, ?_, ?_, .block unclosed .nil, ?_⟩
  · simp
  · simp
  · have front : '*' :: (body ++ '*' :: '/' :: left) = ('*' :: (body ++ ['*'])) ++ '/' :: left := by simp
    have length : body.length + 2 = ('*' :: (body ++ ['*'])).length := by simp
    rw [front, length, List.take_left]
    simp

end Gaps

section Tokens

theorem numberLength_le (s : List Char) : numberLength s ≤ s.length := by
  obtain ⟨fraction, more, split, _, first⟩ :=
    fractionEnd_split (s.drop (s.takeWhile isDigitMark).length)
  rw [numberLength_eq, first]
  obtain ⟨exponent, rest, split', _, second⟩ :=
    exponentEnd_split (s.drop ((s.takeWhile isDigitMark).length + fraction.length))
  rw [second]
  have digits := List.takeWhile_prefix (l := s) isDigitMark |>.length_le
  have lengths := congrArg List.length split
  have lengths' := congrArg List.length split'
  rw [List.length_drop, List.length_append] at lengths lengths'
  omega

theorem stands_number (starts : startsNumber s = true) (h : numberLexeme s = .ok (n, l)) :
    Stands s n l := by
  rw [numberLexeme] at h
  dsimp only at h
  split at h
  · cases h
  · next stops =>
    split at h
    · next x reads =>
      cases h
      obtain ⟨whole, fraction, exponent, span, spells⟩ := numberLength_spells starts
      have length := congrArg List.length span
      rw [List.length_take, Nat.min_eq_left (numberLength_le s)] at length
      rw [span] at reads
      refine ⟨_, s.drop (numberLength s), ?_, length, .number spells reads fun c head => ?_⟩
      · rw [← span, List.take_append_drop]
      · rw [Option.mem_def.mp head] at stops
        exact Bool.not_eq_true _ ▸ stops
    · cases h

theorem quotedBody_decodes {quote : Char} {cs : List Char} (h : quotedBody quote s = some (n, cs)) :
    ∃ body rest, s = body ++ quote :: rest ∧ n = body.length + 1 ∧ Decodes quote body cs := by
  induction s using quotedBody.induct quote generalizing n cs with
  | case1 => cases h
  | case2 c rest ih =>
    rw [quotedBody] at h
    obtain ⟨⟨k, ds⟩, read, made⟩ := Option.map_eq_some_iff.mp h
    cases made
    obtain ⟨body, left, rfl, rfl, decodes⟩ := ih read
    exact ⟨'\\' :: c :: body, left, rfl, rfl, .escape decodes⟩
  | case3 c rest _ closes =>
    rw [quotedBody, if_pos closes] at h
    · cases h
      exact ⟨[], rest, by rw [beq_iff_eq.mp closes]; rfl, rfl, .nil⟩
    · assumption
  | case4 c rest _ other breaks =>
    rw [quotedBody, if_neg other, if_pos breaks] at h
    · cases h
    · assumption
  | case5 c rest _ other goes ih =>
    rw [quotedBody, if_neg other, if_neg goes] at h
    · obtain ⟨⟨k, ds⟩, read, made⟩ := Option.map_eq_some_iff.mp h
      cases made
      obtain ⟨body, left, rfl, rfl, decodes⟩ := ih read
      simp only [Bool.or_eq_true, beq_iff_eq, Bool.and_eq_true, bne_iff_ne, not_or, not_and_or,
        not_not] at goes
      exact ⟨c :: body, left, rfl, rfl, .plain (fun same => other (beq_iff_eq.mpr same)) goes.1
        (fun same => goes.2.resolve_left (not_not_intro same)) decodes⟩
    · assumption

theorem stands_word (start : isWordStart c = true) :
    Stands (c :: rest) (c :: rest.takeWhile isWordPart).length
      (.token (.word (String.ofList (c :: rest.takeWhile isWordPart)))) := by
  have reads : isWord (String.ofList (c :: rest.takeWhile isWordPart)) = true := by
    rw [isWord, String.toList_ofList]
    simp only [start, Bool.true_and, List.all_eq_true]
    exact fun d inside => List.mem_takeWhile_imp inside
  have written : Spans (rest.dropWhile isWordPart) (.word _) _ := .word reads dropWhile_head
  rw [String.toList_ofList] at written
  refine ⟨_, _, ?_, rfl, written⟩
  rw [List.cons_append, List.takeWhile_append_dropWhile]

theorem stands_mark {m : Mark} (found : Mark.at? s = some m) :
    Stands s m.text.length (.token (.mark m)) := by
  have front := List.find?_some found
  obtain ⟨left, rfl⟩ := List.isPrefixOf_iff_prefix.mp front
  exact ⟨_, left, rfl, String.length_toList.symm, .mark⟩

theorem lexemeAt_stands (h : lexemeAt (c :: rest) = .ok (n, l)) : Stands (c :: rest) n l := by
  rw [lexemeAt] at h
  split at h
  · next newline =>
    cases h
    obtain rfl := beq_iff_eq.mp newline
    exact ⟨['\n'], rest, rfl, rfl, .blank isBlank_newline .nil, rfl⟩
  next other =>
  split at h
  · next white =>
    cases h
    exact stands_blank (fun same => other (beq_iff_eq.mpr same)) white
  split at h
  · next line =>
    cases h
    obtain ⟨rfl, more, rfl⟩ := prefix_cons line
    exact stands_line more
  split at h
  · next comment =>
    obtain ⟨rfl, more, rfl⟩ := prefix_cons comment
    split at h
    · next k closed =>
      cases h
      exact stands_block closed
    · cases h
  split at h
  · next starts => exact stands_number starts h
  split at h
  · next quotes =>
    split at h
    · next k cs read =>
      cases h
      obtain ⟨body, left, rfl, rfl, decodes⟩ := quotedBody_decodes read
      refine ⟨c :: (body ++ [c]), left, ?_, ?_, .text quotes ?_⟩
      · simp
      · simp
      · rw [String.toList_ofList]
        exact decodes
    · cases h
  split at h
  · next start =>
    cases h
    exact stands_word start
  · split at h
    · next m found =>
      cases h
      exact stands_mark found
    · cases h

theorem Spans.ne_nil {after : List Char} {kind : TokenKind} (h : Spans after kind span) :
    span ≠ [] := by
  cases h with
  | number spells _ _ =>
    intro nothing
    obtain ⟨none, rest⟩ := List.append_eq_nil_iff.mp nothing
    have counts := spells.counts none
    rw [(List.append_eq_nil_iff.mp rest).1] at counts
    exact absurd counts (by decide)
  | text quotes decodes => exact List.cons_ne_nil _ _
  | @word w reads _ =>
    intro nothing
    rw [isWord, nothing] at reads
    cases reads
  | @mark m => cases m <;> decide

end Tokens

section Whole

theorem Stretched.scanned {ls : List Stretch} (h : Stretched s ls) {gap : List Char}
    (before : Gap s gap) (place : Nat) :
    Scanned place (gap ++ s) (tokensOf (place + gap.length) (gap.contains '\n') ls) := by
  induction h generalizing gap place with
  | nil =>
    rw [List.append_nil]
    exact .finish before
  | @cons c rest n l more lexed later ih =>
    obtain ⟨span, after, whole, rfl, written⟩ := lexemeAt_stands lexed
    rw [whole] at before later ih ⊢
    rw [List.drop_left] at ih
    rw [List.take_left]
    cases l with
    | gap hasBreak =>
      obtain ⟨between, rfl⟩ := written
      have longer := ih (before.append between) place
      rw [List.length_append, List.contains_append, List.append_assoc, ← Nat.add_assoc] at longer
      exact longer
    | token kind =>
      exact .token before written (ih .nil _)

theorem Scanned.ordered {place : Nat} {ts : List Token} (h : Scanned place s ts) :
    (∀ t ∈ ts, place ≤ t.position) ∧ ts.Pairwise fun t u => t.position < u.position := by
  induction h with
  | finish between =>
    exact ⟨List.forall_mem_singleton.mpr (Nat.le_add_right ..), List.pairwise_singleton ..⟩
  | @token place gap span rest kind ts between spans later ih =>
    have long := List.length_pos_iff.mpr spans.ne_nil
    obtain ⟨beyond, ordered⟩ := ih
    have onward (t : Token) (member : t ∈ ts) : place + gap.length < t.position :=
      Nat.lt_of_lt_of_le (Nat.lt_add_of_pos_right long) (beyond t member)
    refine ⟨List.forall_mem_cons.mpr ⟨Nat.le_add_right .., fun t member => ?_⟩,
      List.pairwise_cons.mpr ⟨onward, ordered⟩⟩
    exact Nat.le_trans (Nat.le_add_right ..) (Nat.le_of_lt (onward t member))

theorem Scanned.ends {place : Nat} {ts : List Token} (h : Scanned place s ts) :
    ∃ earlier broken, ts = earlier ++ [⟨.finish, place + s.length, broken⟩] := by
  induction h with
  | finish between => exact ⟨[], _, rfl⟩
  | @token place gap span rest kind ts between spans later ih =>
    obtain ⟨earlier, broken, rfl⟩ := ih
    refine ⟨⟨kind, place + gap.length, gap.contains '\n'⟩ :: earlier, broken, ?_⟩
    rw [List.cons_append, List.length_append, List.length_append, ← Nat.add_assoc, ← Nat.add_assoc]

theorem scanned_of_tokens {text : String} {ts : List Token} (read : tokens text = .ok ts) :
    Scanned 0 text.toList ts := by
  obtain ⟨stretched, rfl⟩ := stretched_of_tokens read
  exact stretched.scanned .nil 0

/-- The tokens of a text are the whole of it but for white space and whole comments between them; each
tells its place and whether there is a line break before it, and the last one the end of the text. -/
theorem tokens_lossless {text : String} {ts : List Token} (read : tokens text = .ok ts) :
    Scanned 0 text.toList ts ∧ (ts.Pairwise fun t u => t.position < u.position) ∧
      ∃ earlier broken, ts = earlier ++ [⟨.finish, text.length, broken⟩] := by
  have scanned := scanned_of_tokens read
  obtain ⟨earlier, broken, ends⟩ := scanned.ends
  rw [Nat.zero_add, String.length_toList] at ends
  exact ⟨scanned, scanned.ordered.2, earlier, broken, ends⟩

theorem tokens_lossless_comments :
    let text := "x /* \n */ += .5e-1 // y\n 'a\\nb'"
    ∃ ts, tokens text = .ok ts ∧ Scanned 0 text.toList ts ∧
      ts.map (fun t => (t.position, t.afterBreak)) =
        [(0, false), (10, true), (13, false), (25, true), (31, false)] := by
  intro text
  have read : (tokens text).isOk = true := by decide +kernel
  obtain ⟨ts, read⟩ := ok_of_isOk read
  have told : (tokens text).toOption.map (·.map fun t => (t.position, t.afterBreak)) =
      some [(0, false), (10, true), (13, false), (25, true), (31, false)] := by decide +kernel
  rw [read] at told
  exact ⟨ts, read, (tokens_lossless read).1, Option.some.inj told⟩

end Whole

end EmitterLogic.Script
