import EmitterLogic.Proofs.Script.Stretches
import EmitterLogic.Proofs.Tick.Layout

/-!
What is blanked in a script: the comments and quoted texts that the scanner reads, each of them whole,
unless a quoted text escapes a line break.
-/

namespace EmitterLogic.Script.Stretch

open Tick

/-- Is a stretch a comment or a quoted text? -/
def isHidden (p : Stretch) : Bool :=
  match p.lexeme with
  | .gap _ => p.chars.head? == some '/'
  | .token (.text _) => true
  | .token _ => false

/-- The characters of a stretch, with blanks in the place of a comment or a quoted text. -/
def veiled (p : Stretch) : List Char :=
  if p.isHidden then List.replicate p.chars.length ' ' else p.chars

/-- Does a reversed slash take a line break with it? -/
def escapesBreakIn : List Char → Bool
  | '\\' :: c :: rest => c == '\n' || escapesBreakIn rest
  | _ :: rest => escapesBreakIn rest
  | [] => false

/-- Is a stretch a quoted text that escapes a line break? -/
def escapesBreak (p : Stretch) : Bool :=
  match p.lexeme with
  | .token (.text _) => escapesBreakIn p.chars
  | _ => false

end EmitterLogic.Script.Stretch

namespace EmitterLogic.Tick

open Text Script Stretch

section Fronts

variable {c : Char} {s rest : List Char} {n k : Nat} {l : Lexeme}

theorem escapesBreakIn_cons (other : c ≠ '\\') :
    escapesBreakIn (c :: rest) = escapesBreakIn rest := by
  rw [escapesBreakIn]
  exact fun _ _ same _ => other same

theorem quotedLength_of_body {quote : Char} {cs : List Char}
    (read : quotedBody quote s = some (k, cs)) :
    quotedLength quote s = if escapesBreakIn (s.take k) then none else some k := by
  induction s using quotedLength.induct quote generalizing k cs with
  | case1 => cases read
  | case2 c rest newline =>
    rw [quotedBody] at read
    obtain ⟨⟨k, cs⟩, _, same⟩ := Option.map_eq_some_iff.mp read
    cases same
    rw [quotedLength, if_pos newline, List.take_succ_cons, List.take_succ_cons, escapesBreakIn, newline]
    rfl
  | case3 c rest other ih =>
    rw [quotedBody] at read
    obtain ⟨⟨k, cs⟩, body, same⟩ := Option.map_eq_some_iff.mp read
    cases same
    have different : (c == '\n') = false := Bool.not_eq_true _ ▸ other
    rw [quotedLength, if_neg other, ih body, List.take_succ_cons, List.take_succ_cons, escapesBreakIn,
      different, Bool.false_or]
    split <;> rfl
  | case4 c rest plain same =>
    rw [quotedBody, if_pos same] at read
    · cases read
      rw [quotedLength, if_pos same, List.take_succ_cons, List.take_zero, escapesBreakIn]
      · rfl
      · rintro _ _ _ ⟨⟩
      · exact plain
    · exact plain
  | case5 c rest plain other slash =>
    rw [quotedBody, if_neg other, if_pos (by rw [slash, Bool.true_or])] at read
    · cases read
    · exact plain
  | case6 c rest plain other slash ih =>
    rw [quotedBody, if_neg other] at read
    · split at read
      · cases read
      · obtain ⟨⟨k, cs⟩, body, same⟩ := Option.map_eq_some_iff.mp read
        cases same
        rw [quotedLength, if_neg other, if_neg slash, ih body, List.take_succ_cons,
          escapesBreakIn_cons (by simpa using slash)]
        · split <;> rfl
        · exact plain
    · exact plain

theorem hiddenLength_bounds (hidden : hiddenLength s = some n) : 0 < n ∧ n ≤ s.length := by
  rw [hiddenLength.eq_def] at hidden
  split at hidden
  · obtain ⟨k, closed, rfl⟩ := Option.map_eq_some_iff.mp hidden
    exact ⟨Nat.succ_pos _, Nat.succ_le_succ (Nat.succ_le_succ (closedComment_le closed))⟩
  · cases hidden
    exact ⟨Nat.succ_pos _, Nat.succ_le_succ (Nat.succ_le_succ (List.takeWhile_prefix _).length_le)⟩
  · split at hidden
    · obtain ⟨k, closed, rfl⟩ := Option.map_eq_some_iff.mp hidden
      exact ⟨Nat.succ_pos _, Nat.succ_le_succ (quotedLength_le closed)⟩
    · cases hidden
  · cases hidden

theorem length_blanked (s : List Char) : (blanked s).length = s.length := by
  induction whole : s.length using Nat.strong_induction_on generalizing s with
  | _ m ih =>
    subst whole
    cases s with
    | nil => rfl
    | cons c rest =>
      cases hidden : hiddenLength (c :: rest) with
      | none =>
        rw [blanked_of_none hidden, List.length_cons, ih _ (Nat.lt_succ_self _) rest rfl,
          List.length_cons]
      | some n =>
        obtain ⟨positive, within⟩ := hiddenLength_bounds hidden
        obtain ⟨k, rfl⟩ : ∃ k, n = k + 1 := ⟨n - 1, (Nat.sub_add_cancel positive).symm⟩
        have shorter : ((c :: rest).drop (k + 1)).length < (c :: rest).length := by
          rw [List.length_drop]
          omega
        rw [blanked_of_hidden hidden, List.length_append, List.length_replicate, ih _ shorter _ rfl,
          List.length_drop]
        omega

theorem hiddenLength_of_text {t : String} (lexed : lexemeAt (c :: rest) = .ok (n, .token (.text t))) :
    hiddenLength (c :: rest) = if escapesBreakIn ((c :: rest).take n) then none else some n := by
  obtain ⟨quote, slash, k, cs, body, rfl⟩ := of_lexemeAt_text lexed
  have other : c ≠ '\\' := by
    rintro rfl
    cases quote
  rw [hiddenLength, if_pos quote, quotedLength_of_body body, List.take_succ_cons,
    escapesBreakIn_cons other]
  · split <;> rfl
  · exact fun _ same _ => slash same
  · exact fun _ same _ => slash same

theorem blanked_stretch (lexed : lexemeAt (c :: rest) = .ok (n, l))
    (whole : (⟨(c :: rest).take n, l⟩ : Stretch).escapesBreak = false) :
    blanked (c :: rest) =
      (⟨(c :: rest).take n, l⟩ : Stretch).veiled ++ blanked ((c :: rest).drop n) := by
  have shown (seen : (⟨(c :: rest).take n, l⟩ : Stretch).isHidden = false)
      (open' : Open ((c :: rest).take n)) : blanked (c :: rest) =
        (⟨(c :: rest).take n, l⟩ : Stretch).veiled ++ blanked ((c :: rest).drop n) := by
    rw [veiled, if_neg (by rw [seen]; exact Bool.false_ne_true), ← blanked_open open',
      List.take_append_drop]
  have covered (hides : (⟨(c :: rest).take n, l⟩ : Stretch).isHidden = true)
      (hidden : hiddenLength (c :: rest) = some n) : blanked (c :: rest) =
        (⟨(c :: rest).take n, l⟩ : Stretch).veiled ++ blanked ((c :: rest).drop n) := by
    obtain ⟨positive, within⟩ := hiddenLength_bounds hidden
    obtain ⟨k, rfl⟩ : ∃ k, n = k + 1 := ⟨n - 1, (Nat.sub_add_cancel positive).symm⟩
    rw [veiled, if_pos hides, List.length_take_of_le within]
    exact blanked_of_hidden hidden
  cases lexed' : lexemeAt_lexed lexed with
  | newline => exact shown rfl (List.forall_mem_singleton.mpr (by decide))
  | blank h =>
    have slash : c ≠ '/' := by
      rintro rfl
      cases h
    refine shown ?_ (List.forall_mem_singleton.mpr ⟨slash, not_quote_of (p := isBlank) (by decide) h⟩)
    simpa [isHidden] using slash
  | @line rest first =>
    obtain ⟨more, rfl⟩ : ∃ more, rest = '/' :: more := List.head?_eq_some_iff.mp first
    have count : (('/' :: '/' :: more).takeWhile (· != '\n')).length =
        (more.takeWhile (· != '\n')).length + 2 := by simp
    refine covered ?_ (by rw [count]; rfl)
    rw [count]
    rfl
  | @comment k rest broken closed => exact covered rfl (by rw [hiddenLength, closed]; rfl)
  | number x starts stops =>
    obtain ⟨whole, fraction, exponent, span, spells⟩ := numberLength_spells starts
    refine shown rfl ?_
    rw [span]
    refine open_of (p := fun c => isDigitMark c || Reading.numberSigns.contains c) (by decide) ?_
    intro d member
    rw [Bool.or_eq_true, List.contains_iff_mem]
    exact spells.chars d member
  | text t quote =>
    have plain : escapesBreakIn ((c :: rest).take n) = false := whole
    exact covered rfl (by rw [hiddenLength_of_text lexed, plain]; rfl)
  | word start =>
    refine shown rfl (open_of (p := isWordPart) (by decide) ?_)
    rw [take_word]
    exact List.forall_mem_cons.mpr
      ⟨Predicate.isWordPart_of_start start, fun _ => List.mem_takeWhile_imp⟩
  | @mark m _ found =>
    have front := List.find?_some found
    obtain ⟨more, text⟩ := List.isPrefixOf_iff_prefix.mp front
    rw [veiled, if_neg (by exact Bool.false_ne_true), ← text, ← String.length_toList, List.take_left,
      List.drop_left]
    refine blanked_mark fun slash d head => ?_
    subst slash
    obtain ⟨rfl, rfl⟩ := List.cons.inj text
    exact slash_alone lexed d head

theorem blanked_unhidden (lexed : lexemeAt (c :: rest) = .ok (n, l))
    (escapes : (⟨(c :: rest).take n, l⟩ : Stretch).escapesBreak = true) (t : List Char) :
    blanked (c :: rest) ≠ (⟨(c :: rest).take n, l⟩ : Stretch).veiled ++ t := by
  obtain ⟨k, rfl⟩ : ∃ k, n = k + 1 := ⟨n - 1, (Nat.sub_add_cancel (lexemeAt_pos lexed)).symm⟩
  rw [escapesBreak] at escapes
  split at escapes
  · next u text =>
    have text : l = .token (.text u) := text
    subst text
    have quote := (of_lexemeAt_text lexed).1
    have blank : (⟨(c :: rest).take (k + 1), .token (.text u)⟩ : Stretch).veiled =
        ' ' :: List.replicate (rest.take k).length ' ' := rfl
    rw [blanked_of_none (by rw [hiddenLength_of_text lexed, escapes]; rfl), blank]
    intro same
    rw [(List.cons.inj same).1] at quote
    cases quote
  · cases escapes

theorem blanked_eq_veiled_iff {ls : List Stretch} (h : Stretched s ls) :
    blanked s = ls.flatMap veiled ↔ ∀ p ∈ ls, p.escapesBreak = false := by
  induction h with
  | nil => simp [blanked, replaceAll, replaceFrom]
  | @cons c rest n l more lexed later ih =>
    rw [List.flatMap_cons, List.forall_mem_cons]
    cases escapes : (⟨(c :: rest).take n, l⟩ : Stretch).escapesBreak with
    | false => rw [blanked_stretch lexed escapes, List.append_cancel_left_eq, ih]; simp
    | true => simp [blanked_unhidden lexed escapes]

end Fronts

/-- Where the scanner reads a text, what is blanked is as long as the text and differs from it in the
comments and quoted texts that are read, if none of these escapes a line break, and only then. -/
theorem blanked_veils {source : String} {ts : List Token} (read : tokens source = .ok ts) :
    (stretches source).flatMap Stretch.chars = source.toList ∧
      ts = tokensOf 0 false (stretches source) ∧
      (blanked source.toList).length = source.toList.length ∧
      (blanked source.toList = (stretches source).flatMap veiled ↔
        ∀ p ∈ stretches source, p.escapesBreak = false) := by
  obtain ⟨stretched, same⟩ := stretched_of_tokens read
  exact ⟨stretched.chars, same, length_blanked _, blanked_eq_veiled_iff stretched⟩

/-- Quotes in a comment, comments in a quoted text and an escaped quote. -/
def mixedText : String := "let s = \"a\\\"//b\" // it's\nx = s /* \"y */ + 'z'"

theorem blanked_veils_mixed : ∃ ts, tokens mixedText = .ok ts ∧
    ts = tokensOf 0 false (stretches mixedText) ∧
      blanked mixedText.toList = (stretches mixedText).flatMap veiled := by
  have read : (tokens mixedText).isOk = true := by decide +kernel
  obtain ⟨ts, read⟩ := ok_of_isOk read
  obtain ⟨_, same, _, shown⟩ := blanked_veils read
  have plain : ((stretches mixedText).all fun p => !p.escapesBreak) = true := by decide +kernel
  exact ⟨ts, read, same, shown.mpr fun p member => by simpa using List.all_eq_true.mp plain p member⟩

/-- A quoted text that escapes a line break is not blanked. -/
theorem blanked_leaves_text : ∃ ts, tokens "\"\\\n\"" = .ok ts ∧
    blanked "\"\\\n\"".toList ≠ (stretches "\"\\\n\"").flatMap veiled := by
  have read : (tokens "\"\\\n\"").isOk = true := by decide +kernel
  obtain ⟨ts, read⟩ := ok_of_isOk read
  exact ⟨ts, read, by decide +kernel⟩

end EmitterLogic.Tick
