import EmitterLogic.Proofs.Predicate.Balanced
import EmitterLogic.Proofs.Script.Stable
import EmitterLogic.Proofs.Script.Unreadable

namespace EmitterLogic.Predicate

open Text Script

def blankChars : List Char := [' ', '\t', '\r', '\n']

def numberChars : List Char := asciiDigits ++ Reading.numberSigns

inductive Firm : TokenKind → List Char → Option Char → Prop where
  | word {w : String} {head : Option Char} (ident : isIdentChars w.toList = true)
    (stops : ∀ c ∈ head, isWordPart c = false) : Firm (.word w) w.toList head
  | mark {m : Mark} {head : Option Char} (stops : ∀ c ∈ head, c ∉ m.growths)
    (slash : m = .slash → ∀ c ∈ head, c ≠ '/' ∧ c ≠ '*')
    (dot : m = .dot → ∀ c ∈ head, isDigitMark c = false) : Firm (.mark m) m.text.toList head
  | number {x : Float} {cs : List Char} {head : Option Char} (chars : ∀ c ∈ cs, c ∈ numberChars)
    (value : Reading.float? cs = some x) (stops : ∀ c ∈ head, isWordStart c = false)
    (starts : ∀ rest, rest.head? = head → startsNumber (cs ++ rest) = true)
    (length : ∀ rest, rest.head? = head → numberLength (cs ++ rest) = cs.length) :
    Firm (.number x) cs head

section Firmness

variable {kind : TokenKind} {cs rest s : List Char} {head : Option Char} {m : Mark} {n : Nat}

theorem Mark.text_ne_nil (m : Mark) : m.text.toList ≠ [] := by cases m <;> decide

theorem Firm.lexes (h : Firm kind cs rest.head?) :
    lexemeAt (cs ++ rest) = .ok (cs.length, .token kind) := by
  cases h with
  | word ident stops => exact lexemeAt_ident ident stops
  | mark stops slash dot => exact lexemeAt_mark stops slash dot
  | number chars value stops starts length =>
    rw [lexemeAt_of_startsNumber (starts rest rfl), numberLexeme, length rest rfl]
    have ends : ¬rest.head?.any isWordStart = true := by
      rw [Option.any_eq_true]
      rintro ⟨c, hc, start⟩
      rw [stops c hc] at start
      cases start
    simp only [List.drop_left, if_neg ends, List.take_left, value]

theorem firm_number {x : Float} (allowed : ∀ c ∈ s, isAllowedChar c = true)
    (starts : startsNumber s = true)
    (stops : (s.drop (numberLength s)).head?.any isWordStart = false)
    (read : lexemeAt s = .ok (numberLength s, .token (.number x))) :
    Firm (.number x) (s.take (numberLength s)) (s.drop (numberLength s)).head? := by
  have le : numberLength s ≤ s.length := (numberLength_enclosed s []).2
  have length : numberLength (s.take (numberLength s) ++ s.drop (numberLength s)) =
      (s.take (numberLength s)).length := by
    rw [List.take_append_drop, List.length_take, Nat.min_eq_left le]
  have value : Reading.float? (s.take (numberLength s)) = some x := by
    rw [lexemeAt_of_startsNumber starts, numberLexeme] at read
    dsimp only at read
    rw [if_neg (by rw [stops]; exact Bool.false_ne_true)] at read
    split at read
    · next value =>
      cases read
      exact value
    · cases read
  refine .number ?_ value ?_ (fun rest same => ?_) fun rest same => ?_
  · obtain ⟨whole, fraction, exponent, span, spells⟩ := numberLength_spells starts
    intro c member
    refine (spells.chars c (span ▸ member)).elim (fun mark => ?_) fun sign => ?_
    · have all : (allowedChars.all fun c => !isDigitMark c || numberChars.contains c) = true := by
        decide +kernel
      have digit := of_isAllowedChar all (allowed c (List.mem_of_mem_take member))
      rw [mark, Bool.not_true, Bool.false_or] at digit
      exact List.contains_iff_mem.mp digit
    · exact List.mem_append_right _ sign
  · intro c head
    rw [Option.mem_def.mp head] at stops
    exact stops
  · have some : s.take (numberLength s) ≠ [] := by
      rw [ne_eq, List.take_eq_nil_iff, not_or]
      refine ⟨(numberLength_pos starts).ne', ?_⟩
      rintro rfl
      cases starts
    rw [startsNumber_stable some same, List.take_append_drop, starts]
  · exact numberLength_stable length same stops

theorem isIdentChars_word {c : Char} (allowed : ∀ d ∈ c :: rest, isAllowedChar d = true)
    (start : isWordStart c = true) : isIdentChars (c :: rest.takeWhile isWordPart) = true := by
  have first : (allowedChars.all fun c => !isWordStart c || isIdentStart c) = true := by
    decide +kernel
  have later : (allowedChars.all fun c => !isWordPart c || isIdentPart c) = true := by
    decide +kernel
  rw [isIdentChars, Bool.and_eq_true, List.all_eq_true]
  constructor
  · simpa [start] using of_isAllowedChar first (allowed c List.mem_cons_self)
  · intro d member
    have part : isWordPart d = true := List.mem_takeWhile_imp member
    have permitted := allowed d (List.mem_cons_of_mem c ((List.takeWhile_subset _) member))
    simpa [part] using of_isAllowedChar later permitted

theorem dot_alone (read : lexemeAt ('.' :: rest) = .ok (n, .token (.mark m))) :
    ∀ c ∈ rest.head?, isDigitMark c = false := by
  intro c head
  obtain ⟨more, rfl⟩ : ∃ more, rest = c :: more := by
    cases rest with
    | nil => cases head
    | cons d more => exact ⟨more, by rw [Option.some.inj head]⟩
  refine Bool.eq_false_iff.mpr fun digit => ?_
  have starts : startsNumber ('.' :: c :: more) = true := digit
  rw [lexemeAt_of_startsNumber starts, numberLexeme] at read
  dsimp only at read
  split at read
  · cases read
  · split at read <;> cases read

theorem firm_of_lexemeAt (allowed : ∀ c ∈ s, isAllowedChar c = true)
    (read : lexemeAt s = .ok (n, .token kind)) : Firm kind (s.take n) (s.drop n).head? := by
  obtain ⟨c, rest, rfl⟩ : ∃ c rest, s = c :: rest := by
    cases s with
    | nil => cases read
    | cons c rest => exact ⟨c, rest, rfl⟩
  cases lexemeAt_lexed read with
  | number x starts stops => exact firm_number allowed starts stops read
  | text t quote =>
    rw [isQuote_of_allowed (allowed c List.mem_cons_self)] at quote
    cases quote
  | word start =>
    have whole : (c :: rest).takeWhile isWordPart = c :: rest.takeWhile isWordPart :=
      List.takeWhile_cons_of_pos (isWordPart_of_start start)
    have taken : (c :: rest).take (c :: rest.takeWhile isWordPart).length =
        (String.ofList (c :: rest.takeWhile isWordPart)).toList := by
      rw [take_word, String.toList_ofList]
    rw [taken]
    refine .word ?_ ?_
    · rw [String.toList_ofList]
      exact isIdentChars_word allowed start
    · rw [← whole]
      exact drop_takeWhile_head
  | @mark m _ found =>
    have front := List.find?_some found
    obtain ⟨left, same⟩ := List.isPrefixOf_iff_prefix.mp front
    rw [← same] at found read ⊢
    rw [← String.length_toList, List.take_left, List.drop_left]
    refine .mark (Mark.at?_text.mp found) ?_ ?_
    · rintro rfl
      exact Tick.slash_alone read
    · rintro rfl
      exact dot_alone read

end Firmness

structure Part where
  gap : List Char
  kind : TokenKind
  chars : List Char

def joined (rest : List Char) : List Part → List Char
  | [] => rest
  | p :: ps => p.gap ++ (p.chars ++ joined rest ps)

def AllBlank (cs : List Char) : Prop := ∀ c ∈ cs, c ∈ blankChars

theorem allBlank_nil : AllBlank [] := List.forall_mem_nil _

inductive Written (rest : List Char) : List Part → Prop where
  | nil : Written rest []
  | cons {p : Part} {ps : List Part} (gap : AllBlank p.gap)
    (firm : Firm p.kind p.chars (joined rest ps).head?) (more : Written rest ps) :
    Written rest (p :: ps)

def laid (rest : List Char) : Nat → Bool → List Part → List Token
  | place, broken, [] => [⟨.finish, place + rest.length, broken || rest.contains '\n'⟩]
  | place, broken, p :: ps =>
    ⟨p.kind, place + p.gap.length, broken || p.gap.contains '\n'⟩ ::
      laid rest (place + p.gap.length + p.chars.length) false ps

/-- The characters `//` and the characters before a comment of several lines stand nowhere. -/
def NoComment (s : List Char) : Prop := ¬['/', '/'] <:+: s ∧ ¬['/', '*'] <:+: s

section Parts

variable {ps qs : List Part} {p : Part} {rest s : List Char} {c : Char} {place : Nat} {broken : Bool}
  {ts : List Token}

theorem joined_append : joined rest (ps ++ qs) = joined (joined rest qs) ps := by
  induction ps with
  | nil => rfl
  | cons p ps ih => rw [List.cons_append, joined, ih, joined]

theorem Written.append (h : Written (joined rest qs) ps) (h' : Written rest qs) :
    Written rest (ps ++ qs) := by
  induction h with
  | nil => exact h'
  | @cons p ps gap firm more ih =>
    rw [← joined_append] at firm
    exact .cons gap firm ih

theorem tokensFrom_blanks {cs : List Char} (blank : AllBlank cs) :
    tokensFrom place 0 broken (cs ++ rest) =
      tokensFrom (place + cs.length) 0 (broken || cs.contains '\n') rest := by
  induction cs generalizing place broken with
  | nil => simp
  | cons c cs ih =>
    rw [AllBlank, List.forall_mem_cons] at blank
    have gap : lexemeAt (c :: (cs ++ rest)) = .ok (1, .gap (c == '\n')) := by
      have all : ∀ d ∈ blankChars, (d == '\n' || isBlank d) = true :=
        forall_mem_of_all (by decide)
      have visible := all c blank.1
      rw [lexemeAt]
      cases newline : c == '\n' with
      | true => rw [if_pos rfl]
      | false =>
        rw [newline, Bool.false_or] at visible
        rw [if_neg Bool.false_ne_true, if_pos visible]
    rw [List.cons_append, tokensFrom, gap]
    dsimp only
    rw [ih blank.2, List.length_cons, List.contains_cons, Bool.or_assoc, Bool.beq_comm, Nat.add_assoc,
      Nat.add_comm 1]

theorem Firm.chars_ne_nil {kind : TokenKind} {cs : List Char} {head : Option Char}
    (h : Firm kind cs head) : cs ≠ [] := by
  cases h with
  | word ident =>
    rintro same
    rw [same] at ident
    cases ident
  | mark => exact Mark.text_ne_nil _
  | number _ _ _ starts length =>
    rintro rfl
    have same : head.toList.head? = head := by cases head <;> rfl
    have pos := numberLength_pos (starts _ same)
    rw [List.nil_append, ← List.nil_append head.toList, length _ same] at pos
    exact absurd pos (Nat.lt_irrefl 0)

theorem Firm.all_chars {f : Char → Bool} (idents : (identStarts ++ asciiDigits).all f = true)
    (marks : (Mark.all.all fun m => m.text.toList.all f) = true) (numbers : numberChars.all f = true)
    {kind : TokenKind} {cs : List Char} {head : Option Char} (h : Firm kind cs head) :
    ∀ c ∈ cs, f c = true := by
  cases h with
  | word ident =>
    rw [List.all_append, Bool.and_eq_true] at idents
    intro c member
    have part := identParts ident c member
    rw [isIdentPart, Bool.or_eq_true] at part
    exact part.elim (of_isIdentStart idents.1) (of_isDigit idents.2)
  | @mark m => exact List.all_eq_true.mp (List.all_eq_true.mp marks m m.mem_all)
  | number chars => exact fun c member => List.all_eq_true.mp numbers c (chars c member)

theorem Firm.visible {kind : TokenKind} {cs : List Char} {head : Option Char}
    (h : Firm kind cs head) : ∀ c ∈ cs, c ∉ blankChars := by
  intro c member blank
  have shown := h.all_chars (f := fun c => !blankChars.contains c) (by decide) (by decide) (by decide)
    c member
  rw [List.contains_iff_mem.mpr blank] at shown
  cases shown

theorem tokensFrom_firm {kind : TokenKind} {cs : List Char} (h : Firm kind cs rest.head?) :
    tokensFrom place 0 broken (cs ++ rest) =
      (tokensFrom (place + cs.length) 0 false rest).map (⟨kind, place, broken⟩ :: ·) := by
  have read := h.lexes
  obtain ⟨c, cs, rfl⟩ := List.exists_cons_of_ne_nil h.chars_ne_nil
  rw [List.cons_append] at read ⊢
  rw [tokensFrom, read]
  simp only [List.length_cons, Nat.add_sub_cancel, tokensFrom_skip]
  rw [Nat.add_assoc, Nat.add_comm 1]

theorem Written.reads (h : Written rest ps) (blank : AllBlank rest) :
    tokensFrom place 0 broken (joined rest ps) = .ok (laid rest place broken ps) := by
  induction h generalizing place broken with
  | nil =>
    rw [joined, ← List.append_nil rest, tokensFrom_blanks blank, List.append_nil]
    rfl
  | cons gap firm more ih => rw [joined, tokensFrom_blanks gap, tokensFrom_firm firm, ih]; rfl

theorem takeWhile_gap {kind : TokenKind} {g cs : List Char} (blank : AllBlank g)
    (firm : Firm kind cs rest.head?) :
    (g ++ (cs ++ rest)).takeWhile (fun c => blankChars.contains c) = g := by
  refine takeWhile_append_stop (fun c member => List.contains_iff_mem.mpr (blank c member)) ?_
  intro c head
  rw [List.head?_append_of_ne_nil _ firm.chars_ne_nil] at head
  rw [← Bool.not_eq_true, List.contains_iff_mem]
  exact firm.visible c (List.mem_of_head? head)

theorem Written.uncons {kind : TokenKind} {g cs : List Char} (h : Written rest ps)
    (blank : AllBlank rest) (gap : AllBlank g) (firm : Firm kind cs s.head?)
    (same : joined rest ps = g ++ (cs ++ s)) :
    ∃ qs, ps = ⟨g, kind, cs⟩ :: qs ∧ Written rest qs ∧ joined rest qs = s := by
  cases h with
  | nil =>
    obtain ⟨c, cs, rfl⟩ := List.exists_cons_of_ne_nil firm.chars_ne_nil
    have member : c ∈ rest := by
      have whole : rest = g ++ (c :: cs ++ s) := same
      rw [whole]
      simp
    exact absurd (blank c member) (firm.visible c List.mem_cons_self)
  | @cons p qs gap' firm' more =>
    have gaps : p.gap = g := by
      rw [← takeWhile_gap gap' firm', ← takeWhile_gap gap firm]
      exact congrArg _ same
    rw [joined, gaps, List.append_cancel_left_eq] at same
    have read := firm'.lexes.symm.trans (same ▸ firm.lexes)
    injection read with read
    obtain ⟨length, lexeme⟩ := Prod.mk.inj read
    obtain ⟨chars, left⟩ := List.append_inj same length
    injection lexeme with kinds
    refine ⟨qs, ?_, more, left⟩
    rw [← gaps, ← kinds, ← chars]

theorem NoComment.lexed {n : Nat} {l : Lexeme} (h : NoComment (c :: rest))
    (read : lexemeAt (c :: rest) = .ok (n, l)) :
    (n = 1 ∧ (c == '\n' || isBlank c) = true) ∨ ∃ kind, l = .token kind := by
  cases lexemeAt_lexed read with
  | newline => exact .inl ⟨rfl, rfl⟩
  | blank blank => exact .inl ⟨rfl, by rw [blank, Bool.or_true]⟩
  | @line rest first =>
    obtain ⟨more, rfl⟩ : ∃ more, rest = '/' :: more := by
      cases rest with
      | nil => cases first
      | cons d more => exact ⟨more, by rw [Option.some.inj first]⟩
    exact absurd ⟨[], more, rfl⟩ h.1
  | comment broken closed => exact absurd ⟨[], _, rfl⟩ h.2
  | number x => exact .inr ⟨_, rfl⟩
  | text t => exact .inr ⟨_, rfl⟩
  | word => exact .inr ⟨_, rfl⟩
  | mark => exact .inr ⟨_, rfl⟩

theorem NoComment.drop (h : NoComment s) (n : Nat) : NoComment (s.drop n) :=
  ⟨fun inner => h.1 (inner.trans (List.drop_suffix n s).isInfix),
    fun inner => h.2 (inner.trans (List.drop_suffix n s).isInfix)⟩

theorem Written.blank (h : Written rest ps) (blank : AllBlank rest) (first : c ∈ blankChars) :
    ∃ rest' ps', AllBlank rest' ∧ Written rest' ps' ∧ joined rest' ps' = c :: joined rest ps := by
  cases h with
  | nil => exact ⟨c :: rest, [], List.forall_mem_cons.mpr ⟨first, blank⟩, .nil, rfl⟩
  | @cons p ps gap firm more =>
    exact ⟨rest, ⟨c :: p.gap, p.kind, p.chars⟩ :: ps, blank,
      .cons (List.forall_mem_cons.mpr ⟨first, gap⟩) firm more, rfl⟩

theorem exists_written {n : Nat} (length : s.length ≤ n) (allowed : ∀ c ∈ s, isAllowedChar c = true)
    (bare : NoComment s) (read : tokensFrom place 0 broken s = .ok ts) :
    ∃ rest ps, AllBlank rest ∧ Written rest ps ∧ joined rest ps = s := by
  -- Each lexeme takes a character at least, so that what is left is shorter.
  induction n generalizing s place broken ts with
  | zero => exact ⟨[], [], allBlank_nil, .nil, (List.eq_nil_of_length_eq_zero (Nat.le_zero.mp length)).symm⟩
  | succ n ih =>
    cases s with
    | nil => exact ⟨[], [], allBlank_nil, .nil, rfl⟩
    | cons c rest =>
      have permitted (k : Nat) : ∀ d ∈ (c :: rest).drop k, isAllowedChar d = true :=
        fun d member => allowed d (List.mem_of_mem_drop member)
      rw [tokensFrom] at read
      split at read
      · next k hasBreak lexed =>
        obtain ⟨rfl, blank⟩ | ⟨kind, same⟩ := bare.lexed lexed
        · obtain ⟨rest', ps, blanks, written, whole⟩ :=
            ih (Nat.le_of_succ_le_succ length) (permitted 1) (bare.drop 1) read
          have all : (allowedChars.all fun d =>
              !(d == '\n' || isBlank d) || blankChars.contains d) = true := by decide
          have first := of_isAllowedChar all (allowed c List.mem_cons_self)
          rw [blank, Bool.not_true, Bool.false_or] at first
          have whole : joined rest' ps = rest := whole
          rw [← whole]
          exact written.blank blanks (List.contains_iff_mem.mp first)
        · cases same
      · next k kind lexed =>
        have firm := firm_of_lexemeAt allowed lexed
        obtain ⟨k, rfl⟩ : ∃ j, k = j + 1 := by
          refine Nat.exists_eq_succ_of_ne_zero ?_
          rintro rfl
          exact firm.chars_ne_nil List.take_zero
        cases more : tokensFrom (place + 1) k false rest with
        | error e =>
          rw [Nat.add_sub_cancel, more] at read
          cases read
        | ok us =>
          have taken : (rest.take k).length = k := by
            have same := firm.lexes
            rw [List.take_append_drop, lexed] at same
            injection same with same
            exact (Nat.succ.inj (Prod.mk.inj same).1).symm
          have split : rest.take k ++ rest.drop k = rest := List.take_append_drop k rest
          have shorter : (rest.drop k).length ≤ n := by
            rw [List.length_cons] at length
            rw [List.length_drop]
            omega
          have skipped := tokensFrom_skip (rest.take k) (rest.drop k) (place + 1) false
          rw [split, taken, more] at skipped
          obtain ⟨rest', ps, blanks, written, whole⟩ :=
            ih (s := rest.drop k) shorter (permitted (k + 1)) (bare.drop (k + 1)) skipped.symm
          have whole : joined rest' ps = rest.drop k := whole
          refine ⟨rest', ⟨[], kind, c :: rest.take k⟩ :: ps, blanks, .cons allBlank_nil ?_ written, ?_⟩
          · rw [whole]
            exact firm
          · rw [joined, whole, List.nil_append, List.cons_append, split]
      · cases read
      · cases read

end Parts

end EmitterLogic.Predicate
