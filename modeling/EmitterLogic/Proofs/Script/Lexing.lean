import EmitterLogic.Proofs.Term.Name
import EmitterLogic.Script.Parser
import EmitterLogic.Condition.Rule

namespace EmitterLogic.Script

open Text (identStarts of_isIdentStart)

/-- The operators that generated code has between two operands. -/
inductive Connective where
  | arith (o : ArithOp)
  | compare (c : Comparison)
  | link (l : Link)
deriving DecidableEq, Repr

namespace Connective

def mark : Connective → Mark
  | arith .add => .plus
  | arith .sub => .minus
  | arith .mul => .star
  | arith .div => .slash
  | arith .rem => .percent
  | compare .eq => .looseEq
  | compare .ne => .looseNe
  | compare .gt => .gt
  | compare .ge => .ge
  | compare .lt => .lt
  | compare .le => .le
  | link .and => .and
  | link .or => .or

def make : Connective → Expr → Expr → Expr
  | arith o => .binary (.arith o)
  | compare .eq => .binary .looseEq
  | compare .ne => .binary .looseNe
  | compare .gt => .binary (.compare .gt)
  | compare .ge => .binary (.compare .ge)
  | compare .lt => .binary (.compare .lt)
  | compare .le => .binary (.compare .le)
  | link .and => .logical .and
  | link .or => .logical .or

theorem text_arith (o : ArithOp) : (arith o).mark.text = o.sign := by cases o <;> rfl

theorem text_compare (c : Comparison) : (compare c).mark.text = c.sign := by cases c <;> rfl

end Connective

/-- What stands in a place of generated code: what may be an operand, one with its sign, or an
operation. -/
inductive Rank where
  | operand | signed | whole

inductive Code : Rank → Type where
  | numeral (s : Numeral) : Code .operand
  | name (w : String) : Code .operand
  | group (c : Code .whole) : Code .operand
  | toDouble (c : Code .whole) : Code .operand
  | abs (c : Code .whole) : Code .operand
  | plain (c : Code .operand) : Code .signed
  | negated (c : Code .operand) : Code .signed
  | single (c : Code .signed) : Code .whole
  | joined (a : Code .signed) (o : Connective) (b : Code .signed) : Code .whole

namespace Code

variable {r : Rank}

def doubleTail : List Char := ").toDouble()".toList

def absHead : List Char := "kotlin.math.abs(".toList

def chars {r : Rank} : Code r → List Char
  | numeral s => s.chars
  | name w => w.toList
  | group c => '(' :: (c.chars ++ [')'])
  | toDouble c => '(' :: (c.chars ++ doubleTail)
  | abs c => absHead ++ (c.chars ++ [')'])
  | plain c => c.chars
  | negated c => '-' :: c.chars
  | single c => c.chars
  | joined a o b => a.chars ++ (' ' :: (o.mark.text.toList ++ ' ' :: b.chars))

def text (c : Code r) : String := String.ofList c.chars

/-- The place after a text that begins at a place. -/
def after (c : Code r) (place : Nat) : Nat := place + c.chars.length

def markAt (m : Mark) (place : Nat) : Token := ⟨.mark m, place, false⟩

def wordAt (w : String) (place : Nat) : Token := ⟨.word w, place, false⟩

def tokens {r : Rank} : Code r → Nat → List Token
  | numeral s, place => [⟨.number s.value, place, false⟩]
  | name w, place => [wordAt w place]
  | group c, place =>
    markAt .leftParen place :: (c.tokens (place + 1) ++ [markAt .rightParen (c.after (place + 1))])
  | toDouble c, place =>
    let close := c.after (place + 1)
    markAt .leftParen place :: (c.tokens (place + 1) ++ [markAt .rightParen close,
      markAt .dot (close + 1), wordAt "toDouble" (close + 2), markAt .leftParen (close + 10),
      markAt .rightParen (close + 11)])
  | abs c, place =>
    [wordAt "kotlin" place, markAt .dot (place + 6), wordAt "math" (place + 7),
      markAt .dot (place + 11), wordAt "abs" (place + 12), markAt .leftParen (place + 15)] ++
      (c.tokens (place + 16) ++ [markAt .rightParen (c.after (place + 16))])
  | plain c, place => c.tokens place
  | negated c, place => markAt .minus place :: c.tokens (place + 1)
  | single c, place => c.tokens place
  | joined a o b, place =>
    let sign := a.after place + 1
    a.tokens place ++ (markAt o.mark sign :: b.tokens (sign + o.mark.text.length + 1))

/-- What is read from a text that begins at a place. -/
def expr {r : Rank} : Code r → Nat → Expr
  | numeral s, _ => .number s.value
  | name w, place => .name w place
  | group c, place => c.expr (place + 1)
  | toDouble c, place => .call (.member (c.expr (place + 1)) "toDouble") []
  | abs c, place =>
    .call (.member (.member (.name "kotlin" place) "math") "abs") [c.expr (place + 16)]
  | plain c, place => c.expr place
  | negated c, place => .unary .negate (c.expr (place + 1))
  | single c, place => c.expr place
  | joined a o b, place =>
    o.make (a.expr place) (b.expr (a.after place + 1 + o.mark.text.length + 1))

def WellNamed {r : Rank} : Code r → Prop
  | numeral _ => True
  | name w => Text.isIdentChars w.toList = true ∧ isReserved w = false
  | group c => c.WellNamed
  | toDouble c => c.WellNamed
  | abs c => c.WellNamed
  | plain c => c.WellNamed
  | negated c => c.WellNamed
  | single c => c.WellNamed
  | joined a _ b => a.WellNamed ∧ b.WellNamed

section Texts

theorem toList_text (c : Code r) : c.text.toList = c.chars := String.toList_ofList

theorem text_group (c : Code .whole) : (group c).text = "(" ++ c.text ++ ")" := by
  refine String.toList_inj.mp ?_
  rw [toList_text, String.toList_append, String.toList_append, toList_text, List.append_assoc]
  rfl

theorem text_toDouble (c : Code .whole) : (toDouble c).text = "(" ++ c.text ++ ").toDouble()" := by
  refine String.toList_inj.mp ?_
  rw [toList_text, String.toList_append, String.toList_append, toList_text, List.append_assoc]
  rfl

theorem text_abs (c : Code .whole) : (abs c).text = "kotlin.math.abs(" ++ c.text ++ ")" := by
  refine String.toList_inj.mp ?_
  rw [toList_text, String.toList_append, String.toList_append, toList_text, List.append_assoc]
  rfl

theorem text_negated (c : Code .operand) : (negated c).text = "-" ++ c.text := by
  refine String.toList_inj.mp ?_
  rw [toList_text, String.toList_append, toList_text]
  rfl

theorem text_name (w : String) : (name w).text = w := String.ofList_toList

theorem text_plain (c : Code .operand) : (plain c).text = c.text := rfl

theorem text_single (c : Code .signed) : (single c).text = c.text := rfl

theorem text_joined (a : Code .signed) (o : Connective) (b : Code .signed) :
    (joined a o b).text = a.text ++ " " ++ o.mark.text ++ " " ++ b.text := by
  refine String.toList_inj.mp ?_
  simp only [toList_text, String.toList_append, List.append_assoc]
  rfl

end Texts

end Code

section Lexing

def Lexes (cs : List Char) (ts : Nat → List Token) (stops : List Char → Prop) : Prop :=
  ∀ place rest, stops rest →
    tokensFrom place 0 false (cs ++ rest) =
      (tokensFrom (place + cs.length) 0 false rest).map (ts place ++ ·)

variable {cs ds : List Char} {ts us : Nat → List Token} {stops ends : List Char → Prop}

theorem Lexes.append (first : Lexes cs ts stops) (second : Lexes ds us ends)
    (fits : ∀ rest, ends rest → stops (ds ++ rest)) :
    Lexes (cs ++ ds) (fun place => ts place ++ us (place + cs.length)) ends := by
  intro place rest h
  rw [List.append_assoc, first place _ (fits rest h), second _ rest h, List.length_append,
    Nat.add_assoc]
  cases tokensFrom (place + (cs.length + ds.length)) 0 false rest with
  | error e => rfl
  | ok tokens => exact congrArg Except.ok (List.append_assoc _ _ _).symm

theorem Lexes.weaken (h : Lexes cs ts stops) (fewer : ∀ rest, ends rest → stops rest) :
    Lexes cs ts ends := fun place rest end' => h place rest (fewer rest end')

theorem tokensFrom_skip (cs rest : List Char) (place : Nat) (broken : Bool) :
    tokensFrom place cs.length broken (cs ++ rest) =
      tokensFrom (place + cs.length) 0 broken rest := by
  induction cs generalizing place with
  | nil => rfl
  | cons c cs ih =>
    rw [List.length_cons, List.cons_append, tokensFrom, ih, Nat.add_assoc, Nat.add_comm 1]

theorem lexes_token {kind : TokenKind} (some : cs ≠ [])
    (h : ∀ rest, stops rest → lexemeAt (cs ++ rest) = .ok (cs.length, .token kind)) :
    Lexes cs (fun place => [⟨kind, place, false⟩]) stops := by
  intro place rest end'
  have first := h rest end'
  cases cs with
  | nil => exact absurd rfl some
  | cons c cs =>
    rw [List.cons_append] at first ⊢
    rw [tokensFrom, first]
    simp only [List.length_cons, Nat.add_sub_cancel, tokensFrom_skip]
    rw [Nat.add_assoc, Nat.add_comm 1]
    rfl

theorem lexes_space : Lexes [' '] (fun _ => []) fun _ => True := by
  intro place rest _
  have gap : lexemeAt (' ' :: rest) = .ok (1, .gap false) := rfl
  have passed : tokensFrom place 0 false (' ' :: rest) = tokensFrom (place + 1) 0 false rest := by
    rw [tokensFrom, gap]
    rfl
  rw [List.cons_append, List.nil_append, passed, List.length_singleton]
  cases tokensFrom (place + 1) 0 false rest <;> rfl

def Closes (rest : List Char) : Prop := ∀ c ∈ rest.head?, c = ' ' ∨ c = ')'

def EndsWord (rest : List Char) : Prop := ∀ c ∈ rest.head?, isWordPart c = false

theorem Closes.endsWord {rest : List Char} (h : Closes rest) : EndsWord rest := by
  intro c hc
  rcases h c hc with rfl | rfl <;> decide

theorem takeWhile_append_stop {p : Char → Bool} {cs rest : List Char} (all : ∀ c ∈ cs, p c = true)
    (stop : ∀ c ∈ rest.head?, p c = false) : (cs ++ rest).takeWhile p = cs := by
  rw [List.takeWhile_append_of_pos all]
  cases rest with
  | nil => simp
  | cons c rest => simp [stop c rfl]

section Words

theorem isWordPart_of_ident {c : Char} (h : Text.isIdentPart c = true) : isWordPart c = true := by
  rw [Text.isIdentPart, Bool.or_eq_true] at h
  rcases h with h | h
  · exact of_isIdentStart (f := isWordPart) (by decide) h
  · have digit : c.isDigit = true := h
    exact of_isDigit (f := isWordPart) (by decide) digit

def visible (c : Char) : Bool := c != '\n' && !Text.isBlank c && c != '/'

theorem lexemeAt_visible {c : Char} (h : visible c = true) (rest : List Char) :
    lexemeAt (c :: rest) =
      if startsNumber (c :: rest) then numberLexeme (c :: rest)
      else if isQuote c then
        match quotedBody c rest with
        | some (n, cs) => .ok (n + 1, .token (.text (String.ofList cs)))
        | none => wrong .invalidToken 0
      else if isWordStart c then
        .ok ((c :: rest.takeWhile isWordPart).length,
          .token (.word (String.ofList (c :: rest.takeWhile isWordPart))))
      else
        match Mark.at? (c :: rest) with
        | some m => .ok (m.text.length, .token (.mark m))
        | none => wrong (.invalidCharacter c) 0 := by
  simp only [visible, Bool.and_eq_true, Bool.not_eq_true', bne_iff_ne, ne_eq] at h
  obtain ⟨⟨newline, blank⟩, slash⟩ := h
  have newline : ¬(c == '\n') = true := by simpa using newline
  have line : ¬"//".toList.isPrefixOf (c :: rest) = true := by
    simp [Ne.symm slash]
  have comment : ¬"/*".toList.isPrefixOf (c :: rest) = true := by
    simp [Ne.symm slash]
  rw [lexemeAt, if_neg newline, if_neg (Bool.eq_false_iff.mp blank), if_neg line]
  exact if_neg comment

theorem startsNumber_of_ne {c : Char} (h : c ≠ '.') (rest : List Char) :
    startsNumber (c :: rest) = Text.isDigitMark c := by
  unfold startsNumber
  split
  · next e => exact absurd (List.cons.inj e).1 h
  · next e => rw [(List.cons.inj e).1]
  · next e => cases e

def beginsWord (c : Char) : Bool :=
  visible c && c != '.' && !Text.isDigitMark c && !isQuote c && isWordStart c

theorem lexemeAt_word {c : Char} (h : beginsWord c = true) (rest : List Char) :
    lexemeAt (c :: rest) = .ok ((c :: rest.takeWhile isWordPart).length,
      .token (.word (String.ofList (c :: rest.takeWhile isWordPart)))) := by
  simp only [beginsWord, Bool.and_eq_true, Bool.not_eq_true', bne_iff_ne, ne_eq] at h
  obtain ⟨⟨⟨⟨seen, point⟩, digit⟩, quote⟩, start⟩ := h
  rw [lexemeAt_visible seen, startsNumber_of_ne point, if_neg (Bool.eq_false_iff.mp digit),
    if_neg (Bool.eq_false_iff.mp quote), if_pos start]

theorem lexemeAt_ident {w : String} (h : Text.isIdentChars w.toList = true) {rest : List Char}
    (stop : EndsWord rest) :
    lexemeAt (w.toList ++ rest) = .ok (w.toList.length, .token (.word w)) := by
  cases e : w.toList with
  | nil =>
    rw [e] at h
    cases h
  | cons c cs =>
    rw [e, Text.isIdentChars, Bool.and_eq_true, List.all_eq_true] at h
    have begins := of_isIdentStart (f := beginsWord) (by decide) h.1
    have word : (cs ++ rest).takeWhile isWordPart = cs :=
      takeWhile_append_stop (fun c hc => isWordPart_of_ident (h.2 c hc)) stop
    rw [List.cons_append, lexemeAt_word begins, word, ← e, String.ofList_toList]

theorem lexes_word {w : String} (h : Text.isIdentChars w.toList = true) :
    Lexes w.toList (fun place => [⟨.word w, place, false⟩]) EndsWord := by
  refine lexes_token ?_ fun rest stop => lexemeAt_ident h stop
  intro none
  rw [none] at h
  cases h

end Words

section Numerals

theorem isDigitMark_of_digit {c : Char} (h : c.isDigit = true) : Text.isDigitMark c = true :=
  of_isDigit (f := Text.isDigitMark) (by decide) h

theorem count_digits {ds rest : List Char} (digits : AllDigits ds)
    (stop : ∀ c ∈ rest.head?, Text.isDigitMark c = false) :
    ((ds ++ rest).takeWhile Text.isDigitMark).length = ds.length :=
  congrArg List.length (takeWhile_append_stop (fun c h => isDigitMark_of_digit (digits c h)) stop)

def EndsNumber (rest : List Char) : Prop :=
  ∀ c ∈ rest.head?, Text.isDigitMark c = false ∧ c ≠ '.' ∧ isWordStart c = false

theorem Closes.endsNumber {rest : List Char} (h : Closes rest) : EndsNumber rest := by
  intro c hc
  rcases h c hc with rfl | rfl <;> decide

def exponentEnd (n : Nat) : List Char → Nat
  | e :: rest =>
    if e == 'e' || e == 'E' then
      let sign := if rest.head?.any (fun c => c == '+' || c == '-') then 1 else 0
      let d := ((rest.drop sign).takeWhile Text.isDigitMark).length
      if d == 0 then n else n + 1 + sign + d
    else n
  | [] => n

def fractionEnd (n : Nat) : List Char → Nat
  | '.' :: rest => n + 1 + (rest.takeWhile Text.isDigitMark).length
  | _ => n

theorem numberLength_eq (s : List Char) : numberLength s =
    exponentEnd (fractionEnd (s.takeWhile Text.isDigitMark).length
      (s.drop (s.takeWhile Text.isDigitMark).length))
      (s.drop (fractionEnd (s.takeWhile Text.isDigitMark).length
        (s.drop (s.takeWhile Text.isDigitMark).length))) := rfl

variable {rest : List Char}

theorem exponentEnd_chars (n : Nat) {e : Option (Bool × List Char)}
    (digits : ∀ negative ds, e = some (negative, ds) → ds ≠ [] ∧ AllDigits ds)
    (ends : EndsNumber rest) :
    exponentEnd n (Numeral.exponentChars e ++ rest) = n + (Numeral.exponentChars e).length := by
  cases e with
  | none =>
    cases rest with
    | nil => rfl
    | cons c rest =>
      have plain : ¬(c == 'e' || c == 'E') = true := by
        intro mark
        rw [Bool.or_eq_true, beq_iff_eq, beq_iff_eq] at mark
        rcases mark with rfl | rfl <;> exact absurd (ends _ rfl).2.2 (by decide)
      exact if_neg plain
  | some e =>
    obtain ⟨negative, ds⟩ := e
    obtain ⟨nonempty, all⟩ := digits negative ds rfl
    have count := count_digits all fun c hc => (ends c hc).1
    have some : ¬(ds.length == 0) = true := by simpa using nonempty
    have sign : (if (((if negative then '-' else '+') :: (ds ++ rest)).head?.any
        fun c => c == '+' || c == '-') = true then 1 else 0) = 1 := by
      cases negative <;> rfl
    simp only [Numeral.exponentChars, List.cons_append, exponentEnd, beq_self_eq_true,
      Bool.true_or, if_true, sign, List.drop_succ_cons, List.drop_zero, count, if_neg some,
      List.length_cons]
    omega

theorem fractionEnd_chars (n : Nat) {ds : List Char} (digits : AllDigits ds)
    (stop : ∀ c ∈ rest.head?, Text.isDigitMark c = false ∧ c ≠ '.') :
    fractionEnd n (Numeral.fractionChars ds ++ rest) = n + (Numeral.fractionChars ds).length := by
  cases ds with
  | nil =>
    rw [Numeral.fractionChars, List.nil_append, List.length_nil, Nat.add_zero]
    unfold fractionEnd
    split
    · exact absurd rfl (stop _ rfl).2
    · rfl
  | cons d ds =>
    have count := count_digits digits fun c hc => (stop c hc).1
    rw [Numeral.fractionChars, List.cons_append, fractionEnd, count]
    simp only [List.length_cons]
    omega

theorem numberLength_chars (s : Numeral) (ends : EndsNumber rest) :
    numberLength (s.chars ++ rest) = s.chars.length := by
  have afterFraction : ∀ c ∈ (Numeral.exponentChars s.exponent ++ rest).head?,
      Text.isDigitMark c = false ∧ c ≠ '.' := by
    intro c hc
    cases e : s.exponent with
    | none =>
      rw [e] at hc
      exact ⟨(ends c hc).1, (ends c hc).2.1⟩
    | some e' =>
      rw [e] at hc
      cases hc
      decide
  have afterWhole : ∀ c ∈ (Numeral.fractionChars s.fraction ++
      (Numeral.exponentChars s.exponent ++ rest)).head?, Text.isDigitMark c = false := by
    intro c hc
    cases f : s.fraction with
    | nil =>
      rw [f] at hc
      exact (afterFraction c hc).1
    | cons d ds =>
      rw [f] at hc
      cases hc
      decide
  have whole := count_digits s.whole_digits afterWhole
  have fraction := fractionEnd_chars s.whole.length s.fraction_digits afterFraction
  have exponent (n : Nat) := exponentEnd_chars n s.exponent_digits ends
  have chars : s.chars ++ rest = s.whole ++ (Numeral.fractionChars s.fraction ++
      (Numeral.exponentChars s.exponent ++ rest)) := by
    rw [Numeral.chars, List.append_assoc, List.append_assoc]
  rw [numberLength_eq, chars, whole, List.drop_left, fraction, ← List.drop_drop, List.drop_left,
    List.drop_left, exponent, Numeral.chars, List.length_append, List.length_append, Nat.add_assoc]

theorem beginsNumber {c : Char} (h : c.isDigit = true) :
    visible c = true ∧ c ≠ '.' ∧ Text.isDigitMark c = true := by
  have all : (asciiDigits.all fun c => visible c && c != '.') = true := by decide
  have other := of_isDigit all h
  rw [Bool.and_eq_true, bne_iff_ne] at other
  exact ⟨other.1, other.2, isDigitMark_of_digit h⟩

theorem numberLexeme_numeral (s : Numeral) (ends : EndsNumber rest) :
    numberLexeme (s.chars ++ rest) = .ok (s.chars.length, .token (.number s.value)) := by
  have length := numberLength_chars s ends
  have reads : Reading.float? s.chars = some s.value := s.float_reads false
  have stops : ¬rest.head?.any isWordStart = true := by
    rw [Option.any_eq_true]
    rintro ⟨c, hc, start⟩
    rw [(ends c hc).2.2] at start
    cases start
  rw [numberLexeme, length]
  simp only [List.drop_left, if_neg stops, List.take_left, reads]

theorem lexes_numeral (s : Numeral) :
    Lexes s.chars (fun place => [⟨.number s.value, place, false⟩]) Closes := by
  refine lexes_token s.chars_ne_nil fun rest closes => ?_
  have number := numberLexeme_numeral s closes.endsNumber
  cases e : s.chars with
  | nil => exact absurd e s.chars_ne_nil
  | cons c cs =>
    obtain ⟨seen, point, digit⟩ := beginsNumber (s.head_isDigit e)
    rw [e] at number
    rw [List.cons_append] at number ⊢
    rw [lexemeAt_visible seen, startsNumber_of_ne point, if_pos digit, number]

end Numerals

end Lexing

end EmitterLogic.Script
