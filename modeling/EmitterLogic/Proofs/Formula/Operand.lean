import EmitterLogic.Proofs.Formula.Leaves
import EmitterLogic.Proofs.Formula.Tree
import EmitterLogic.Proofs.Number.Written
import EmitterLogic.Proofs.Script.Code

namespace EmitterLogic.Formula

open Text
open Script (takeWhile_append_stop)

section Counts

theorem digitCount_digits {ds rest : List Char} (digits : AllDigits ds)
    (stop : ∀ c ∈ rest.head?, isDecimal c = false) : digitCount (ds ++ rest) = ds.length :=
  congrArg List.length (takeWhile_append_stop (fun c h => isDecimal_digit (digits c h)) stop)

theorem digitCount_all {ds : List Char} (digits : AllDigits ds) : digitCount ds = ds.length := by
  have ended : ∀ c ∈ ([] : List Char).head?, isDecimal c = false := nofun
  have counted := digitCount_digits digits ended
  rwa [List.append_nil] at counted

theorem fractionCount_chars {ds rest : List Char} (digits : AllDigits ds)
    (stop : ∀ c ∈ rest.head?, isDecimal c = false ∧ c ≠ '.') :
    fractionCount (Numeral.fractionChars ds ++ rest) = (Numeral.fractionChars ds).length := by
  cases ds with
  | nil =>
    rw [Numeral.fractionChars, List.nil_append, List.length_nil]
    unfold fractionCount
    split
    · exact absurd rfl (stop _ rfl).2
    · rfl
  | cons d ds =>
    have first : startsWithDecimal (d :: ds ++ rest) = true :=
      isDecimal_digit (digits d List.mem_cons_self)
    have counted := digitCount_digits digits fun c hc => (stop c hc).1
    rw [Numeral.fractionChars, List.cons_append, fractionCount, if_pos first, counted]
    simp only [List.length_cons]
    omega

theorem exponentCount_chars {e : Option (Bool × List Char)}
    (digits : ∀ negative ds, e = some (negative, ds) → ds ≠ [] ∧ AllDigits ds) :
    exponentCount (Numeral.exponentChars e) = (Numeral.exponentChars e).length := by
  cases e with
  | none => rfl
  | some e =>
    obtain ⟨negative, ds⟩ := e
    obtain ⟨nonempty, all⟩ := digits negative ds rfl
    have first : startsWithDecimal ds = true := by
      cases ds with
      | nil => exact absurd rfl nonempty
      | cons d ds => exact isDecimal_digit (all d List.mem_cons_self)
    have counted := digitCount_all all
    have sign : ((if negative then '-' else '+') == '+' || (if negative then '-' else '+') == '-') =
        true := by cases negative <;> rfl
    simp only [Numeral.exponentChars, exponentCount, beq_self_eq_true, Bool.true_or, if_true, sign,
      first, counted, List.length_cons]
    omega

theorem numeralCount_chars (s : Numeral) : numeralCount s.chars = s.chars.length := by
  have afterFraction : ∀ c ∈ (Numeral.exponentChars s.exponent).head?,
      isDecimal c = false ∧ c ≠ '.' := by
    intro c hc
    cases e : s.exponent with
    | none =>
      rw [e] at hc
      cases hc
    | some e' =>
      rw [e] at hc
      cases hc
      decide
  have afterWhole : ∀ c ∈ (Numeral.fractionChars s.fraction ++
      Numeral.exponentChars s.exponent).head?, isDecimal c = false := by
    intro c hc
    cases f : s.fraction with
    | nil =>
      rw [f] at hc
      exact (afterFraction c hc).1
    | cons d ds =>
      rw [f] at hc
      cases hc
      decide
  have whole := digitCount_digits s.whole_digits afterWhole
  have fraction := fractionCount_chars s.fraction_digits afterFraction
  have exponent := exponentCount_chars s.exponent_digits
  simp only [numeralCount, Numeral.chars]
  rw [whole, List.drop_left, fraction, ← List.drop_drop, List.drop_left, List.drop_left, exponent]
  simp only [List.length_append, Nat.add_assoc]

end Counts

section Tokens

variable {cs rest : List Char} {t : Token}

theorem tokenAt_numeral (s : Numeral) :
    tokenAt? s.chars = some (s.chars.length, .number s.value) := by
  have count := numeralCount_chars s
  have reads : Reading.float? s.chars = some s.value := s.float_reads false
  cases e : s.chars with
  | nil => exact absurd e s.chars_ne_nil
  | cons c cs =>
    have digit := s.head_isDigit e
    have word : isIdentStart c = false := by
      have all : (asciiDigits.all fun c => !isIdentStart c) = true := by decide
      simpa using of_isDigit all digit
    rw [e] at count reads
    rw [tokenAt?, word, isDecimal_digit digit, count]
    · simp only [Bool.false_eq_true, if_false, if_true, List.take_length, reads, Option.map_some]
    · rintro rfl
      exact absurd digit (by decide)
    · rintro rfl
      exact absurd digit (by decide)

theorem tokenAt_name {w : String} (h : isIdentChars w.toList = true) :
    tokenAt? w.toList = some (w.toList.length, .name w) := by
  cases e : w.toList with
  | nil =>
    rw [e] at h
    cases h
  | cons c cs =>
    rw [e, isIdentChars, Bool.and_eq_true, List.all_eq_true] at h
    have word : cs.takeWhile isIdentPart = cs := by
      have ended : ∀ c ∈ ([] : List Char).head?, isIdentPart c = false :=
        fun c none => absurd none (Option.not_mem_none c)
      have all := takeWhile_append_stop h.2 ended
      rwa [List.append_nil] at all
    rw [tokenAt?, h.1, if_pos rfl, word, ← e]
    · simp only [String.ofList_toList]
    · rintro rfl
      exact absurd h.1 (by decide)
    · rintro rfl
      exact absurd h.1 (by decide)

theorem tokenAt_minus (rest : List Char) :
    tokenAt? (['-'] ++ rest) = some (['-'].length, .op .sub) := rfl

theorem tokensFrom_skip (cs rest : List Char) (place : Nat) :
    tokensFrom place cs.length (cs ++ rest) = tokensFrom (place + cs.length) 0 rest := by
  induction cs generalizing place with
  | nil => rfl
  | cons c cs ih =>
    rw [List.length_cons, List.cons_append, tokensFrom_succ, ih, Nat.add_assoc, Nat.add_comm 1]

theorem tokensFrom_cons {c : Char} (place : Nat) (visible : isBlank c = false)
    (visibleRest : trimStart rest = rest)
    (h : tokenAt? (c :: cs ++ rest) = some ((c :: cs).length, t)) :
    tokensFrom place 0 (c :: cs ++ rest) =
      (tokensFrom (place + (c :: cs).length) 0 rest).map (t :: ·) := by
  have spaced : spacedTokenAt? (c :: cs ++ rest) = some ((c :: cs).length, t) := by
    have start : trimStart (c :: cs ++ rest) = c :: cs ++ rest :=
      trimStart_cons_of_not (cs ++ rest) visible
    simp only [spacedTokenAt?]
    rw [start, h, Option.map_some, List.drop_left, visibleRest, List.length_append,
      Nat.add_sub_cancel]
  rw [List.cons_append] at spaced ⊢
  rw [tokensFrom_zero, spaced]
  simp only [List.length_cons, Nat.add_sub_cancel]
  rw [tokensFrom_skip, Nat.add_assoc, Nat.add_comm 1]

theorem tokensFrom_one (place : Nat) (nonempty : cs ≠ [])
    (visible : ∀ c ∈ cs.head?, isBlank c = false) (h : tokenAt? cs = some (cs.length, t)) :
    tokensFrom place 0 cs = .ok [t] := by
  cases cs with
  | nil => exact absurd rfl nonempty
  | cons c cs =>
    have whole : tokenAt? (c :: cs ++ []) = some ((c :: cs).length, t) := by
      rw [List.append_nil, h]
    have first := tokensFrom_cons place (visible c rfl) rfl whole
    rw [List.append_nil, tokensFrom_nil] at first
    exact first

theorem numeral_visible (s : Numeral) : ∀ c ∈ s.chars.head?, isBlank c = false := by
  intro c hc
  cases e : s.chars with
  | nil => exact absurd e s.chars_ne_nil
  | cons d ds =>
    rw [e] at hc
    cases hc
    exact isDecimal_not_blank (isDecimal_digit (s.head_isDigit e))

end Tokens

section Operands

def signedTree (negative : Bool) (x : Float) : Tree :=
  if negative then .negation (.number x) else .number x

theorem trimmed_numeral (negative : Bool) (s : Numeral) :
    trimmed (String.ofList (signChars negative ++ s.chars)) =
      String.ofList (signChars negative ++ s.chars) := by
  have visible : ∀ c ∈ signChars negative ++ s.chars, isBlank c = false :=
    fun c hc => isBlank_of_numeralChar (s.signed_isNumeralChar negative c hc)
  rw [trimmed, String.toList_ofList, trim_of_visible visible]

theorem compile_numeral (negative : Bool) {s : Numeral} {text : String}
    (spelled : text = String.ofList (signChars negative ++ s.chars)) :
    compile text = .ok ⟨text, (signedTree negative s.value).postorder⟩ := by
  have numeral (place : Nat) : tokensFrom place 0 s.chars = .ok [.number s.value] :=
    tokensFrom_one place s.chars_ne_nil (numeral_visible s) (tokenAt_numeral s)
  have chars : text.toList = signChars negative ++ s.chars := by
    rw [spelled, String.toList_ofList]
  rw [compile, tokens, chars]
  cases negative with
  | false =>
    have read : tokensFrom 0 0 (signChars false ++ s.chars) = .ok [.number s.value] := numeral 0
    rw [read]
    rfl
  | true =>
    have visible : trimStart s.chars = s.chars := by
      cases e : s.chars with
      | nil => rfl
      | cons d ds => exact trimStart_cons_of_not ds (numeral_visible s d (by rw [e]; rfl))
    have first := tokensFrom_cons 0 (by decide) visible (tokenAt_minus s.chars)
    rw [numeral] at first
    have read : tokensFrom 0 0 (signChars true ++ s.chars) = .ok [.op .sub, .number s.value] :=
      first
    rw [read]
    rfl

theorem compile_name {w : String} (h : isIdentChars w.toList = true) :
    compile w = .ok ⟨w, (Tree.name w).postorder⟩ := by
  have nonempty : w.toList ≠ [] := by
    intro empty
    rw [empty] at h
    cases h
  have visible : ∀ c ∈ w.toList.head?, isBlank c = false := fun c hc =>
    isBlank_of_identPart (identParts h c (List.mem_of_mem_head? hc))
  rw [compile, tokens, tokensFrom_one 0 nonempty visible (tokenAt_name h)]
  rfl

end Operands

end EmitterLogic.Formula
