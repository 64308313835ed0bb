import EmitterLogic.Number.Shortest
import EmitterLogic.Proofs.Number.Decimal

namespace EmitterLogic.Shortest

def numeralSigns : List Char := ['.', 'e', '+', '-', 'n', 'a', 'i', 'f']

def IsNumeralChar (c : Char) : Prop := c.isDigit = true ∨ c ∈ numeralSigns

theorem isNumeralChar_zero : IsNumeralChar '0' := .inl rfl

theorem isNumeralChar_sign {c : Char} (h : c ∈ numeralSigns) : IsNumeralChar c := .inr h

theorem digitChars_chars (n : Nat) : ∀ c ∈ digitChars n, IsNumeralChar c :=
  fun _ h => .inl (Nat.isDigit_of_mem_toDigits (by decide) (by decide) h)

theorem zeros_chars (n : Nat) : ∀ c ∈ List.replicate n '0', IsNumeralChar c := by
  intro c h
  rw [(List.mem_replicate.mp h).2]
  exact isNumeralChar_zero

theorem layout_chars (d : Decimal) : ∀ c ∈ layout d, IsNumeralChar c := by
  have kept : ∀ c ∈ ((digitChars d.digits).reverse.dropWhile (· == '0')).reverse,
      IsNumeralChar c := by
    intro c h
    have inside := (List.dropWhile_sublist _).subset (List.mem_reverse.mp h)
    exact digitChars_chars _ c (List.mem_reverse.mp inside)
  have front (n : Nat) : ∀ c ∈ ((digitChars d.digits).reverse.dropWhile (· == '0')).reverse.take n,
      IsNumeralChar c := fun c h => kept c (List.mem_of_mem_take h)
  have back (n : Nat) : ∀ c ∈ ((digitChars d.digits).reverse.dropWhile (· == '0')).reverse.drop n,
      IsNumeralChar c := fun c h => kept c (List.mem_of_mem_drop h)
  have point : IsNumeralChar '.' := isNumeralChar_sign (by decide)
  simp only [layout]
  split
  · split
    · simp only [List.cons_append, List.forall_mem_cons, List.forall_mem_append]
      exact ⟨isNumeralChar_zero, point, zeros_chars _, kept⟩
    · simp only [List.forall_mem_cons, List.forall_mem_append]
      refine ⟨⟨front _, zeros_chars _⟩, point, ?_⟩
      split
      · exact List.forall_mem_singleton.mpr isNumeralChar_zero
      · exact back _
  · simp only [List.forall_mem_cons, List.forall_mem_append]
    refine ⟨⟨front _, ?_⟩, isNumeralChar_sign (by decide), ?_, ?_⟩
    · split
      · exact List.forall_mem_nil _
      · exact List.forall_mem_cons.mpr ⟨point, back _⟩
    · split
      · exact isNumeralChar_sign (by decide)
      · exact isNumeralChar_sign (by decide)
    · split
      · exact List.forall_mem_cons.mpr ⟨isNumeralChar_zero, digitChars_chars _⟩
      · exact digitChars_chars _

def words : List (List Char) := ["nan".toList, "-inf".toList, "inf".toList]

theorem words_chars {word : List Char} (h : word ∈ words) : ∀ c ∈ word, IsNumeralChar c := by
  have signs : words.all (·.all numeralSigns.contains) = true := by decide
  intro c hc
  have sign := List.all_eq_true.mp (List.all_eq_true.mp signs word h) c hc
  exact isNumeralChar_sign (List.contains_iff_mem.mp sign)

theorem numeral_chars (x : Float) : ∀ c ∈ numeral x, IsNumeralChar c := by
  rw [numeral]
  split
  · split
    · exact words_chars (by decide)
    · split
      · exact words_chars (by decide)
      · exact words_chars (by decide)
  · next p _ =>
    have body : ∀ c ∈ (if p.mantissa == 0 then ['0', '.', '0'] else layout (Parts.shortest p)),
        IsNumeralChar c := by
      split
      · simp only [List.forall_mem_cons]
        exact ⟨isNumeralChar_zero, isNumeralChar_sign (by decide), isNumeralChar_zero,
          List.forall_mem_nil _⟩
      · exact layout_chars _
    cases p.negative with
    | true => exact List.forall_mem_cons.mpr ⟨isNumeralChar_sign (by decide), body⟩
    | false => exact body

theorem ne_of_isNumeralChar {c d : Char} (h : IsNumeralChar c) (digit : d.isDigit = false)
    (sign : d ∉ numeralSigns) : c ≠ d := by
  rintro rfl
  rcases h with h | h
  · rw [digit] at h
    cases h
  · exact sign h

end EmitterLogic.Shortest

namespace EmitterLogic

open Reading

def AllDigits (cs : List Char) : Prop := ∀ c ∈ cs, c.isDigit = true

theorem allDigits_nil : AllDigits [] := List.forall_mem_nil _

def asciiDigits : List Char := ['0', '1', '2', '3', '4', '5', '6', '7', '8', '9']

theorem mem_asciiDigits {c : Char} (h : c.isDigit = true) : c ∈ asciiDigits := by
  simp only [Char.isDigit, Bool.and_eq_true, decide_eq_true_eq, ge_iff_le] at h
  have low : 48 ≤ c.val.toNat := h.1
  have high : c.val.toNat ≤ 57 := h.2
  have code : c = Char.ofNat c.toNat := (Char.ofNat_toNat c).symm
  have all : ∀ n < 58, 48 ≤ n → Char.ofNat n ∈ asciiDigits := by decide
  rw [code]
  exact all c.toNat (Nat.lt_succ_of_le high) low

theorem of_isDigit {f : Char → Bool} (all : asciiDigits.all f = true) {c : Char}
    (h : c.isDigit = true) : f c = true :=
  List.all_eq_true.mp all c (mem_asciiDigits h)

theorem digitValue_isDigit {c : Char} (h : c.isDigit = true) :
    Text.digitValue? c = some (c.toNat - '0'.toNat) := by
  have all : asciiDigits.all fun c => Text.digitValue? c == some (c.toNat - '0'.toNat) := by decide
  exact beq_iff_eq.mp (of_isDigit all h)

theorem Text.isDecimal_digit {c : Char} (h : c.isDigit = true) : Text.isDecimal c = true := by
  rw [Text.isDecimal, digitValue_isDigit h]
  rfl

/-- The natural number that digits spell. -/
def natOf (cs : List Char) : Nat := Nat.ofDigitChars 10 cs 0

theorem natOf_append (cs ds : List Char) :
    natOf (cs ++ ds) = natOf cs * tenPow ds.length + natOf ds := by
  rw [natOf, Nat.ofDigitChars_append, Nat.ofDigitChars_eq_ofDigitChars_zero, Nat.mul_comm]
  rfl

theorem natOf_zeros (n : Nat) : natOf (List.replicate n '0') = 0 := by
  rw [natOf, Nat.ofDigitChars_replicate_zero, Nat.mul_zero]

theorem natOf_toDigits (n : Nat) : natOf (Nat.toDigits 10 n) = n :=
  Nat.ofDigitChars_ten_toDigits

def StopsDigits (rest : List Char) : Prop :=
  ∀ c ∈ rest.head?, Text.digitValue? c = none ∧ c ≠ '_'

theorem digitRunFrom_digits (started : Bool) {ds rest : List Char} (h : AllDigits ds)
    (stops : StopsDigits rest) :
    digitRunFrom started (ds ++ rest) = (ds.map fun c => c.toNat - '0'.toNat, rest) := by
  induction ds generalizing started with
  | nil =>
    cases rest with
    | nil => rfl
    | cons c rest =>
      obtain ⟨none, other⟩ := stops c rfl
      have mark : ¬(started && c == '_' && rest.head?.any Text.isDecimal) = true := by
        simp [other]
      rw [List.nil_append, digitRunFrom, none]
      simp only [if_neg mark, List.map_nil]
  | cons d ds ih =>
    have rest := ih true fun c hc => h c (List.mem_cons_of_mem _ hc)
    rw [List.cons_append, digitRunFrom, digitValue_isDigit (h d List.mem_cons_self), rest]
    rfl

theorem natOfDigits_map (ds : List Char) :
    natOfDigits (ds.map fun c => c.toNat - '0'.toNat) = natOf ds := by
  rw [natOfDigits, List.foldl_map, natOf, Nat.ofDigitChars_eq_foldl]

structure Numeral where
  whole : List Char
  fraction : List Char := []
  exponent : Option (Bool × List Char) := none
  whole_ne_nil : whole ≠ []
  whole_digits : AllDigits whole
  fraction_digits : AllDigits fraction
  exponent_digits : ∀ negative ds, exponent = some (negative, ds) → ds ≠ [] ∧ AllDigits ds

namespace Numeral

def fractionChars : List Char → List Char
  | [] => []
  | d :: ds => '.' :: d :: ds

def exponentChars : Option (Bool × List Char) → List Char
  | none => []
  | some (negative, ds) => 'e' :: (if negative then '-' else '+') :: ds

def exponentValue : Option (Bool × List Char) → Int
  | none => 0
  | some (negative, ds) => if negative then -natOf ds else natOf ds

variable (s : Numeral)

def chars : List Char := s.whole ++ (fractionChars s.fraction ++ exponentChars s.exponent)

def digits : Nat := natOf (s.whole ++ s.fraction)

def power : Int := exponentValue s.exponent - s.fraction.length

/-- The number that is spelled, with a sign before it. -/
def signed (negative : Bool) : Float := ofDecimal negative s.digits s.power

def value : Float := s.signed false

def zero : Numeral := ⟨['0'], ['0'], none, nofun, List.forall_mem_singleton.mpr rfl,
  List.forall_mem_singleton.mpr rfl, nofun⟩

theorem zero_value : zero.value = 0.0 := rfl

def nought : Numeral := { zero with fraction := [], fraction_digits := allDigits_nil }

theorem exponent_reads {e : Option (Bool × List Char)}
    (h : ∀ negative ds, e = some (negative, ds) → ds ≠ [] ∧ AllDigits ds) :
    exponent? (exponentChars e) = some (exponentValue e) := by
  match e with
  | none => rfl
  | some (negative, []) => exact absurd rfl (h negative [] rfl).1
  | some (negative, d :: ds) =>
    have run : digitRun (d :: ds) = (((d :: ds).map fun c => c.toNat - '0'.toNat), []) := by
      have none : StopsDigits [] := nofun
      have all := digitRunFrom_digits false (h negative (d :: ds) rfl).2 none
      rwa [List.append_nil] at all
    have sign : signOf ((if negative then '-' else '+') :: d :: ds) = (negative, d :: ds) := by
      cases negative <;> rfl
    have number := natOfDigits_map (d :: ds)
    simp only [exponentChars, exponent?, sign, run]
    rw [List.map_cons] at number ⊢
    simp only [number]
    rfl

theorem exponent_stops (e : Option (Bool × List Char)) : StopsDigits (exponentChars e) := by
  intro c hc
  match e, hc with
  | some (_, _), hc =>
    cases hc
    decide

theorem unsigned_reads (negative : Bool) :
    unsigned? negative s.chars = some (s.signed negative) := by
  have stops : StopsDigits (fractionChars s.fraction ++ exponentChars s.exponent) := by
    cases s.fraction with
    | nil => exact exponent_stops s.exponent
    | cons d ds =>
      intro c hc
      cases hc
      decide
  have first : digitRun s.chars = (s.whole.map fun c => c.toNat - '0'.toNat,
      fractionChars s.fraction ++ exponentChars s.exponent) :=
    digitRunFrom_digits false s.whole_digits stops
  have present : (s.whole.map fun c => c.toNat - '0'.toNat).isEmpty = false := by
    rw [List.isEmpty_map, List.isEmpty_eq_false_iff]
    exact s.whole_ne_nil
  have exponent := exponent_reads s.exponent_digits
  cases empty : s.fraction with
  | nil =>
    have plain : s.power = exponentValue s.exponent := by
      rw [power, empty, List.length_nil]
      omega
    have number : natOf s.whole = s.digits := by rw [digits, empty, List.append_nil]
    rw [empty] at first
    rw [fractionChars, List.nil_append] at first
    have unpointed : unsigned? negative s.chars =
        (exponent? (exponentChars s.exponent)).map fun e =>
          ofDecimal negative (natOfDigits (s.whole.map fun c => c.toNat - '0'.toNat)) e := by
      cases e : s.exponent with
      | none =>
        rw [e] at first
        simp only [unsigned?, first, exponentChars, present, Bool.false_eq_true, if_false]
      | some e' =>
        rw [e] at first
        simp only [unsigned?, first, exponentChars, present, Bool.false_eq_true, if_false]
        rfl
    rw [unpointed, exponent, natOfDigits_map, number, ← plain]
    rfl
  | cons d ds =>
    have second : digitRun (d :: ds ++ exponentChars s.exponent) =
        ((d :: ds).map fun c => c.toNat - '0'.toNat, exponentChars s.exponent) := by
      refine digitRunFrom_digits false ?_ (exponent_stops s.exponent)
      rw [← empty]
      exact s.fraction_digits
    rw [empty, fractionChars, List.cons_append] at first
    simp only [unsigned?, first, second, present, Bool.false_and, Bool.false_eq_true, if_false,
      exponent, Option.map_some, ← List.map_append, natOfDigits_map, List.length_map]
    rw [signed, digits, power, empty]

theorem chars_ne_nil : s.chars ≠ [] := by
  rw [chars]
  simp [s.whole_ne_nil]

theorem head_isDigit {c : Char} {rest : List Char} (h : s.chars = c :: rest) :
    c.isDigit = true := by
  rw [chars] at h
  cases front : s.whole with
  | nil => exact absurd front s.whole_ne_nil
  | cons d ds =>
    rw [front] at h
    cases h
    exact s.whole_digits c (by rw [front]; exact List.mem_cons_self)

theorem chars_isNumeralChar : ∀ c ∈ s.chars, Shortest.IsNumeralChar c := by
  have sign {c : Char} (h : c ∈ Shortest.numeralSigns) := Shortest.isNumeralChar_sign h
  simp only [chars, List.forall_mem_append]
  refine ⟨fun c h => .inl (s.whole_digits c h), ?_, ?_⟩
  · cases empty : s.fraction with
    | nil => exact nofun
    | cons d ds =>
      rw [fractionChars, List.forall_mem_cons, ← empty]
      exact ⟨sign (by decide), fun c h => .inl (s.fraction_digits c h)⟩
  · cases e : s.exponent with
    | none => exact nofun
    | some e' =>
      obtain ⟨negative, ds⟩ := e'
      rw [exponentChars, List.forall_mem_cons, List.forall_mem_cons]
      refine ⟨sign (by decide), ?_, fun c h => .inl ((s.exponent_digits negative ds e).2 c h)⟩
      cases negative <;> exact sign (by decide)

end Numeral

theorem of_isNumeralChar {f : Char → Bool} (all : (asciiDigits ++ Shortest.numeralSigns).all f = true)
    {c : Char} (h : Shortest.IsNumeralChar c) : f c = true := by
  rw [List.all_append, Bool.and_eq_true] at all
  rcases h with h | h
  · exact of_isDigit all.1 h
  · exact List.all_eq_true.mp all.2 c h

theorem not_isMargin {c : Char} (h : Shortest.IsNumeralChar c) : isMargin c = false := by
  have all : ((asciiDigits ++ Shortest.numeralSigns).all fun c => !isMargin c) = true := by decide
  simpa using of_isNumeralChar all h

theorem isBlank_of_numeralChar {c : Char} (h : Shortest.IsNumeralChar c) :
    Text.isBlank c = false := by
  have all : ((asciiDigits ++ Shortest.numeralSigns).all fun c => !Text.isBlank c) = true := by
    decide
  simpa using of_isNumeralChar all h

theorem withoutMargins_of_visible {cs : List Char} (h : ∀ c ∈ cs, isMargin c = false) :
    withoutMargins cs = cs := by
  have keeps {ds : List Char} (h : ∀ c ∈ ds, isMargin c = false) : ds.dropWhile isMargin = ds := by
    cases ds with
    | nil => rfl
    | cons d ds =>
      have inside : ¬isMargin d = true := by simp [h d List.mem_cons_self]
      rw [List.dropWhile_cons_of_neg inside]
  rw [withoutMargins, keeps h, keeps fun c hc => h c (List.mem_reverse.mp hc), List.reverse_reverse]

/-- The sign that is written before a number. -/
def signChars (negative : Bool) : List Char := if negative then ['-'] else []

theorem Numeral.signed_isNumeralChar (s : Numeral) (negative : Bool) :
    ∀ c ∈ signChars negative ++ s.chars, Shortest.IsNumeralChar c := by
  refine List.forall_mem_append.mpr ⟨?_, s.chars_isNumeralChar⟩
  cases negative with
  | true => exact List.forall_mem_singleton.mpr (Shortest.isNumeralChar_sign (by decide))
  | false => exact nofun

theorem Numeral.signOf_signed (s : Numeral) (negative : Bool) :
    signOf (signChars negative ++ s.chars) = (negative, s.chars) := by
  cases negative with
  | true => rfl
  | false =>
    cases front : s.chars with
    | nil => exact absurd front s.chars_ne_nil
    | cons c rest =>
      have other {d : Char} (sign : d.isDigit = false) : c ≠ d := by
        rintro rfl
        rw [s.head_isDigit front] at sign
        cases sign
      simp only [signChars, Bool.false_eq_true, if_false, List.nil_append]
      unfold signOf
      split
      · next h => exact absurd (List.cons.inj h).1 (other (by decide))
      · next h => exact absurd (List.cons.inj h).1 (other (by decide))
      · rfl

theorem Numeral.float_reads (s : Numeral) (negative : Bool) :
    float? (signChars negative ++ s.chars) = some (s.signed negative) := by
  have margins : withoutMargins (signChars negative ++ s.chars) = signChars negative ++ s.chars :=
    withoutMargins_of_visible fun c hc =>
      not_isMargin (s.signed_isNumeralChar negative c hc)
  have reads := s.unsigned_reads negative
  cases front : s.chars with
  | nil => exact absurd front s.chars_ne_nil
  | cons c rest =>
    have digit := s.head_isDigit front
    have letters : (asciiDigits.all fun c => c.toLower != 'i' && c.toLower != 'n') = true := by decide
    have other := of_isDigit letters digit
    simp only [Bool.and_eq_true, bne_iff_ne, ne_eq] at other
    obtain ⟨i, n⟩ := other
    have sign := s.signOf_signed negative
    rw [front] at margins reads sign
    have inf : ((c :: rest).map Char.toLower == "inf".toList) = false := by
      simp [i]
    have infinity : ((c :: rest).map Char.toLower == "infinity".toList) = false := by
      simp [i]
    have nan : ((c :: rest).map Char.toLower == "nan".toList) = false := by
      simp [n]
    simp only [float?, margins, sign, inf, infinity, nan, reads, Bool.or_self, Bool.false_eq_true,
      if_false]

end EmitterLogic
