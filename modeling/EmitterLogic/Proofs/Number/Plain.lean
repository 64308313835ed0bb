import EmitterLogic.Proofs.Number.Unsigned
import EmitterLogic.Proofs.Number.Written

namespace EmitterLogic

open Binary64

namespace Binary64

theorem ofBits_true {bits : Nat} (finite : bits < 2047 * twoPow 52) :
    ofBits true bits = -ofBits false bits := by
  obtain ⟨small, p, parts, found⟩ := exists_parts_ofBits false finite
  obtain ⟨_, q, parts', found'⟩ := exists_parts_ofBits true finite
  have negated : q = p.negated := by
    have sign : bits / twoPow 63 % 2 = 0 := by rw [Nat.div_eq_of_lt small]
    have sign' : (bits + twoPow 63) / twoPow 63 % 2 = 1 := by
      rw [Nat.add_div_right _ (twoPow_pos 63), Nat.div_eq_of_lt small]
    have field : (bits + twoPow 63) / twoPow 52 % 2048 = bits / twoPow 52 % 2048 := by
      rw [twoPow_52, twoPow_63]
      omega
    have fraction : (bits + twoPow 63) % twoPow 52 = bits % twoPow 52 := by
      rw [twoPow_52, twoPow_63]
      omega
    simp only [if_true, partsOfBits, sign', field, fraction] at found'
    simp only [Bool.false_eq_true, if_false, Nat.add_zero, partsOfBits, sign] at found
    split at found
    · cases found
    · next finite =>
      rw [if_neg finite] at found'
      split at found
      · next zero =>
        rw [if_pos zero] at found'
        cases found
        cases found'
        rfl
      · next nonzero =>
        rw [if_neg nonzero] at found'
        cases found
        cases found'
        rfl
  rw [negated] at parts'
  exact eq_of_parts parts' (parts_neg parts)

theorem nearest_true (num den : Nat) : nearest true num den = -nearest false num den := by
  have infinite : infinity true = -infinity false := by decide
  rw [nearest, nearest, nearest?, nearest?]
  cases found : nearestBits num den with
  | none => exact infinite
  | some bits => exact ofBits_true (nearestBits_lt found)

theorem ofDecimal_true (digits : Nat) (e : Int) :
    Reading.ofDecimal true digits e = -Reading.ofDecimal false digits e := by
  have infinite : infinity true = -infinity false := by decide
  simp only [Reading.ofDecimal]
  split
  · exact ofBits_true (Nat.mul_pos (by decide) (twoPow_pos 52))
  · split
    · exact infinite
    · split
      · exact nearest_true _ _
      · exact nearest_true _ _

end Binary64

namespace Numeral

open Text

variable (s : Numeral)

theorem signed_eq (negative : Bool) : s.signed negative = if negative then -s.value else s.value := by
  cases negative with
  | true => exact ofDecimal_true s.digits s.power
  | false => rfl

theorem skipDecimals_digits {ds rest : List Char} (digits : AllDigits ds)
    (stops : StopsDigits rest) : skipDecimals (ds ++ rest) = rest :=
  dropWhile_padded (fun c hc => isDecimal_digit (digits c hc)) fun c hc => by
    simp [isDecimal, (stops c hc).1]

theorem startsWithDecimal_digits {ds : List Char} (nonempty : ds ≠ []) (digits : AllDigits ds)
    (rest : List Char) : startsWithDecimal (ds ++ rest) = true := by
  cases ds with
  | nil => exact absurd rfl nonempty
  | cons d ds => exact isDecimal_digit (digits d List.mem_cons_self)

theorem isExponentTail_chars : isExponentTail (exponentChars s.exponent) = true := by
  cases e : s.exponent with
  | none => rfl
  | some exponent =>
    obtain ⟨negative, ds⟩ := exponent
    obtain ⟨nonempty, digits⟩ := s.exponent_digits negative ds e
    have sign : Reading.signOf ((if negative then '-' else '+') :: ds) = (negative, ds) := by
      cases negative <;> rfl
    have starts := startsWithDecimal_digits nonempty digits []
    have ended : StopsDigits [] := nofun
    have skips := skipDecimals_digits digits ended
    rw [List.append_nil] at starts skips
    simp only [exponentChars, isExponentTail, sign, starts, skips, beq_self_eq_true, Bool.true_or,
      Bool.and_self, List.isEmpty_nil]

theorem isNumeralChars_signed (negative : Bool) :
    isNumeralChars (signChars negative ++ s.chars) = true := by
  have tail := s.isExponentTail_chars
  have starts : startsWithDecimal s.chars = true :=
    startsWithDecimal_digits s.whole_ne_nil s.whole_digits _
  have skips (stops : StopsDigits (fractionChars s.fraction ++ exponentChars s.exponent)) :
      skipDecimals s.chars = fractionChars s.fraction ++ exponentChars s.exponent :=
    skipDecimals_digits s.whole_digits stops
  simp only [isNumeralChars, s.signOf_signed, starts, if_true]
  cases fraction : s.fraction with
  | nil =>
    rw [fraction, fractionChars, List.nil_append] at skips
    rw [skips (exponent_stops _)]
    cases e : s.exponent with
    | none => rfl
    | some exponent =>
      rw [e] at tail
      exact tail
  | cons d ds =>
    have digits := s.fraction_digits
    rw [fraction, fractionChars, List.cons_append] at skips
    rw [fraction] at digits
    have stops : StopsDigits ('.' :: (d :: ds ++ exponentChars s.exponent)) := by
      intro c hc
      cases hc
      decide
    rw [skips stops]
    simp only [skipDecimals_digits digits (exponent_stops _), tail]

end Numeral

section Plain

variable {x : Float}

theorem plainNumeral_reads (finite : x.isFinite = true) : isNumeral (plainNumeral x) = true ∧
    Reading.float? (plainNumeral x).toList = some (unsignedZero x) := by
  obtain ⟨p, parts⟩ := isFinite_iff_parts.mp finite
  obtain ⟨s, text, magnitude⟩ := plainNumeral_spelled parts
  obtain ⟨_, value⟩ := spelled_value parts magnitude
  have visible : ∀ c ∈ signChars (belowZero p) ++ s.chars, Text.isBlank c = false :=
    fun c hc => isBlank_of_numeralChar (s.signed_isNumeralChar _ c hc)
  rw [text, isNumeral, String.toList_ofList, Text.trim_of_visible visible, s.float_reads,
    s.signed_eq, value]
  exact ⟨s.isNumeralChars_signed _, rfl⟩

theorem unsignedZero_unsignedZero (x : Float) : unsignedZero (unsignedZero x) = unsignedZero x := by
  by_cases zero : (x == 0.0) = true
  · have same : unsignedZero x = 0.0 := if_pos zero
    rw [same]
    decide
  · have same : unsignedZero x = x := if_neg zero
    rw [same, same]

end Plain

section Differences

open Float.Model

variable {x y : Float} {p q : Parts}

theorem eq_zero_of_parts (h : parts? x = some p) (zero : p.mantissa = 0) : x = 0.0 ∨ x = -0.0 := by
  have least := (canonical_of_parts h).small (by rw [zero]; exact twoPow_pos 52)
  obtain ⟨negative, mantissa, exponent⟩ := p
  subst zero least
  cases negative with
  | false => exact .inl (eq_of_parts h (by decide))
  | true => exact .inr (eq_of_parts h (by decide))

theorem sub_zero_of_parts (hx : parts? x = some p) (positive : 0 < p.mantissa)
    (hy : parts? y = some q) (zero : q.mantissa = 0) : x - y = x := by
  have bits : (x - y).toBits.toBitVec = UnpackedFloat.pack .binary64
      (UnpackedFloat.sub .binary64 x.toModel.unpack y.toModel.unpack) := rfl
  have left : x.toModel.unpack = p.unpacked := unpack_eq_unpacked _ hx
  have right : y.toModel.unpack = q.unpacked := unpack_eq_unpacked _ hy
  have same : UnpackedFloat.sub .binary64 p.unpacked q.unpacked = p.unpacked := by
    rw [(unpacked_pos positive).1, (unpacked_zero zero).1]
    rfl
  rw [left, right, same, pack_parts hx] at bits
  exact float_ext bits

theorem of_sub_unsignedZero {f : Float → Bool} (blind : f (-0.0) = f 0.0) (hx : x.isFinite = true)
    (hy : y.isFinite = true) : f (x - unsignedZero y) = f (x - y) := by
  obtain ⟨p, parts⟩ := isFinite_iff_parts.mp hx
  obtain ⟨q, parts'⟩ := isFinite_iff_parts.mp hy
  rcases Nat.eq_zero_or_pos q.mantissa with zero | positive
  · have nought : parts? 0.0 = some ⟨false, 0, -1074⟩ := by decide
    have unsigned : unsignedZero y = 0.0 := by
      rcases eq_zero_of_parts parts' zero with rfl | rfl <;> decide
    rw [unsigned]
    rcases Nat.eq_zero_or_pos p.mantissa with zero' | positive'
    · have a : (0.0 : Float) - 0.0 = 0.0 := by decide
      have b : (0.0 : Float) - -0.0 = 0.0 := by decide
      have c : (-0.0 : Float) - 0.0 = -0.0 := by decide
      have d : (-0.0 : Float) - -0.0 = 0.0 := by decide
      rcases eq_zero_of_parts parts zero' with rfl | rfl <;>
        rcases eq_zero_of_parts parts' zero with rfl | rfl <;> simp only [a, b, c, d, blind]
    · rw [sub_zero_of_parts parts positive' nought (by rfl),
        sub_zero_of_parts parts positive' parts' zero]
  · have nonzero : ¬(y == 0.0) = true := by
      rw [beq_iff hy zero_isFinite]
      intro same
      have zero : units 0.0 = 0 := by decide
      rw [zero, units_eq_zero_iff parts'] at same
      omega
    rw [unsignedZero, if_neg nonzero]

end Differences

end EmitterLogic
