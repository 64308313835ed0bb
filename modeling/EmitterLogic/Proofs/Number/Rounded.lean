import EmitterLogic.Proofs.Number.Magnitude
import EmitterLogic.Proofs.Number.Unsigned
import EmitterLogic.Proofs.Number.Written

namespace EmitterLogic

namespace Binary64

theorem nearestNat_le (n d : Nat) : nearestNat n d ≤ n / d + 1 := by
  simp only [nearestNat]
  split
  · exact Nat.le_refl _
  · exact Nat.le_succ _

theorem nearestBits_isSome {num den c : Nat} (hd : 0 < den) (hc : c ≤ 1006)
    (bound : num ≤ twoPow c * den) : ∃ bits, nearestBits num den = some bits := by
  rcases Nat.eq_zero_or_pos num with rfl | hn
  · exact ⟨0, rfl⟩
  have nonzero : ¬(num == 0) = true := by
    rw [beq_iff_eq]
    omega
  obtain ⟨q, hq⟩ : ∃ q, q = lastPlace num den := ⟨_, rfl⟩
  obtain ⟨u, hu⟩ : ∃ u : Nat, u = 1074 := ⟨_, rfl⟩
  obtain ⟨least, below, above⟩ := lastPlace_spec hn hd
  rw [← hq] at least below above
  have place : q + 1074 ≤ 2028 := by
    rcases above with lowest | above
    · omega
    refine Int.not_lt.mp fun beyond => ?_
    have much : twoPow c * den * unitsOfOne < twoPow 52 * den * twoPow (q + 1074).toNat := by
      rw [unitsOfOne_eq hu, Nat.mul_right_comm, Nat.mul_right_comm (twoPow 52), ← twoPow_add,
        ← twoPow_add]
      exact Nat.mul_lt_mul_of_pos_right (twoPow_lt (by omega)) hd
    exact absurd (Nat.le_trans above (Nat.mul_le_mul_right _ bound)) (Nat.not_le.mpr much)
  have quotient : num * twoPow (-q).toNat / (den * twoPow q.toNat) < twoPow 53 := by
    rw [Nat.div_lt_iff_lt_mul (Nat.mul_pos hd (twoPow_pos _)), ← Nat.mul_assoc]
    rw [unitsOfOne_eq hu] at below
    exact (scaled_lt _ _ _ _ (by omega)).mpr below
  have le := nearestNat_le (num * twoPow (-q).toNat) (den * twoPow q.toNat)
  have finite : nearestNat (num * twoPow (-q).toNat) (den * twoPow q.toNat) +
      (q + 1074).toNat * twoPow 52 < 2047 * twoPow 52 := by
    rw [twoPow_53] at quotient
    rw [twoPow_52]
    omega
  refine ⟨nearestNat (num * twoPow (-q).toNat) (den * twoPow q.toNat) +
    (q + 1074).toNat * twoPow 52, ?_⟩
  simp only [nearestBits, nonzero, scaled_eq, ← hq, if_pos finite, Bool.false_eq_true, if_false]

theorem isFinite_nearest (negative : Bool) {num den c : Nat} (hd : 0 < den) (hc : c ≤ 1006)
    (bound : num ≤ twoPow c * den) : (nearest negative num den).isFinite = true := by
  obtain ⟨bits, found⟩ := nearestBits_isSome hd hc bound
  rw [nearest, nearest?, found]
  exact isFinite_ofBits negative (nearestBits_lt found)

theorem natAbs_floor_le (p : Parts) : p.floor.natAbs ≤ p.magnitude + 1 := by
  have trunc : p.trunc.natAbs = p.magnitude := by
    rw [Parts.trunc]
    split
    · exact (Int.natAbs_neg _).trans (Int.natAbs_natCast _)
    · exact Int.natAbs_natCast _
  rw [Parts.floor]
  split
  · omega
  · omega

theorem isFinite_millionth {p : Parts} (hp : p.Canonical) :
    (nearest (p.floor < 0) p.floor.natAbs 1000000).isFinite = true := by
  obtain ⟨m, k, magnitude, small, top⟩ := magnitude_places hp
  have floor := natAbs_floor_le p
  have grown : (m + 1) * twoPow k ≤ twoPow (35 + k) * 1000000 := by
    rw [twoPow_add, Nat.mul_right_comm]
    refine Nat.mul_le_mul_right _ (Nat.le_trans small ?_)
    decide
  have positive := twoPow_pos k
  rw [Nat.succ_mul, ← magnitude] at grown
  exact isFinite_nearest _ (by decide) (c := 35 + k) (by omega) (by omega)

end Binary64

open Binary64 Shortest

/-- A number rounded to six places. -/
def sixPlaces (x : Float) : Float :=
  match floored (x * 1000000.0 + 0.5) with
  | .ok n => nearest (n < 0) n.natAbs 1000000
  | .error _ => x

/-- The number that the literal of a finite number spells. -/
def written (x : Float) : Float := unsignedZero (if isWhole x then x else sixPlaces x)

section Points

variable {x : Float} {p : Parts}

def isPointed (c : Char) : Bool := c == '.' || c == 'e'

theorem layout_pointed (d : Decimal) : (layout d).any isPointed = true := by
  have point : isPointed '.' = true := rfl
  have exponent : isPointed 'e' = true := rfl
  simp only [layout]
  split
  · split
    · simp only [List.cons_append, List.any_cons, point, Bool.true_or, Bool.or_true]
    · simp only [List.any_append, List.any_cons, point, Bool.true_or, Bool.or_true]
  · simp only [List.any_append, List.any_cons, exponent, Bool.true_or, Bool.or_true]

theorem numeral_pointed (h : parts? x = some p) : (Shortest.numeral x).any isPointed = true := by
  have body : (if p.mantissa == 0 then ['0', '.', '0'] else layout (Parts.shortest p)).any
      isPointed = true := by
    split
    · rfl
    · exact layout_pointed _
  rw [Shortest.numeral, h]
  simp only
  split
  · rw [List.any_cons, body, Bool.or_true]
  · exact body

theorem plainNumeral_pointed (h : parts? x = some p)
    (laidOut : (p.isIntegral && decide (x.abs < 1e21)) = false) :
    (plainNumeral x).toList.any isPointed = true := by
  rw [plainNumeral, h]
  simp only [laidOut, Bool.false_eq_true, if_false]
  split
  · rw [String.toList_ofList, List.any_append, List.any_cons, show isPointed 'e' = true from rfl,
      Bool.true_or, Bool.or_true]
  · rw [String.toList_ofList]
    exact numeral_pointed h

theorem isDigit_not_pointed {c : Char} (h : c.isDigit = true) : isPointed c = false := by
  have none := of_isDigit (f := fun c => !isPointed c) (by decide) h
  exact Bool.not_eq_true' _ ▸ none

theorem trunc_not_pointed (hp : p.Canonical) (whole : p.isIntegral = true) :
    (toString p.trunc).toList.any isPointed = false := by
  rw [toString_trunc hp whole, String.toList_ofList, List.any_append, Bool.or_eq_false_iff]
  refine ⟨by cases belowZero p <;> rfl, List.any_eq_false.mpr fun c digit => ?_⟩
  rw [isDigit_not_pointed (allDigits_toDigits _ c digit)]
  exact Bool.false_ne_true

theorem pointed_spelled (h : parts? x = some p) : Spelled p
    (if (plainNumeral x).any isPointed then plainNumeral x else plainNumeral x ++ ".0") := by
  have listed : (plainNumeral x).any isPointed = (plainNumeral x).toList.any isPointed :=
    String.contains_bool_eq
  rw [listed]
  cases small : p.isIntegral && decide (x.abs < 1e21) with
  | true =>
    have whole := (Bool.and_eq_true_iff.mp small).1
    have text : plainNumeral x = toString p.trunc := by
      rw [plainNumeral, h]
      simp only [small, if_true]
    rw [text, trunc_not_pointed (canonical_of_parts h) whole, if_neg Bool.false_ne_true]
    exact whole_spelled (canonical_of_parts h) whole ⟨1, rfl⟩
  | false =>
    rw [plainNumeral_pointed h small, if_pos rfl]
    exact plainNumeral_spelled h

end Points

section Literals

variable {x : Float}

theorem decimal_spelled (finite : x.isFinite = true) (fractional : isWhole x = false) :
    ∃ p text, parts? (sixPlaces x) = some p ∧ Kotlin.decimal (.float x) = .ok text ∧
      Spelled p text := by
  obtain ⟨q, millionths⟩ := isFinite_iff_parts.mp (isFinite_millionths finite fractional)
  have floor : floored (x * 1000000.0 + 0.5) = .ok q.floor := by rw [floored, millionths]
  have rounded : sixPlaces x = nearest (q.floor < 0) q.floor.natAbs 1000000 := by
    rw [sixPlaces, floor]
  have finite' := isFinite_millionth (canonical_of_parts millionths)
  rw [← rounded] at finite'
  obtain ⟨p, parts⟩ := isFinite_iff_parts.mp finite'
  refine ⟨p, _, parts, ?_, pointed_spelled parts⟩
  rw [Kotlin.decimal, finite?_float finite]
  simp only [bind, Except.bind, floor, rounded]
  rfl

theorem literal_spelled (finite : x.isFinite = true) (fallback : Datum) :
    ∃ y p text, written x = unsignedZero y ∧ parts? y = some p ∧
      Kotlin.literal (.float x) fallback = .ok text ∧ Spelled p text := by
  rw [Kotlin.literal, Kotlin.literalOf, finite?_float finite, written]
  simp only [bind, Except.bind]
  cases whole : isWhole x with
  | true =>
    obtain ⟨p, parts⟩ := isFinite_iff_parts.mp finite
    have integral : p.isIntegral = true := by
      rw [isWhole, parts, Option.any_some] at whole
      exact whole
    rw [if_pos rfl, if_pos rfl, truncated, parts]
    have spelled : Spelled p (toString p.trunc ++ String.ofList (Numeral.fractionChars [])) :=
      whole_spelled (canonical_of_parts parts) integral ⟨0, rfl⟩
    rw [Numeral.fractionChars, String.ofList_nil, String.append_empty] at spelled
    exact ⟨x, p, _, rfl, parts, rfl, spelled⟩
  | false =>
    obtain ⟨p, text, parts, decimal, spelled⟩ := decimal_spelled finite whole
    exact ⟨sixPlaces x, p, text, rfl, parts, decimal, spelled⟩

theorem isFinite_written (finite : x.isFinite = true) : (written x).isFinite = true := by
  obtain ⟨y, p, _, same, parts, _⟩ := literal_spelled finite .null
  rw [same]
  exact isFinite_unsignedZero (isFinite_of_parts parts)

end Literals

end EmitterLogic
