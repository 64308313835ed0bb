import EmitterLogic.Proofs.Number.Spelling
import EmitterLogic.Proofs.Text.Search

namespace EmitterLogic

namespace Binary64

/-- A number that is not below zero, nor the zero with the sign. -/
def Unsigned (x : Float) : Prop := ∀ p, parts? x = some p → p.negative = false

theorem partsOfBits_unsigned {bits : Nat} {p : Parts} (small : bits < twoPow 63)
    (h : partsOfBits bits = some p) : p.negative = false := by
  have sign : (bits / twoPow 63 % 2 == 1) = false := by
    rw [Nat.div_eq_of_lt small]
    rfl
  simp only [partsOfBits, sign] at h
  split at h
  · cases h
  · split at h
    · cases h
      rfl
    · cases h
      rfl

theorem parts_infinity : parts? (infinity false) = none := by decide

theorem unsigned_infinity : Unsigned (infinity false) := by
  intro p h
  rw [parts_infinity] at h
  cases h

theorem exists_parts_ofBits (negative : Bool) {bits : Nat} (finite : bits < 2047 * twoPow 52) :
    bits < twoPow 63 ∧ ∃ p, parts? (ofBits negative bits) = some p ∧
      partsOfBits (bits + if negative then twoPow 63 else 0) = some p := by
  have small : bits < twoPow 63 := by
    rw [twoPow_52] at finite
    rw [twoPow_63]
    omega
  obtain ⟨all, hall⟩ : ∃ all, all = bits + if negative then twoPow 63 else 0 := ⟨_, rfl⟩
  have field : ¬all / twoPow 52 % 2048 = 2047 := by
    rw [hall]
    rw [twoPow_52] at *
    rw [twoPow_63]
    split <;> omega
  have some : ∃ p, partsOfBits all = some p := by
    simp only [partsOfBits, beq_iff_eq, if_neg field]
    split
    · exact ⟨_, rfl⟩
    · exact ⟨_, rfl⟩
  obtain ⟨p, found⟩ := some
  rw [hall] at found
  exact ⟨small, p, parts_ofBits found small, found⟩

theorem isFinite_ofBits (negative : Bool) {bits : Nat} (finite : bits < 2047 * twoPow 52) :
    (ofBits negative bits).isFinite = true :=
  let ⟨_, _, parts, _⟩ := exists_parts_ofBits negative finite
  isFinite_of_parts parts

theorem unsigned_ofBits {bits : Nat} (finite : bits < 2047 * twoPow 52) :
    Unsigned (ofBits false bits) := by
  obtain ⟨small, q, same, found⟩ := exists_parts_ofBits false finite
  intro p h
  cases h.symm.trans same
  exact partsOfBits_unsigned small found

theorem nearestBits_lt {num den bits : Nat} (h : nearestBits num den = some bits) :
    bits < 2047 * twoPow 52 := by
  rw [nearestBits] at h
  split at h
  · cases h
    exact Nat.mul_pos (by decide) (twoPow_pos 52)
  · simp only at h
    split at h
    · next small =>
      cases h
      exact small
    · cases h

theorem unsigned_nearest (num den : Nat) : Unsigned (nearest false num den) := by
  rw [nearest, nearest?]
  cases h : nearestBits num den with
  | none => exact unsigned_infinity
  | some bits => exact unsigned_ofBits (nearestBits_lt h)

theorem unsigned_ofDecimal (digits : Nat) (e : Int) : Unsigned (Reading.ofDecimal false digits e) := by
  simp only [Reading.ofDecimal]
  split
  · exact unsigned_ofBits (Nat.mul_pos (by decide) (twoPow_pos 52))
  · split
    · exact unsigned_infinity
    · split
      · exact unsigned_nearest _ _
      · exact unsigned_nearest _ _

end Binary64

namespace Text

theorem isDecimal_cases {c : Char} (h : isDecimal c = true) :
    c.isDigit = true ∨ 0x660 ≤ c.toNat ∧ ∃ z ∈ decimalZeros, z ≤ c.toNat ∧ c.toNat ≤ z + 9 := by
  rw [isDecimal, digitValue?] at h
  split at h
  · split at h
    · next digit =>
      left
      simp only [Char.isDigit, Bool.and_eq_true, decide_eq_true_eq]
      exact digit
    · cases h
  · right
    rw [Option.isSome_map] at h
    obtain ⟨z, found⟩ := Option.isSome_iff_exists.mp h
    have inside := List.mem_of_find?_eq_some found
    have range := List.find?_some found
    simp only [Bool.and_eq_true, decide_eq_true_eq] at range
    have far : decimalZeros.all (0x660 ≤ ·) = true := by decide
    have low := of_decide_eq_true (List.all_eq_true.mp far z inside)
    exact ⟨Nat.le_trans low range.1, z, inside, range⟩

theorem isDecimal_not_blank {c : Char} (h : isDecimal c = true) : isBlank c = false := by
  rcases isDecimal_cases h with digit | ⟨_, z, inside, low, high⟩
  · have all : (asciiDigits.all fun c => !isBlank c) = true := by decide
    simpa using of_isDigit all digit
  · have apart : (decimalZeros.all fun z => z + 9 < 0x1680 || (0x1680 < z && z + 9 < 0x2000) ||
        0x3000 < z) = true := by decide
    have apart := List.all_eq_true.mp apart z inside
    simp only [Bool.or_eq_true, Bool.and_eq_true, decide_eq_true_eq] at apart
    rw [Bool.eq_false_iff]
    intro blank
    simp only [isBlank, Bool.or_eq_true, Bool.and_eq_true, decide_eq_true_eq, beq_iff_eq] at blank
    omega

theorem isDecimal_toLower {c : Char} (h : isDecimal c = true) : c.toLower = c := by
  have letter : ¬('A' ≤ c ∧ c ≤ 'Z') := by
    rintro ⟨low, high⟩
    have low : 65 ≤ c.toNat := low
    have high : c.toNat ≤ 90 := high
    rcases isDecimal_cases h with digit | ⟨far, _⟩
    · simp only [Char.isDigit, Bool.and_eq_true, decide_eq_true_eq] at digit
      have : c.toNat ≤ 57 := digit.2
      omega
    · omega
  exact dif_neg letter

theorem isDecimal_ne {c d : Char} (h : isDecimal c = true) (other : isDecimal d = false) :
    c ≠ d := by
  rintro rfl
  rw [h] at other
  cases other

end Text

namespace Reading

open Binary64 Text

theorem unsigned_unsigned {s : List Char} {x : Float} (h : unsigned? false s = some x) :
    Unsigned x := by
  have mapped {o : Option Int} {f : Int → Float} (all : ∀ e, Unsigned (f e))
      (h : o.map f = some x) : Unsigned x := by
    obtain ⟨e, _, rfl⟩ := Option.map_eq_some_iff.mp h
    exact all e
  simp only [unsigned?] at h
  split at h
  · split at h
    · cases h
    · exact mapped (fun e => unsigned_ofDecimal _ _) h
  · split at h
    · cases h
    · exact mapped (fun e => unsigned_ofDecimal _ _) h

theorem unsigned_float {c : Char} {rest : List Char} {x : Float} (digit : isDecimal c = true)
    (h : float? (c :: rest) = some x) : Unsigned x := by
  have margin : isMargin c = false := by rw [isMargin, isDecimal_not_blank digit, Bool.false_and]
  obtain ⟨body, margins⟩ : ∃ body, withoutMargins (c :: rest) = c :: body := by
    rw [withoutMargins, List.dropWhile_cons_of_neg (by simp [margin]), dropEnd_cons_of_not _ margin]
    exact ⟨_, rfl⟩
  have sign : signOf (c :: body) = (false, c :: body) := by
    unfold signOf
    split
    · next e => exact absurd (List.cons.inj e).1 (isDecimal_ne digit (by decide))
    · next e => exact absurd (List.cons.inj e).1 (isDecimal_ne digit (by decide))
    · rfl
  have i : ¬c = 'i' := isDecimal_ne digit (by decide)
  have n : ¬c = 'n' := isDecimal_ne digit (by decide)
  have inf : ((c :: body).map Char.toLower == "inf".toList) = false := by
    simp [isDecimal_toLower digit, i]
  have infinity : ((c :: body).map Char.toLower == "infinity".toList) = false := by
    simp [isDecimal_toLower digit, i]
  have nan : ((c :: body).map Char.toLower == "nan".toList) = false := by
    simp [isDecimal_toLower digit, n]
  simp only [float?, margins, sign, inf, infinity, nan, Bool.or_self, Bool.false_eq_true,
    if_false] at h
  exact unsigned_unsigned h

end Reading

end EmitterLogic
