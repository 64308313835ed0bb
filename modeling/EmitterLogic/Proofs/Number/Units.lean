import EmitterLogic.Number.Basic

namespace EmitterLogic

theorem twoPow_pos (n : Nat) : 0 < twoPow n := Nat.two_pow_pos n

theorem twoPow_add (m n : Nat) : twoPow (m + n) = twoPow m * twoPow n := Nat.pow_add 2 m n

theorem twoPow_le {m n : Nat} (h : m ≤ n) : twoPow m ≤ twoPow n :=
  Nat.pow_le_pow_right (by decide) h

theorem twoPow_lt {m n : Nat} (h : m < n) : twoPow m < twoPow n :=
  Nat.pow_lt_pow_right (by decide) h

theorem twoPow_one : twoPow 1 = 2 := rfl

theorem twoPow_52 : twoPow 52 = 4503599627370496 := rfl

theorem twoPow_53 : twoPow 53 = 9007199254740992 := rfl

theorem twoPow_53_eq : twoPow 53 = twoPow 52 * twoPow 1 := rfl

theorem twoPow_63 : twoPow 63 = 9223372036854775808 := rfl

namespace Binary64

open Float.Model Float.Model.UnpackedFloat

structure Parts.Canonical (p : Parts) : Prop where
  mantissa_lt : p.mantissa < twoPow 53
  least : -1074 ≤ p.exponent
  greatest : p.exponent ≤ 971
  small : p.mantissa < twoPow 52 → p.exponent = -1074

theorem canonical_of_bits {bits : Nat} {p : Parts} (h : partsOfBits bits = some p) :
    p.Canonical := by
  have fraction : bits % twoPow 52 < twoPow 52 := Nat.mod_lt _ (twoPow_pos 52)
  have field : bits / twoPow 52 % 2048 < 2048 := Nat.mod_lt _ (by decide)
  simp only [partsOfBits, beq_iff_eq] at h
  simp only [twoPow_52] at *
  split at h
  · cases h
  · next finite =>
    split at h
    · cases h
      exact ⟨by simp only [twoPow_53]; omega, by simp, by simp, fun _ => rfl⟩
    · next normal =>
      cases h
      refine ⟨by simp only [twoPow_53]; omega, by simp only; omega, by simp only; omega, ?_⟩
      intro small
      simp only [twoPow_52] at small
      omega

def signOf (negative : Bool) : Sign := if negative then .negative else .positive

def Parts.unpacked (p : Parts) : UnpackedFloat :=
  if h : 0 < p.mantissa then .finite (signOf p.negative) p.mantissa p.exponent h
  else .zero (signOf p.negative)

section Fields

variable (b : BitVec 64)

theorem toNat_mantissa :
    (@unpackMantissa .binary64 b).toNat = b.toNat % twoPow 52 := by
  simp only [unpackMantissa, BitVec.toNat_cast, BitVec.extractLsb_toNat]
  rfl

theorem toNat_exponent :
    (@unpackExponent .binary64 b).toNat = b.toNat / twoPow 52 % 2048 := by
  simp only [unpackExponent, BitVec.toNat_cast, BitVec.extractLsb_toNat, Nat.shiftRight_eq_div_pow]

theorem toNat_sign :
    (@unpackSign .binary64 b).toNat = b.toNat / twoPow 63 % 2 := by
  have shifted : (@unpackSign .binary64 b).toNat = (b.extractLsb 63 63).toNat := rfl
  rw [shifted, BitVec.extractLsb_toNat, Nat.shiftRight_eq_div_pow]

theorem ofBitVec_eq_signOf (v : BitVec 1) : Sign.ofBitVec v = signOf (v.toNat == 1) := by
  rcases BitVec.eq_zero_or_eq_one v with rfl | rfl
  · rfl
  · rfl

theorem toNat_one_append (v : BitVec 52) : (1#1 ++ v).toNat = v.toNat + twoPow 52 := by
  rw [BitVec.toNat_append, ← Nat.shiftLeft_add_eq_or_of_lt v.isLt, Nat.shiftLeft_eq, Nat.add_comm]
  exact congrArg (v.toNat + ·) (Nat.one_mul _)

theorem finite_congr {s s' : Sign} {m m' : Nat} {e e' : Int} {positive : 0 < m}
    (positive' : 0 < m') (hs : s = s') (hm : m = m') (he : e = e') :
    UnpackedFloat.finite s m e positive = .finite s' m' e' positive' := by
  subst hs hm he
  rfl

theorem unpack_eq_unpacked {p : Parts} (h : partsOfBits b.toNat = some p) :
    UnpackedFloat.unpack Format.binary64 b = p.unpacked := by
  have mantissa := toNat_mantissa b
  have exponent := toNat_exponent b
  have sign := ofBitVec_eq_signOf (@unpackSign .binary64 b)
  rw [toNat_sign b] at sign
  simp only [partsOfBits, ← mantissa, ← exponent, beq_iff_eq] at h
  split at h
  · cases h
  · next finite =>
    have notAll : @unpackExponent .binary64 b ≠ -1#11 := by
      intro e
      rw [e] at finite
      exact finite rfl
    split at h
    · next subnormal =>
      have isZero : @unpackExponent .binary64 b = 0#11 := BitVec.eq_of_toNat_eq subnormal
      cases h
      refine (if_neg notAll).trans ((if_pos isZero).trans ?_)
      by_cases empty : @unpackMantissa .binary64 b = 0#52
      · have none : ¬0 < (@unpackMantissa .binary64 b).toNat := by
          rw [empty]
          exact Nat.lt_irrefl 0
        rw [dif_pos empty, Parts.unpacked, dif_neg none, sign]
      · have some : 0 < (@unpackMantissa .binary64 b).toNat :=
          Nat.pos_of_ne_zero fun e => empty (BitVec.eq_of_toNat_eq e)
        rw [dif_neg empty, Parts.unpacked, dif_pos some]
        refine finite_congr some sign rfl ?_
        rw [subnormal]
        rfl
    · next normal =>
      have notZero : @unpackExponent .binary64 b ≠ 0#11 := by
        intro e
        rw [e] at normal
        exact normal rfl
      cases h
      have some : 0 < (@unpackMantissa .binary64 b).toNat + twoPow 52 :=
        Nat.lt_of_lt_of_le (twoPow_pos 52) (Nat.le_add_left _ _)
      rw [Parts.unpacked, dif_pos some]
      refine (if_neg notAll).trans ((if_neg notZero).trans ?_)
      exact finite_congr some sign (toNat_one_append _) rfl

theorem unpack_not_finite (h : partsOfBits b.toNat = none) :
    (UnpackedFloat.unpack Format.binary64 b).isFinite = false := by
  simp only [partsOfBits, ← toNat_exponent b, beq_iff_eq] at h
  split at h
  · next all =>
    have isAll : @unpackExponent .binary64 b = -1#11 := BitVec.eq_of_toNat_eq all
    have special : UnpackedFloat.unpack Format.binary64 b =
        if @unpackMantissa .binary64 b = 0#52 then
          .infinity (Sign.ofBitVec (@unpackSign .binary64 b))
        else .notANumber := if_pos isAll
    rw [special]
    split
    · rfl
    · rfl
  · split at h
    · cases h
    · cases h

end Fields

def Parts.size (p : Parts) : Nat := p.mantissa * twoPow (p.exponent + 1074).toNat

def Parts.units (p : Parts) : Int := if p.negative then -p.size else p.size

def unitsOfOne : Nat := twoPow 1074

theorem unitsOfOne_eq {k : Nat} (h : k = 1074) : unitsOfOne = twoPow k := by
  unfold unitsOfOne
  rw [h]

theorem unitsOfOne_pos : 0 < unitsOfOne := by
  obtain ⟨k, hk⟩ : ∃ k, k = 1074 := ⟨_, rfl⟩
  rw [unitsOfOne_eq hk]
  exact twoPow_pos k

def units (x : Float) : Int := ((parts? x).map Parts.units).getD 0

theorem size_lt_of_exponent {p q : Parts} (hp : p.Canonical) (hq : q.Canonical)
    (h : p.exponent < q.exponent) : p.size < q.size := by
  have big : twoPow 52 ≤ q.mantissa := by
    refine Nat.le_of_not_lt fun small => ?_
    have := hq.small small
    have := hp.least
    omega
  have gap : (p.exponent + 1074).toNat + 1 ≤ (q.exponent + 1074).toNat := by
    have := hp.least
    omega
  calc p.size < twoPow 53 * twoPow (p.exponent + 1074).toNat :=
        Nat.mul_lt_mul_of_pos_right hp.mantissa_lt (twoPow_pos _)
    _ = twoPow 52 * twoPow ((p.exponent + 1074).toNat + 1) := by
        rw [twoPow_53_eq, Nat.mul_assoc, Nat.mul_comm (twoPow 1), ← twoPow_add]
    _ ≤ q.mantissa * twoPow (q.exponent + 1074).toNat := Nat.mul_le_mul big (twoPow_le gap)

theorem compare_size {p q : Parts} (hp : p.Canonical) (hq : q.Canonical) :
    (compare p.exponent q.exponent).then (compare p.mantissa q.mantissa) =
      compare p.size q.size := by
  rcases Int.lt_trichotomy p.exponent q.exponent with lt | eq | gt
  · rw [Int.compare_eq_lt.mpr lt, Nat.compare_eq_lt.mpr (size_lt_of_exponent hp hq lt)]
    rfl
  · rw [Int.compare_eq_eq.mpr eq, Parts.size, Parts.size, eq]
    rcases Nat.lt_trichotomy p.mantissa q.mantissa with lt' | eq' | gt'
    · have := Nat.mul_lt_mul_of_pos_right lt' (twoPow_pos (q.exponent + 1074).toNat)
      rw [Nat.compare_eq_lt.mpr lt', Nat.compare_eq_lt.mpr this]
      rfl
    · rw [eq', Nat.compare_eq_eq.mpr rfl, Nat.compare_eq_eq.mpr rfl]
      rfl
    · have := Nat.mul_lt_mul_of_pos_right gt' (twoPow_pos (q.exponent + 1074).toNat)
      rw [Nat.compare_eq_gt.mpr gt', Nat.compare_eq_gt.mpr this]
      rfl
  · rw [Int.compare_eq_gt.mpr gt, Nat.compare_eq_gt.mpr (size_lt_of_exponent hq hp gt)]
    rfl

theorem compare_natCast (a b : Nat) : compare (a : Int) b = compare a b := by
  rcases Nat.lt_trichotomy a b with lt | rfl | gt
  · rw [Nat.compare_eq_lt.mpr lt, Int.compare_eq_lt.mpr (Int.ofNat_lt.mpr lt)]
  · rw [Nat.compare_eq_eq.mpr rfl, Int.compare_eq_eq.mpr rfl]
  · rw [Nat.compare_eq_gt.mpr gt, Int.compare_eq_gt.mpr (Int.ofNat_lt.mpr gt)]

theorem compare_neg_natCast (a b : Nat) : compare (-a : Int) (-b) = (compare a b).swap := by
  rcases Nat.lt_trichotomy a b with lt | rfl | gt
  · rw [Nat.compare_eq_lt.mpr lt, Int.compare_eq_gt.mpr (by omega)]
    rfl
  · rw [Nat.compare_eq_eq.mpr rfl, Int.compare_eq_eq.mpr rfl]
    rfl
  · rw [Nat.compare_eq_gt.mpr gt, Int.compare_eq_lt.mpr (by omega)]
    rfl

theorem unpacked_zero {p : Parts} (h : p.mantissa = 0) :
    p.unpacked = .zero (signOf p.negative) ∧ p.units = 0 := by
  have empty : p.size = 0 := by rw [Parts.size, h, Nat.zero_mul]
  refine ⟨?_, ?_⟩
  · rw [Parts.unpacked, dif_neg (by omega)]
  · rw [Parts.units, empty]
    split <;> rfl

theorem unpacked_pos {p : Parts} (h : 0 < p.mantissa) :
    p.unpacked = .finite (signOf p.negative) p.mantissa p.exponent h ∧ 0 < p.size :=
  ⟨dif_pos h, Nat.mul_pos h (twoPow_pos _)⟩

theorem compare_unpacked {p q : Parts} (hp : p.Canonical) (hq : q.Canonical) :
    p.unpacked.compare q.unpacked = some (compare p.units q.units) := by
  rcases Nat.eq_zero_or_pos p.mantissa with zp | fp
  · obtain ⟨up, np⟩ := unpacked_zero zp
    rw [up, np]
    rcases Nat.eq_zero_or_pos q.mantissa with zq | fq
    · obtain ⟨uq, nq⟩ := unpacked_zero zq
      rw [uq, nq]
      rfl
    · obtain ⟨uq, sq⟩ := unpacked_pos fq
      rw [uq, Parts.units]
      cases q.negative with
      | true => exact congrArg some (Int.compare_eq_gt.mpr (by simp only [if_true]; omega)).symm
      | false => exact congrArg some (Int.compare_eq_lt.mpr (by simp; omega)).symm
  · obtain ⟨up, sp⟩ := unpacked_pos fp
    rw [up, Parts.units]
    rcases Nat.eq_zero_or_pos q.mantissa with zq | fq
    · obtain ⟨uq, nq⟩ := unpacked_zero zq
      rw [uq, nq]
      cases p.negative with
      | true => exact congrArg some (Int.compare_eq_lt.mpr (by simp; omega)).symm
      | false => exact congrArg some (Int.compare_eq_gt.mpr (by simp; omega)).symm
    · obtain ⟨uq, sq⟩ := unpacked_pos fq
      rw [uq, Parts.units]
      have sizes := compare_size hp hq
      cases p.negative with
      | true =>
        cases q.negative with
        | true =>
          refine congrArg some ?_
          simp only [if_true, compare_neg_natCast, ← sizes]
        | false => exact congrArg some (Int.compare_eq_lt.mpr (by simp; omega)).symm
      | false =>
        cases q.negative with
        | true => exact congrArg some (Int.compare_eq_gt.mpr (by simp; omega)).symm
        | false =>
          refine congrArg some ?_
          simp only [Bool.false_eq_true, if_false, compare_natCast, ← sizes]

theorem parts_of_isFinite {x : Float} (h : x.isFinite = true) :
    ∃ p, parts? x = some p ∧ p.Canonical ∧ x.toModel.unpack = p.unpacked := by
  cases e : parts? x with
  | none =>
    have none : x.toModel.unpack.isFinite = false := unpack_not_finite _ e
    exact absurd (none.symm.trans h) (by decide)
  | some p => exact ⟨p, rfl, canonical_of_bits e, unpack_eq_unpacked _ e⟩

theorem isFinite_of_parts {x : Float} {p : Parts} (h : parts? x = some p) : x.isFinite = true := by
  have unpacks : x.toModel.unpack = p.unpacked := unpack_eq_unpacked _ h
  have finite : p.unpacked.isFinite = true := by
    rcases Nat.eq_zero_or_pos p.mantissa with empty | some
    · rw [(unpacked_zero empty).1]
      rfl
    · rw [(unpacked_pos some).1]
      rfl
  exact (congrArg UnpackedFloat.isFinite unpacks).trans finite

theorem compare_model {x y : Float} (hx : x.isFinite = true) (hy : y.isFinite = true) :
    x.toModel.unpack.compare y.toModel.unpack = some (compare (units x) (units y)) := by
  obtain ⟨p, ep, cp, up⟩ := parts_of_isFinite hx
  obtain ⟨q, eq, cq, uq⟩ := parts_of_isFinite hy
  rw [up, uq, compare_unpacked cp cq, units, units, ep, eq]
  rfl

theorem lt_iff {x y : Float} (hx : x.isFinite = true) (hy : y.isFinite = true) :
    x < y ↔ units x < units y := by
  have unfolded : x < y ↔ (x.toModel.unpack.compare y.toModel.unpack == some .lt) = true :=
    decide_eq_true_iff
  rw [unfolded, compare_model hx hy, beq_iff_eq, Option.some.injEq, Int.compare_eq_lt]

theorem le_iff {x y : Float} (hx : x.isFinite = true) (hy : y.isFinite = true) :
    x ≤ y ↔ units x ≤ units y := by
  have unfolded : x ≤ y ↔ (x.toModel.unpack.compare y.toModel.unpack).any (·.isLE) = true :=
    decide_eq_true_iff
  rw [unfolded, compare_model hx hy, Option.any_some, Int.isLE_compare]

theorem beq_iff {x y : Float} (hx : x.isFinite = true) (hy : y.isFinite = true) :
    (x == y) = true ↔ units x = units y := by
  have unfolded : (x == y) = (x.toModel.unpack.compare y.toModel.unpack == some .eq) := rfl
  rw [unfolded, compare_model hx hy, beq_iff_eq, Option.some.injEq, Int.compare_eq_eq]

theorem le_refl {x : Float} (hx : x.isFinite = true) : x ≤ x :=
  (le_iff hx hx).mpr (Int.le_refl _)

theorem le_trans {x y z : Float} (hx : x.isFinite = true) (hy : y.isFinite = true)
    (hz : z.isFinite = true) (h : x ≤ y) (h' : y ≤ z) : x ≤ z := by
  rw [le_iff hx hy] at h
  rw [le_iff hy hz] at h'
  exact (le_iff hx hz).mpr (Int.le_trans h h')

theorem le_of_lt {x y : Float} (hx : x.isFinite = true) (hy : y.isFinite = true) (h : x < y) :
    x ≤ y := by
  rw [lt_iff hx hy] at h
  exact (le_iff hx hy).mpr (Int.le_of_lt h)

theorem le_of_not_lt {x y : Float} (hx : x.isFinite = true) (hy : y.isFinite = true)
    (h : ¬x < y) : y ≤ x := by
  rw [lt_iff hx hy] at h
  rw [le_iff hy hx]
  omega

end Binary64

theorem zero_isFinite : (0.0 : Float).isFinite = true := by decide

theorem one_isFinite : (1.0 : Float).isFinite = true := by decide

end EmitterLogic
