import EmitterLogic.Proofs.Number.Units
import EmitterLogic.Number.Basic

namespace EmitterLogic.Binary64

open Float.Model Float.Model.UnpackedFloat

theorem toNat_packComponents (s : Sign) (e : BitVec 11) (m : BitVec 52) :
    (packComponents .binary64 s e m).toNat =
      s.toBitVec.toNat * twoPow 63 + e.toNat * twoPow 52 + m.toNat := by
  have high : (s.toBitVec ++ e).toNat = s.toBitVec.toNat * twoPow 11 + e.toNat := by
    rw [BitVec.toNat_append, ← Nat.shiftLeft_add_eq_or_of_lt e.isLt, Nat.shiftLeft_eq]
  have all : (packComponents .binary64 s e m).toNat =
      (s.toBitVec ++ e).toNat * twoPow 52 + m.toNat := by
    rw [packComponents, BitVec.toNat_append, ← Nat.shiftLeft_add_eq_or_of_lt m.isLt,
      Nat.shiftLeft_eq]
  rw [all, high, Nat.add_mul, Nat.mul_assoc]
  rfl

theorem toNat_signOf (negative : Bool) : (signOf negative).toBitVec.toNat = negative.toNat := by
  cases negative <;> rfl

theorem log2_of_lt {m k : Nat} (lo : twoPow k ≤ m) (hi : m < twoPow (k + 1)) : m.log2 = k := by
  have positive : m ≠ 0 := by
    have := twoPow_pos k
    omega
  have low : k ≤ m.log2 := (Nat.le_log2 positive).mpr lo
  have high : m.log2 < k + 1 := (Nat.log2_lt positive).mpr hi
  omega

theorem bits_split (b : BitVec 64) : b.toNat =
    (b.toNat / twoPow 63 % 2 == 1).toNat * twoPow 63 + b.toNat / twoPow 52 % 2048 * twoPow 52 +
      b.toNat % twoPow 52 := by
  have bound : b.toNat < 18446744073709551616 := b.isLt
  have sign : (b.toNat / twoPow 63 % 2 == 1).toNat = b.toNat / twoPow 63 := by
    rw [twoPow_63]
    have few : b.toNat / 9223372036854775808 = 0 ∨ b.toNat / 9223372036854775808 = 1 := by omega
    rcases few with e | e <;> rw [e] <;> rfl
  rw [sign, twoPow_63, twoPow_52]
  omega

theorem pack_finite (s : Sign) {m : Nat} (e : Int) (positive : 0 < m) :
    UnpackedFloat.pack .binary64 (.finite s m e positive) =
      if twoPow 11 ≤ (e + Format.binary64.exponentBias + 52).toNat + 1 then
        packedInfinity .binary64 s
      else if m.log2 + 1 = Format.binary64.mantissaBits then
        packComponents .binary64 s
          (BitVec.ofNat 11 (e + Format.binary64.exponentBias + 52).toNat) (BitVec.ofNat 52 m)
      else packComponents .binary64 s 0 (BitVec.ofNat 52 m) := rfl

theorem pack_zero (negative : Bool) :
    UnpackedFloat.pack .binary64 (.zero (signOf negative)) =
      packComponents .binary64 (signOf negative) 0 0 := rfl

theorem pack_subnormal (negative : Bool) {m : Nat} (positive : 0 < m) (small : m < twoPow 52) :
    UnpackedFloat.pack .binary64 (.finite (signOf negative) m (-1074) positive) =
      packComponents .binary64 (signOf negative) 0 (BitVec.ofNat 52 m) := by
  have log : ¬m.log2 + 1 = Format.binary64.mantissaBits := by
    have := (Nat.log2_lt (by omega)).mpr small
    have : Format.binary64.mantissaBits = 53 := rfl
    omega
  have biased : ¬twoPow 11 ≤ ((-1074 : Int) + Format.binary64.exponentBias + 52).toNat + 1 := by
    decide
  rw [pack_finite, if_neg biased, if_neg log]

theorem pack_normal (negative : Bool) {f e : Nat} (positive : 0 < f + twoPow 52)
    (fraction : f < twoPow 52) (field : e < 2047) :
    UnpackedFloat.pack .binary64
        (.finite (signOf negative) (f + twoPow 52) ((e : Int) - 1075) positive) =
      packComponents .binary64 (signOf negative) (BitVec.ofNat 11 e)
        (BitVec.ofNat 52 (f + twoPow 52)) := by
  have log : (f + twoPow 52).log2 + 1 = Format.binary64.mantissaBits := by
    have width : Format.binary64.mantissaBits = 53 := rfl
    have upper : f + twoPow 52 < twoPow (52 + 1) := by
      have double : twoPow (52 + 1) = twoPow 52 + twoPow 52 := rfl
      omega
    rw [width, log2_of_lt (Nat.le_add_left _ _) upper]
  have exponent : ((e : Int) - 1075 + Format.binary64.exponentBias + 52).toNat = e := by
    have : (Format.binary64.exponentBias : Int) = 1023 := rfl
    omega
  have biased : ¬twoPow 11 ≤ ((e : Int) - 1075 + Format.binary64.exponentBias + 52).toNat + 1 := by
    have : twoPow 11 = 2048 := rfl
    omega
  rw [pack_finite, if_neg biased, if_pos log, exponent]

theorem pack_unpacked {b : BitVec 64} {p : Parts} (h : partsOfBits b.toNat = some p) :
    UnpackedFloat.pack .binary64 p.unpacked = b := by
  refine BitVec.eq_of_toNat_eq ?_
  have whole := bits_split b
  have fraction : b.toNat % twoPow 52 < twoPow 52 := Nat.mod_lt _ (twoPow_pos 52)
  have field : b.toNat / twoPow 52 % 2048 < 2048 := Nat.mod_lt _ (by decide)
  simp only [partsOfBits, beq_iff_eq] at h
  split at h
  · cases h
  · next finite =>
    split at h
    · next subnormal =>
      cases h
      rw [subnormal] at whole
      by_cases positive : 0 < b.toNat % twoPow 52
      · rw [Parts.unpacked, dif_pos positive, pack_subnormal _ positive fraction,
          toNat_packComponents, toNat_signOf, BitVec.toNat_ofNat, Nat.mod_eq_of_lt fraction]
        exact whole.symm
      · have empty : b.toNat % twoPow 52 = 0 := by omega
        rw [empty] at whole
        rw [Parts.unpacked, dif_neg positive, pack_zero, toNat_packComponents, toNat_signOf]
        exact whole.symm
    · next normal =>
      cases h
      have positive : 0 < b.toNat % twoPow 52 + twoPow 52 := by omega
      have residue : (b.toNat % twoPow 52 + twoPow 52) % twoPow 52 = b.toNat % twoPow 52 := by
        rw [Nat.add_mod_right, Nat.mod_mod]
      rw [Parts.unpacked, dif_pos positive, pack_normal _ positive fraction (by omega),
        toNat_packComponents, toNat_signOf, BitVec.toNat_ofNat, BitVec.toNat_ofNat, residue,
        Nat.mod_eq_of_lt field]
      exact whole.symm

theorem parts_ofBits {negative : Bool} {bits : Nat} {p : Parts}
    (h : partsOfBits (bits + if negative then twoPow 63 else 0) = some p)
    (bound : bits < twoPow 63) : parts? (ofBits negative bits) = some p := by
  have word : (UInt64.ofNat (bits + if negative then twoPow 63 else 0)).toBitVec.toNat =
      bits + if negative then twoPow 63 else 0 := by
    refine Nat.mod_eq_of_lt ?_
    rw [twoPow_63] at *
    split <;> omega
  rw [← word] at h
  have packed := pack_unpacked h
  rw [← unpack_eq_unpacked _ h] at packed
  have kept : (ofBits negative bits).toBits.toBitVec =
      (UInt64.ofNat (bits + if negative then twoPow 63 else 0)).toBitVec := packed
  have kept' : (ofBits negative bits).toBits.toNat =
      (UInt64.ofNat (bits + if negative then twoPow 63 else 0)).toBitVec.toNat :=
    congrArg BitVec.toNat kept
  rw [parts?, kept']
  exact h

theorem signed_fields (negative : Bool) {bits : Nat} (small : bits < twoPow 63) :
    (bits + if negative then twoPow 63 else 0) / twoPow 63 % 2 = negative.toNat ∧
      (bits + if negative then twoPow 63 else 0) / twoPow 52 % 2048 = bits / twoPow 52 ∧
      (bits + if negative then twoPow 63 else 0) % twoPow 52 = bits % twoPow 52 := by
  simp only [twoPow_52, twoPow_63] at small ⊢
  cases negative with
  | true =>
    rw [if_pos rfl, Bool.toNat_true]
    omega
  | false =>
    rw [if_neg Bool.false_ne_true, Bool.toNat_false]
    omega

theorem partsOfBits_normal {bits field fraction : Nat} (negative : Bool)
    (sign : bits / twoPow 63 % 2 = negative.toNat) (exponent : bits / twoPow 52 % 2048 = field)
    (mantissa : bits % twoPow 52 = fraction) (low : 0 < field) (high : field < 2047) :
    partsOfBits bits = some ⟨negative, fraction + twoPow 52, (field : Int) - 1075⟩ := by
  have finite : ¬field = 2047 := by omega
  have normal : ¬field = 0 := by omega
  have signed : (negative.toNat == 1) = negative := by cases negative <;> rfl
  simp only [partsOfBits, sign, exponent, mantissa, beq_iff_eq, if_neg finite, if_neg normal,
    signed]

theorem parts_ofBits_normal (negative : Bool) {whole e : Nat} (low : twoPow 52 ≤ whole)
    (high : whole < twoPow 53) (greatest : e < 2046) :
    parts? (ofBits negative (whole + e * twoPow 52)) =
      some ⟨negative, whole, (e : Int) - 1074⟩ := by
  have small : whole + e * twoPow 52 < twoPow 63 := by
    simp only [twoPow_52, twoPow_53, twoPow_63] at low high ⊢
    omega
  have bits : partsOfBits (whole + e * twoPow 52 + if negative then twoPow 63 else 0) =
      some ⟨negative, whole - twoPow 52 + twoPow 52, ((e + 1 : Nat) : Int) - 1075⟩ := by
    obtain ⟨sign, exponent, mantissa⟩ := signed_fields negative small
    refine partsOfBits_normal negative sign (exponent.trans ?_) (mantissa.trans ?_)
      (Nat.succ_pos e) (by omega)
    all_goals
      simp only [twoPow_52, twoPow_53] at low high ⊢
      omega
  have mantissa : whole - twoPow 52 + twoPow 52 = whole := Nat.sub_add_cancel low
  have exponent : ((e + 1 : Nat) : Int) - 1075 = (e : Int) - 1074 := by omega
  rw [mantissa, exponent] at bits
  exact parts_ofBits bits small

theorem nearestNat_exact {n d whole : Nat} (h : n = whole * d) (positive : 0 < d) :
    nearestNat n d = whole := by
  have quotient : n / d = whole := by rw [h, Nat.mul_div_cancel _ positive]
  have rest : n % d = 0 := by rw [h, Nat.mul_mod_left]
  have down : ¬(decide (2 * 0 > d) || (2 * 0 == d && whole % 2 == 1)) = true := by
    simp only [Bool.or_eq_true, decide_eq_true_eq, Bool.and_eq_true, beq_iff_eq]
    omega
  simp only [nearestNat, quotient, rest, if_neg down]

theorem lastPlace_one {n : Nat} (positive : 0 < n) : lastPlace n 1 = (n.log2 : Int) - 52 := by
  have low : twoPow n.log2 ≤ n := Nat.log2_self_le (by omega)
  have one : (1 : Nat).log2 = 0 := by decide
  have beyond : ¬(scaled n 1 ((n.log2 : Int) - (0 : Nat) - 53)).1 /
      (scaled n 1 ((n.log2 : Int) - (0 : Nat) - 53)).2 < twoPow 53 := by
    refine Nat.not_lt_of_le ?_
    rw [scaled]
    split
    · next large =>
      obtain ⟨k, hk⟩ : ∃ k, n.log2 = 53 + k := ⟨n.log2 - 53, by omega⟩
      have place : ((n.log2 : Int) - (0 : Nat) - 53).toNat = k := by omega
      rw [hk, twoPow_add] at low
      simp only [place, Nat.one_mul]
      exact (Nat.le_div_iff_mul_le (twoPow_pos k)).mpr low
    · next small =>
      have place : n.log2 + (-((n.log2 : Int) - (0 : Nat) - 53)).toNat = 53 := by omega
      simp only [Nat.div_one]
      rw [← place, twoPow_add]
      exact Nat.mul_le_mul_right _ low
  simp only [lastPlace, one, if_neg beyond]
  omega

theorem scaled_exact {m k : Nat} (positive : 0 < m) (places : m < twoPow 53) :
    ∃ whole d, scaled (m * twoPow k) 1 ((m * twoPow k).log2 - 52) = (whole * d, d) ∧ 0 < d ∧
      twoPow 52 ≤ whole ∧ whole < twoPow 53 ∧
      whole * twoPow ((m * twoPow k).log2 + 1022) = m * twoPow k * unitsOfOne := by
  have nonzero : m * twoPow k ≠ 0 := Nat.ne_of_gt (Nat.mul_pos positive (twoPow_pos k))
  have low : twoPow (m * twoPow k).log2 ≤ m * twoPow k := Nat.log2_self_le nonzero
  have high : m * twoPow k < twoPow ((m * twoPow k).log2 + 1) := Nat.lt_log2_self
  by_cases large : 52 ≤ (m * twoPow k).log2
  · obtain ⟨j, hj⟩ := Nat.exists_eq_add_of_le large
    rw [hj] at low high ⊢
    have fits : j ≤ k := by
      refine Nat.le_of_not_lt fun beyond => ?_
      have short : m * twoPow k < twoPow 53 * twoPow k :=
        Nat.mul_lt_mul_of_pos_right places (twoPow_pos k)
      have long : twoPow (53 + k) ≤ twoPow (52 + j) := twoPow_le (by omega)
      rw [twoPow_add] at long
      omega
    obtain ⟨i, rfl⟩ := Nat.exists_eq_add_of_le fits
    have cut : m * twoPow (j + i) = m * twoPow i * twoPow j := by
      rw [twoPow_add, Nat.mul_comm (twoPow j), Nat.mul_assoc]
    have place : (((52 + j : Nat) : Int) - 52).toNat = j := by omega
    refine ⟨m * twoPow i, twoPow j, ?_, twoPow_pos j, ?_, ?_, ?_⟩
    · rw [scaled, if_pos (by omega), place, Nat.one_mul, cut]
    · rw [twoPow_add, cut] at low
      exact Nat.le_of_mul_le_mul_right low (twoPow_pos j)
    · rw [show 52 + j + 1 = 53 + j by omega, twoPow_add 53 j, cut] at high
      exact Nat.lt_of_mul_lt_mul_right high
    · have place : 1022 + 52 = 1074 := rfl
      rw [Nat.add_comm (52 + j), ← Nat.add_assoc, Nat.add_comm _ j, twoPow_add, ← Nat.mul_assoc,
        ← cut, unitsOfOne_eq place]
  · obtain ⟨j, hj⟩ := Nat.exists_eq_add_of_le (Nat.le_of_not_le large)
    have place : (-(((m * twoPow k).log2 : Int) - 52)).toNat = j := by omega
    refine ⟨m * twoPow k * twoPow j, 1, ?_, Nat.one_pos, ?_, ?_, ?_⟩
    · rw [scaled, if_neg (by omega), place, Nat.mul_one]
    · rw [hj, twoPow_add]
      exact Nat.mul_le_mul_right _ low
    · rw [show 53 = (m * twoPow k).log2 + 1 + j by omega, twoPow_add]
      exact Nat.mul_lt_mul_of_pos_right high (twoPow_pos j)
    · have place : j + ((m * twoPow k).log2 + 1022) = 1074 := by omega
      rw [Nat.mul_assoc, ← twoPow_add, ← unitsOfOne_eq place]

theorem bits_lt {whole e : Nat} (high : whole < twoPow 53) (short : e < 2046) :
    whole + e * twoPow 52 < 2047 * twoPow 52 := by
  rw [twoPow_52, twoPow_53] at *
  omega

theorem nearestBits_exact {m k : Nat} (positive : 0 < m) (places : m < twoPow 53) (hk : k ≤ 971) :
    ∃ whole e, twoPow 52 ≤ whole ∧ whole < twoPow 53 ∧ e < 2046 ∧
      whole * twoPow e = m * twoPow k * unitsOfOne ∧
      nearestBits (m * twoPow k) 1 = some (whole + e * twoPow 52) := by
  have natural : 0 < m * twoPow k := Nat.mul_pos positive (twoPow_pos k)
  have nonzero : ¬m * twoPow k = 0 := by omega
  have bounded : (m * twoPow k).log2 < 53 + k := by
    refine (Nat.log2_lt nonzero).mpr ?_
    calc m * twoPow k < twoPow 53 * twoPow k := Nat.mul_lt_mul_of_pos_right places (twoPow_pos k)
      _ = twoPow (53 + k) := (twoPow_add 53 k).symm
  have short : (m * twoPow k).log2 + 1022 < 2046 := by omega
  obtain ⟨whole, d, parts, hd, low, high, value⟩ := scaled_exact (k := k) positive places
  have exponent :
      ((((m * twoPow k).log2 : Int) - 52) + 1074).toNat = (m * twoPow k).log2 + 1022 := by
    clear value
    omega
  have finite := bits_lt high short
  have rounded : nearestNat (whole * d) d = whole := nearestNat_exact rfl hd
  refine ⟨whole, (m * twoPow k).log2 + 1022, low, high, short, value, ?_⟩
  rw [nearestBits, if_neg (by simp only [beq_iff_eq, nonzero, not_false_eq_true])]
  simp only [lastPlace_one natural, parts, rounded, exponent]
  exact if_pos finite

theorem size_of_whole {p : Parts} (h : 0 ≤ p.exponent) :
    p.size = p.mantissa * twoPow p.exponent.toNat * unitsOfOne := by
  obtain ⟨k, hk⟩ : ∃ k : Nat, k = 1074 := ⟨_, rfl⟩
  have place : (p.exponent + 1074).toNat = p.exponent.toNat + k := by omega
  rw [Parts.size, place, twoPow_add, ← Nat.mul_assoc, unitsOfOne_eq hk]

theorem size_of_fractional {p : Parts} (hp : p.Canonical) (h : ¬0 ≤ p.exponent) :
    ∃ k, p.size = p.mantissa * twoPow k ∧ unitsOfOne = twoPow (-p.exponent).toNat * twoPow k := by
  refine ⟨(p.exponent + 1074).toNat, rfl, ?_⟩
  have place : (-p.exponent).toNat + (p.exponent + 1074).toNat = 1074 := by
    have := hp.least
    omega
  rw [← twoPow_add, ← unitsOfOne_eq place]

theorem magnitude_eq {p : Parts} (hp : p.Canonical) : p.magnitude = p.size / unitsOfOne := by
  rw [Parts.magnitude]
  split
  · next whole =>
    rw [size_of_whole whole]
    exact (Nat.mul_div_cancel _ unitsOfOne_pos).symm
  · next fractional =>
    obtain ⟨k, size, scale⟩ := size_of_fractional hp fractional
    rw [size, scale, Nat.mul_div_mul_right _ _ (twoPow_pos k)]

theorem isIntegral_iff {p : Parts} (hp : p.Canonical) :
    p.isIntegral = true ↔ unitsOfOne ∣ p.size := by
  rw [Parts.isIntegral, Bool.or_eq_true, decide_eq_true_eq, beq_iff_eq]
  by_cases whole : 0 ≤ p.exponent
  · rw [size_of_whole whole]
    exact iff_of_true (.inl whole) (Nat.dvd_mul_left _ _)
  · obtain ⟨k, size, scale⟩ := size_of_fractional hp whole
    rw [size, scale, Nat.mul_dvd_mul_iff_right (twoPow_pos k), Nat.dvd_iff_mod_eq_zero]
    exact ⟨fun h => h.resolve_left whole, .inr⟩

theorem trunc_eq_tdiv {p : Parts} (hp : p.Canonical) :
    p.trunc = p.units.tdiv (unitsOfOne : Nat) := by
  rw [Parts.trunc, Parts.units, magnitude_eq hp]
  cases p.negative with
  | true => simp only [if_true, Int.neg_tdiv, Int.ofNat_tdiv]
  | false => simp only [Bool.false_eq_true, if_false, Int.ofNat_tdiv]

theorem magnitude_places {p : Parts} (hp : p.Canonical) :
    ∃ m k, p.magnitude = m * twoPow k ∧ m < twoPow 53 ∧ k ≤ 971 := by
  rw [Parts.magnitude]
  split
  · exact ⟨p.mantissa, p.exponent.toNat, rfl, hp.mantissa_lt, by have := hp.greatest; omega⟩
  · refine ⟨p.mantissa / twoPow (-p.exponent).toNat, 0, (Nat.mul_one _).symm, ?_, Nat.zero_le _⟩
    exact Nat.lt_of_le_of_lt (Nat.div_le_self _ _) hp.mantissa_lt

theorem units_of_size {p : Parts} {n : Int} (sign : p.negative = decide (n < 0))
    (size : p.size = n.natAbs * unitsOfOne) : p.units = n * (unitsOfOne : Nat) := by
  rw [Parts.units, sign, size, Int.natCast_mul]
  by_cases negative : n < 0
  · have magnitude : ((n.natAbs : Nat) : Int) = -n := by omega
    rw [if_pos (decide_eq_true negative), magnitude, Int.neg_mul, Int.neg_neg]
  · have magnitude : ((n.natAbs : Nat) : Int) = n := by omega
    rw [if_neg (by simp only [negative, decide_false, Bool.false_eq_true, not_false_eq_true]),
      magnitude]

theorem ofInt_exact {n : Int} {m k : Nat} (h : n.natAbs = m * twoPow k) (places : m < twoPow 53)
    (hk : k ≤ 971) :
    ∃ y p, ofInt? n = some y ∧ parts? y = some p ∧ p.units = n * (unitsOfOne : Nat) := by
  rcases Nat.eq_zero_or_pos m with rfl | positive
  · have zero : n = 0 := by rw [Nat.zero_mul] at h; omega
    subst zero
    refine ⟨ofBits false 0, ⟨false, 0, -1074⟩, rfl, parts_ofBits rfl (twoPow_pos 63), ?_⟩
    exact units_of_size rfl (by rw [Parts.size, Nat.zero_mul, Int.natAbs_zero, Nat.zero_mul])
  · obtain ⟨whole, e, low, high, short, value, nearest⟩ := nearestBits_exact positive places hk
    refine ⟨ofBits (decide (n < 0)) (whole + e * twoPow 52),
      ⟨decide (n < 0), whole, (e : Int) - 1074⟩, ?_, parts_ofBits_normal _ low high short, ?_⟩
    · rw [ofInt?, nearest?, h, nearest]
      rfl
    · refine units_of_size rfl ?_
      have place : ((e : Int) - 1074 + 1074).toNat = e := by
        clear value
        omega
      rw [Parts.size, place, value, h]

end EmitterLogic.Binary64

namespace EmitterLogic

open Binary64

theorem isWhole_iff {x : Float} (hx : x.isFinite = true) :
    isWhole x = true ↔ ((unitsOfOne : Nat) : Int) ∣ units x := by
  obtain ⟨p, ep, cp, _⟩ := parts_of_isFinite hx
  have sized : ((unitsOfOne : Nat) : Int) ∣ p.units ↔ unitsOfOne ∣ p.size := by
    rw [Parts.units]
    split
    · rw [Int.dvd_neg, Int.natCast_dvd_natCast]
    · rw [Int.natCast_dvd_natCast]
  rw [isWhole, units, ep, Option.any_some, isIntegral_iff cp, ← sized]
  rfl

theorem wholePart_finite {x : Float} (hx : x.isFinite = true) :
    ∃ y, wholePart x = .ok y ∧ y.isFinite = true ∧
      units y = (units x).tdiv (unitsOfOne : Nat) * (unitsOfOne : Nat) := by
  obtain ⟨p, ep, cp, _⟩ := parts_of_isFinite hx
  obtain ⟨m, k, magnitude, places, hk⟩ := magnitude_places cp
  have trunc : p.trunc.natAbs = m * twoPow k := by
    rw [← magnitude, Parts.trunc]
    split
    · rw [Int.natAbs_neg, Int.natAbs_natCast]
    · rw [Int.natAbs_natCast]
  obtain ⟨y, q, ey, eq, value⟩ := ofInt_exact trunc places hk
  refine ⟨y, ?_, isFinite_of_parts eq, ?_⟩
  · rw [wholePart, truncated, ep]
    simp only [bind, Except.bind, Number.toFloat, ey]
  · rw [units, units, ep, eq]
    simp only [Option.map_some, Option.getD_some, value, trunc_eq_tdiv cp]

theorem isWhole_wholePart {x y : Float} (hx : x.isFinite = true) (h : wholePart x = .ok y) :
    y.isFinite = true ∧ isWhole y = true := by
  obtain ⟨z, whole, finite, value⟩ := wholePart_finite hx
  cases whole.symm.trans h
  exact ⟨finite, (isWhole_iff finite).mpr ⟨_, value.trans (Int.mul_comm _ _)⟩⟩

theorem whole_le_wholePart {lo x y : Float} (hlo : lo.isFinite = true) (hx : x.isFinite = true)
    (whole : isWhole lo = true) (le : lo ≤ x) (h : wholePart x = .ok y) : lo ≤ y := by
  obtain ⟨z, part, finite, value⟩ := wholePart_finite hx
  cases part.symm.trans h
  obtain ⟨n, hn⟩ := (isWhole_iff hlo).mp whole
  have positive : (0 : Int) < (unitsOfOne : Nat) := Int.natCast_pos.mpr unitsOfOne_pos
  have order := Int.tdiv_le_tdiv positive ((le_iff hlo hx).mp le)
  rw [hn, Int.mul_tdiv_cancel_left n (Int.ne_of_gt positive)] at order
  rw [le_iff hlo finite, value, hn, Int.mul_comm]
  exact Int.mul_le_mul_of_nonneg_right order (Int.le_of_lt positive)

theorem wholePart_le_whole {hi x y : Float} (hhi : hi.isFinite = true) (hx : x.isFinite = true)
    (whole : isWhole hi = true) (le : x ≤ hi) (h : wholePart x = .ok y) : y ≤ hi := by
  obtain ⟨z, part, finite, value⟩ := wholePart_finite hx
  cases part.symm.trans h
  obtain ⟨n, hn⟩ := (isWhole_iff hhi).mp whole
  have positive : (0 : Int) < (unitsOfOne : Nat) := Int.natCast_pos.mpr unitsOfOne_pos
  have order := Int.tdiv_le_tdiv positive ((le_iff hx hhi).mp le)
  rw [hn, Int.mul_tdiv_cancel_left n (Int.ne_of_gt positive)] at order
  rw [le_iff finite hhi, value, hn, Int.mul_comm]
  exact Int.mul_le_mul_of_nonneg_left order (Int.le_of_lt positive)

theorem truncated_eq {x : Float} (hx : x.isFinite = true) :
    truncated x = .ok ((units x).tdiv (unitsOfOne : Nat)) := by
  obtain ⟨p, ep, cp, _⟩ := parts_of_isFinite hx
  rw [truncated, units, ep, Option.map_some, Option.getD_some, ← trunc_eq_tdiv cp]

theorem truncated_wholePart {x y : Float} (hx : x.isFinite = true) (h : wholePart x = .ok y) :
    truncated y = truncated x := by
  obtain ⟨z, part, finite, value⟩ := wholePart_finite hx
  cases part.symm.trans h
  have positive : ((unitsOfOne : Nat) : Int) ≠ 0 := by
    have := unitsOfOne_pos
    omega
  rw [truncated_eq finite, truncated_eq hx, value, Int.mul_tdiv_cancel _ positive]

theorem wholePart_wholePart {x y : Float} (hx : x.isFinite = true) (h : wholePart x = .ok y) :
    wholePart y = .ok y := by
  rw [wholePart, truncated_wholePart hx h]
  exact h

theorem compare_mul_right {a b c : Int} (hc : 0 < c) : compare (a * c) (b * c) = compare a b := by
  rcases Int.lt_trichotomy a b with h | rfl | h
  · rw [Int.compare_eq_lt.mpr h, Int.compare_eq_lt.mpr (Int.mul_lt_mul_of_pos_right h hc)]
  · rw [Int.compare_eq_eq.mpr rfl, Int.compare_eq_eq.mpr rfl]
  · rw [Int.compare_eq_gt.mpr h, Int.compare_eq_gt.mpr (Int.mul_lt_mul_of_pos_right h hc)]

theorem compareInt_units {p : Parts} (hp : p.Canonical) (n : Int) :
    p.compareInt n = compare p.units (n * (unitsOfOne : Nat)) := by
  have signed (k : Nat) (size : p.size = p.mantissa * k) :
      p.units = (if p.negative then -(p.mantissa : Int) else p.mantissa) * (k : Nat) := by
    rw [Parts.units, size, Int.natCast_mul]
    split
    · rw [Int.neg_mul]
    · rfl
  rw [Parts.compareInt]
  split
  · next whole =>
    have size := size_of_whole whole
    rw [Nat.mul_assoc] at size
    rw [signed _ size, Int.natCast_mul, ← Int.mul_assoc,
      compare_mul_right (Int.natCast_pos.mpr unitsOfOne_pos)]
  · next fractional =>
    obtain ⟨k, size, scale⟩ := size_of_fractional hp fractional
    rw [signed _ size, scale, Int.natCast_mul, ← Int.mul_assoc,
      compare_mul_right (Int.natCast_pos.mpr (twoPow_pos k))]

theorem Number.int_lt_float {n : Int} {x : Float} (hx : x.isFinite = true) :
    (Number.int n).lt (.float x) = true ↔ n * (unitsOfOne : Nat) < units x := by
  obtain ⟨p, ep, cp, _⟩ := parts_of_isFinite hx
  have order : (Number.int n).compare? (.float x) = some (p.compareInt n).swap := by
    rw [Number.compare?, Number.compare?.floatInt, ep]
    rfl
  have value : units x = p.units := by rw [units, ep, Option.map_some, Option.getD_some]
  rw [Number.lt, order, beq_iff_eq, Option.some.injEq, Ordering.swap_eq_lt, compareInt_units cp,
    Int.compare_eq_gt, value]

theorem units_one : units 1.0 = (unitsOfOne : Nat) := by decide +kernel

end EmitterLogic
