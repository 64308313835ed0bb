import EmitterLogic.Proofs.Number.Whole

namespace EmitterLogic.Binary64

open Float.Model Float.Model.UnpackedFloat

theorem float_ext {x y : Float} (h : x.toBits.toBitVec = y.toBits.toBitVec) : x = y := by
  obtain ⟨⟨bx, vx⟩⟩ := x
  obtain ⟨⟨by', vy⟩⟩ := y
  have same : bx = by' := UInt64.eq_of_toBitVec_eq h
  subst same
  rfl

theorem pack_parts {x : Float} {p : Parts} (h : parts? x = some p) :
    UnpackedFloat.pack .binary64 p.unpacked = x.toBits.toBitVec := pack_unpacked h

theorem eq_of_parts {x y : Float} {p : Parts} (hx : parts? x = some p) (hy : parts? y = some p) :
    x = y := float_ext ((pack_parts hx).symm.trans (pack_parts hy))

theorem canonical_of_parts {x : Float} {p : Parts} (h : parts? x = some p) : p.Canonical :=
  canonical_of_bits h

def Parts.bits (p : Parts) : Nat := p.mantissa + (p.exponent + 1074).toNat * twoPow 52

theorem Parts.Canonical.bits_lt {p : Parts} (hp : p.Canonical) : p.bits < 2047 * twoPow 52 := by
  have mantissa := hp.mantissa_lt
  have least := hp.least
  have greatest := hp.greatest
  rw [Parts.bits]
  rw [twoPow_53] at mantissa
  rw [twoPow_52]
  omega

theorem partsOfBits_subnormal {bits fraction : Nat} (negative : Bool)
    (sign : bits / twoPow 63 % 2 = negative.toNat) (exponent : bits / twoPow 52 % 2048 = 0)
    (mantissa : bits % twoPow 52 = fraction) :
    partsOfBits bits = some ⟨negative, fraction, -1074⟩ := by
  have signed : (negative.toNat == 1) = negative := by cases negative <;> rfl
  have finite : ¬0 = 2047 := by decide
  simp only [partsOfBits, sign, exponent, mantissa, signed, beq_iff_eq, if_neg finite, if_true]

theorem parts_ofBits_subnormal (negative : Bool) {fraction : Nat} (small : fraction < twoPow 52) :
    parts? (ofBits negative fraction) = some ⟨negative, fraction, -1074⟩ := by
  have below : fraction < twoPow 63 := by
    simp only [twoPow_52, twoPow_63] at small ⊢
    omega
  obtain ⟨sign, exponent, mantissa⟩ := signed_fields negative below
  exact parts_ofBits (partsOfBits_subnormal negative sign
    (exponent.trans (Nat.div_eq_of_lt small)) (mantissa.trans (Nat.mod_eq_of_lt small))) below

theorem parts_ofBits_canonical {p : Parts} (hp : p.Canonical) :
    parts? (ofBits p.negative p.bits) = some p := by
  obtain ⟨negative, mantissa, exponent⟩ := p
  have least : -1074 ≤ exponent := hp.least
  have greatest : exponent ≤ 971 := hp.greatest
  by_cases small : mantissa < twoPow 52
  · have zero : exponent = -1074 := hp.small small
    subst zero
    have bits : Parts.bits ⟨negative, mantissa, -1074⟩ = mantissa := by
      rw [Parts.bits, Int.add_left_neg, Int.toNat_zero, Nat.zero_mul, Nat.add_zero]
    rw [bits]
    exact parts_ofBits_subnormal negative small
  · have short : (exponent + 1074).toNat < 2046 := by
      clear small
      omega
    have normal := parts_ofBits_normal negative (Nat.le_of_not_lt small) hp.mantissa_lt short
    have place : (((exponent + 1074).toNat : Nat) : Int) - 1074 = exponent := by omega
    rw [place] at normal
    exact normal

def Parts.negated (p : Parts) : Parts := { p with negative := !p.negative }

theorem Parts.Canonical.negated {p : Parts} (hp : p.Canonical) : p.negated.Canonical :=
  ⟨hp.mantissa_lt, hp.least, hp.greatest, hp.small⟩

theorem unpacked_negated (p : Parts) : p.negated.unpacked = p.unpacked.neg := by
  have sign : signOf (!p.negative) = -signOf p.negative := by cases p.negative <;> rfl
  rcases Nat.eq_zero_or_pos p.mantissa with zero | positive
  · have zero' : p.negated.mantissa = 0 := zero
    rw [(unpacked_zero zero).1, (unpacked_zero zero').1]
    exact congrArg UnpackedFloat.zero sign
  · have positive' : 0 < p.negated.mantissa := positive
    rw [(unpacked_pos positive).1, (unpacked_pos positive').1]
    exact finite_congr positive sign rfl rfl

theorem parts_neg {x : Float} {p : Parts} (h : parts? x = some p) :
    parts? (-x) = some p.negated := by
  have target := parts_ofBits_canonical (canonical_of_parts h).negated
  have unpacks : x.toModel.unpack = p.unpacked := unpack_eq_unpacked _ h
  have bits : (-x).toBits.toBitVec = UnpackedFloat.pack .binary64 x.toModel.unpack.neg := rfl
  rw [unpacks, ← unpacked_negated, pack_parts target] at bits
  rw [float_ext bits, target]

theorem isFinite_iff_parts {x : Float} : x.isFinite = true ↔ ∃ p, parts? x = some p :=
  ⟨fun h => let ⟨p, found, _⟩ := parts_of_isFinite h; ⟨p, found⟩, fun ⟨_, h⟩ => isFinite_of_parts h⟩

section Infinite

variable {x y : Float} {u v : UnpackedFloat}

theorem unpack_nan : UnpackedFloat.unpack .binary64 (UnpackedFloat.pack .binary64 .notANumber) =
    .notANumber := rfl

theorem unpack_infinity (sign : Sign) : UnpackedFloat.unpack .binary64
    (UnpackedFloat.pack .binary64 (.infinity sign)) = .infinity sign := by
  cases sign <;> rfl

theorem infinite_cases (h : u.isFinite = false) : u = .notANumber ∨ ∃ sign, u = .infinity sign := by
  cases u with
  | notANumber => exact .inl rfl
  | infinity sign => exact .inr ⟨sign, rfl⟩
  | zero sign => cases h
  | finite sign m e positive => cases h

theorem repacked_infinite (h : u.isFinite = false) :
    (UnpackedFloat.unpack .binary64 (UnpackedFloat.pack .binary64 u)).isFinite = false := by
  rcases infinite_cases h with rfl | ⟨sign, rfl⟩
  · rw [unpack_nan, h]
  · rw [unpack_infinity, h]

theorem isFinite_neg (x : Float) : (-x).isFinite = x.isFinite := by
  cases finite : x.isFinite with
  | true =>
    obtain ⟨p, h⟩ := isFinite_iff_parts.mp finite
    exact isFinite_of_parts (parts_neg h)
  | false =>
    have negated : x.toModel.unpack.neg.isFinite = false := by
      rcases infinite_cases finite with special | ⟨sign, special⟩
      all_goals
        rw [special]
        rfl
    exact repacked_infinite negated

theorem sub_infinite (h : (u.isFinite && v.isFinite) = false) :
    (UnpackedFloat.sub .binary64 u v).isFinite = false := by
  cases u with
  | notANumber => rfl
  | infinity sign =>
    cases v with
    | infinity sign' => cases sign <;> cases sign' <;> rfl
    | _ => rfl
  | _ =>
    cases v with
    | notANumber => rfl
    | infinity sign => rfl
    | _ => cases h

theorem isFinite_sub (h : (x.isFinite && y.isFinite) = false) : (x - y).isFinite = false :=
  repacked_infinite (sub_infinite h)

theorem not_abs_le (hx : x.isFinite = false) (hy : y.isFinite = true) : ¬x.abs ≤ y := by
  have unfolded : x.abs ≤ y ↔ ((UnpackedFloat.unpack .binary64 (UnpackedFloat.pack .binary64
      x.toModel.unpack.abs)).compare y.toModel.unpack).any (·.isLE) = true := decide_eq_true_iff
  have finite : y.toModel.unpack.isFinite = true := hy
  rw [unfolded]
  rcases infinite_cases hx with special | ⟨sign, special⟩
  · have magnitude : UnpackedFloat.notANumber.abs = .notANumber := rfl
    rw [special, magnitude, unpack_nan]
    exact Bool.false_ne_true
  · have magnitude : (UnpackedFloat.infinity sign).abs = .infinity .positive := rfl
    rw [special, magnitude, unpack_infinity]
    cases unpacks : y.toModel.unpack with
    | infinity sign' =>
      rw [unpacks] at finite
      cases finite
    | _ => exact Bool.false_ne_true

end Infinite

end EmitterLogic.Binary64
