import EmitterLogic.Proofs.Number.Sign

namespace EmitterLogic.Binary64

open Float.Model Float.Model.UnpackedFloat

section Rounding

def Under (t : Int) (m : Nat) (e : Int) : Prop := ∃ k : Nat, m < twoPow k ∧ k + e ≤ t

def Below (t : Int) : UnpackedFloat → Prop
  | .zero _ => True
  | .finite _ m e _ => Under t m e
  | .infinity _ => False
  | .notANumber => False

variable {t t' e : Int} {m : Nat} {u v : UnpackedFloat}

theorem Under.weaken (h : Under t m e) (le : t ≤ t') : Under t' m e := by
  obtain ⟨k, small, place⟩ := h
  exact ⟨k, small, Int.le_trans place le⟩

theorem Below.weaken (h : Below t u) (le : t ≤ t') : Below t' u := by
  cases u with
  | finite s m e positive => exact Under.weaken h le
  | _ => exact h

theorem Below.isFinite (h : Below t u) : u.isFinite = true := by
  cases u with
  | infinity s => exact h.elim
  | notANumber => exact h.elim
  | _ => rfl

theorem mantissa_shift (em : ExtendedMantissa) (n : Nat) :
    (em >>> n).mantissa = em.mantissa / twoPow n := by
  have unfolded : em >>> n = n.repeat ExtendedMantissa.shiftRightOne em := rfl
  rw [unfolded]
  induction n with
  | zero => exact (Nat.div_one _).symm
  | succ n ih =>
    have halved : (Nat.repeat ExtendedMantissa.shiftRightOne (n + 1) em).mantissa =
        (Nat.repeat ExtendedMantissa.shiftRightOne n em).mantissa / 2 := rfl
    rw [halved, ih rfl, Nat.div_div_eq_div_mul, twoPow_add, twoPow_one]

theorem roundedMantissa_le (em : ExtendedMantissa) : em.roundedMantissa ≤ em.mantissa + 1 := by
  obtain ⟨m, round, sticky⟩ := em
  cases round <;> cases sticky
  · exact Nat.le_succ m
  · exact Nat.le_succ m
  · exact Nat.add_le_add_left (Nat.le_of_lt_succ (Nat.mod_lt m (by decide))) m
  · exact Nat.le_refl _

theorem mantissa_ofAccuracy (m : Nat) (a : Accuracy) :
    (ExtendedMantissa.ofMantissaAndAccuracy m a).mantissa = m := by
  rcases a with _ | o
  · rfl
  · cases o <;> rfl

theorem div_lt_twoPow {k n : Nat} (h : m < twoPow k) :
    m / twoPow n < twoPow (k - n) ∧ (k < n → m / twoPow n = 0) := by
  refine ⟨?_, fun beyond => ?_⟩
  · rw [Nat.div_lt_iff_lt_mul (twoPow_pos n), ← twoPow_add]
    exact Nat.lt_of_lt_of_le h (twoPow_le (by omega))
  · exact Nat.div_eq_of_lt (Nat.lt_of_lt_of_le h (twoPow_le (Nat.le_of_lt beyond)))

theorem log2_le_of_lt {k : Nat} (h : m < twoPow k) : m.log2 ≤ k := by
  rcases Nat.eq_zero_or_pos m with rfl | positive
  · exact Nat.zero_le k
  · exact Nat.le_of_lt ((Nat.log2_lt (Nat.ne_of_gt positive)).mpr h)

theorem targetExponent_le (h : Under t m e) (low : -1074 ≤ t) :
    Format.binary64.targetExponent (totalExponent m e) ≤ t := by
  obtain ⟨k, small, place⟩ := h
  have log := log2_le_of_lt small
  have places : (Format.binary64.mantissaBits : Int) = 53 := rfl
  have least : Format.binary64.minExponent = -1074 := rfl
  rw [Format.targetExponent, totalExponent, places, least]
  omega

theorem roundWithAccuracy_below (s : Sign) (a : Accuracy) (h : Under t m e) (low : -1074 ≤ t) :
    Below (t + 1) (roundWithAccuracy .binary64 s m e a) := by
  obtain ⟨n, hn⟩ : ∃ n, n = (Format.binary64.targetExponent (totalExponent m e) - e).toNat :=
    ⟨_, rfl⟩
  have target := targetExponent_le h low
  obtain ⟨k, small, place⟩ := h
  obtain ⟨em, hem⟩ : ∃ em, em = ExtendedMantissa.ofMantissaAndAccuracy m a >>> n := ⟨_, rfl⟩
  have first : em.mantissa = m / twoPow n := by rw [hem, mantissa_shift, mantissa_ofAccuracy]
  obtain ⟨r, hr⟩ : ∃ r, r = em.roundedMantissa := ⟨_, rfl⟩
  have rounded : ∃ k' : Nat, r < twoPow k' ∧ k' + (e + n) ≤ t + 1 := by
    have le : r ≤ m / twoPow n + 1 := by
      rw [hr, ← first]
      exact roundedMantissa_le em
    obtain ⟨less, none⟩ := div_lt_twoPow (n := n) small
    by_cases beyond : k < n
    · refine ⟨1, ?_, by omega⟩
      rw [none beyond] at le
      rw [twoPow_one]
      omega
    · refine ⟨k - n + 1, ?_, by omega⟩
      have double : twoPow (k - n + 1) = twoPow (k - n) * 2 := twoPow_add _ 1
      omega
  obtain ⟨k', less, place'⟩ := rounded
  obtain ⟨n', hn'⟩ : ∃ n', n' =
      (Format.binary64.targetExponent (totalExponent r (e + n)) - (e + n)).toNat := ⟨_, rfl⟩
  obtain ⟨f, hf⟩ : ∃ f, f = (ExtendedMantissa.ofMantissaAndAccuracy r .exact >>> n').mantissa :=
    ⟨_, rfl⟩
  have second : f = r / twoPow n' := by rw [hf, mantissa_shift, mantissa_ofAccuracy]
  have unfolded : roundWithAccuracy .binary64 s m e a =
      if h : f = 0 then .zero s else .finite s f (e + n + n') (Nat.pos_of_ne_zero h) := by
    subst hf hn' hr hem hn
    rfl
  by_cases zero : f = 0
  · rw [unfolded, dif_pos zero]
    exact trivial
  · rw [unfolded, dif_neg zero]
    obtain ⟨less', none⟩ := div_lt_twoPow (n := n') less
    rw [← second] at less' none
    have within : n' ≤ k' := Nat.le_of_not_lt fun beyond => zero (none beyond)
    exact ⟨k' - n', less', by omega⟩

theorem under_decreased (h : Under t m e) (e' : Int) :
    Under t (decreaseExponent m e e').1 (decreaseExponent m e e').2 := by
  obtain ⟨k, small, place⟩ := h
  refine ⟨k + (e - e').toNat, ?_, ?_⟩
  · have shifted : (decreaseExponent m e e').1 = m <<< (e - e').toNat := rfl
    rw [shifted, Nat.shiftLeft_eq, twoPow_add]
    exact Nat.mul_lt_mul_of_pos_right small (twoPow_pos _)
  · have lowered : (decreaseExponent m e e').2 = e - (e - e').toNat := rfl
    rw [lowered]
    omega

theorem round_below (s : Sign) (h : Under t m e) (low : -1074 ≤ t) :
    Below (t + 1) (round .binary64 s m e) :=
  roundWithAccuracy_below s .exact (under_decreased h _) low

end Rounding

section Operations

variable {a b t : Int} {u v : UnpackedFloat}

theorem mul_below (hu : Below a u) (hv : Below b v) (low : -1074 ≤ a + b) :
    Below (a + b + 1) (UnpackedFloat.mul .binary64 u v) := by
  cases u with
  | infinity s => exact hu.elim
  | notANumber => exact hu.elim
  | zero s =>
    cases v with
    | infinity s => exact hv.elim
    | notANumber => exact hv.elim
    | _ => exact trivial
  | finite s m e positive =>
    cases v with
    | infinity s => exact hv.elim
    | notANumber => exact hv.elim
    | zero s => exact trivial
    | finite s' m' e' positive' =>
      obtain ⟨k, small, place⟩ := hu
      obtain ⟨k', small', place'⟩ := hv
      refine roundWithAccuracy_below (s * s') .exact ⟨k + k', ?_, by omega⟩ low
      rw [twoPow_add]
      exact Nat.mul_lt_mul'' small small'

theorem normalize_below {n : Int} {e : Int} (zeroSign : Sign) (h : Under t n.natAbs e)
    (low : -1074 ≤ t) : Below (t + 1) (normalize .binary64 n e zeroSign) := by
  rw [UnpackedFloat.normalize]
  rcases Int.lt_trichotomy n 0 with negative | zero | positive
  · rw [Int.compare_eq_lt.mpr negative]
    have magnitude : (-n).toNat = n.natAbs := by omega
    rw [← magnitude] at h
    exact round_below .negative h low
  · rw [Int.compare_eq_eq.mpr zero]
    exact trivial
  · rw [Int.compare_eq_gt.mpr positive]
    have magnitude : n.toNat = n.natAbs := by omega
    rw [← magnitude] at h
    exact round_below .positive h low

theorem natAbs_apply (s : Sign) (m : Nat) : (s.apply m).natAbs = m := by
  cases s with
  | positive => exact Int.natAbs_natCast m
  | negative => exact (Int.natAbs_neg m).trans (Int.natAbs_natCast m)

theorem add_below (hu : Below t u) (hv : Below t v) (low : -1074 ≤ t) :
    Below (t + 2) (UnpackedFloat.add .binary64 u v) := by
  cases u with
  | infinity s => exact hu.elim
  | notANumber => exact hu.elim
  | zero s =>
    cases v with
    | infinity s => exact hv.elim
    | notANumber => exact hv.elim
    | zero s' => cases s <;> cases s' <;> exact trivial
    | finite s' m' e' positive' => exact hv.weaken (by omega)
  | finite s m e positive =>
    cases v with
    | infinity s => exact hv.elim
    | notANumber => exact hv.elim
    | zero s' => exact hu.weaken (by omega)
    | finite s' m' e' positive' =>
      obtain ⟨k, small, place⟩ := under_decreased hu (min e e')
      obtain ⟨k', small', place'⟩ := under_decreased hv (min e e')
      have lowered : (decreaseExponent m e (min e e')).2 = min e e' := by
        have unfolded : (decreaseExponent m e (min e e')).2 = e - (e - min e e').toNat := rfl
        rw [unfolded]
        omega
      have lowered' : (decreaseExponent m' e' (min e e')).2 = min e e' := by
        have unfolded : (decreaseExponent m' e' (min e e')).2 = e' - (e' - min e e').toNat := rfl
        rw [unfolded]
        omega
      rw [lowered] at place
      rw [lowered'] at place'
      obtain ⟨n, hn⟩ : ∃ n, n = (decreaseExponent m e (min e e')).1 := ⟨_, rfl⟩
      obtain ⟨n', hn'⟩ : ∃ n', n' = (decreaseExponent m' e' (min e e')).1 := ⟨_, rfl⟩
      have unfolded : UnpackedFloat.add .binary64 (.finite s m e positive)
          (.finite s' m' e' positive') = normalize .binary64 (s.apply n + s'.apply n') (min e e')
            .positive := by
        subst hn hn'
        rfl
      rw [← hn] at small
      rw [← hn'] at small'
      have sum : Under (t + 1) (s.apply n + s'.apply n').natAbs (min e e') := by
        refine ⟨max k k' + 1, ?_, by omega⟩
        have first := natAbs_apply s n
        have second := natAbs_apply s' n'
        have le := twoPow_le (Nat.le_max_left k k')
        have le' := twoPow_le (Nat.le_max_right k k')
        rw [twoPow_add, twoPow_one]
        omega
      rw [unfolded]
      exact (normalize_below .positive sum (by omega)).weaken (by omega)

theorem parts_packComponents (s : Sign) {field : BitVec 11} (fraction : BitVec 52)
    (finite : field.toNat < 2047) :
    ∃ p, partsOfBits (packComponents .binary64 s field fraction).toNat = some p ∧
      p.exponent ≤ max ((field.toNat : Int) - 1075) (-1074) := by
  have bits := toNat_packComponents s field fraction
  have small : fraction.toNat < 4503599627370496 := fraction.isLt
  have place : (packComponents .binary64 s field fraction).toNat / twoPow 52 % 2048 =
      field.toNat := by
    rw [bits, twoPow_63, twoPow_52]
    omega
  have special : ¬field.toNat = 2047 := Nat.ne_of_lt finite
  simp only [partsOfBits, place, beq_iff_eq, if_neg special]
  split
  · exact ⟨_, rfl, Int.le_max_right _ _⟩
  · exact ⟨_, rfl, Int.le_max_left _ _⟩

theorem below_unpacked {p : Parts} (hp : p.Canonical) (h : p.exponent + 53 ≤ t) :
    Below t p.unpacked := by
  rcases Nat.eq_zero_or_pos p.mantissa with zero | positive
  · rw [(unpacked_zero zero).1]
    exact trivial
  · rw [(unpacked_pos positive).1]
    exact ⟨53, hp.mantissa_lt, by omega⟩

theorem pack_below (h : Below t u) (low : -1073 ≤ t) (high : t ≤ 972) :
    Below (t + 52) (UnpackedFloat.unpack .binary64 (UnpackedFloat.pack .binary64 u)) := by
  have packed : ∃ s, ∃ field : BitVec 11, ∃ fraction : BitVec 52,
      UnpackedFloat.pack .binary64 u = packComponents .binary64 s field fraction ∧
        field.toNat < 2047 ∧ (field.toNat : Int) - 1075 < t := by
    cases u with
    | infinity s => exact h.elim
    | notANumber => exact h.elim
    | zero s => exact ⟨s, 0, 0, rfl, by decide, by simp; omega⟩
    | finite s m e positive =>
      obtain ⟨k, small, place⟩ := h
      have some : 0 < k := by
        refine Nat.pos_of_ne_zero fun zero => ?_
        rw [zero] at small
        exact Nat.not_le_of_lt small positive
      have bias : (Format.binary64.exponentBias : Int) = 1023 := rfl
      obtain ⟨field, hf⟩ : ∃ n, n = (e + Format.binary64.exponentBias + 52).toNat := ⟨_, rfl⟩
      rw [pack_finite, ← hf]
      rw [bias] at hf
      have finite : ¬twoPow 11 ≤ field + 1 := by
        have top : twoPow 11 = 2048 := rfl
        omega
      rw [if_neg finite]
      split
      · have kept : (BitVec.ofNat 11 field).toNat = field := by
          rw [BitVec.toNat_ofNat]
          omega
        exact ⟨s, _, _, rfl, by omega, by omega⟩
      · exact ⟨s, 0, _, rfl, by decide, by simp; omega⟩
  obtain ⟨s, field, fraction, packed, finite, place⟩ := packed
  obtain ⟨p, parts, exponent⟩ := parts_packComponents s fraction finite
  rw [packed, unpack_eq_unpacked _ parts]
  exact below_unpacked (canonical_of_bits parts) (by omega)

end Operations

section Floats

variable {a b t : Int} {x y : Float}

theorem float_mul_below (hx : Below a x.toModel.unpack) (hy : Below b y.toModel.unpack)
    (low : -1074 ≤ a + b) (high : a + b ≤ 971) : Below (a + b + 53) (x * y).toModel.unpack :=
  (pack_below (mul_below hx hy low) (by omega) (by omega)).weaken (by omega)

theorem float_add_below (hx : Below t x.toModel.unpack) (hy : Below t y.toModel.unpack)
    (low : -1074 ≤ t) (high : t ≤ 970) : Below (t + 54) (x + y).toModel.unpack :=
  (pack_below (add_below hx hy low) (by omega) (by omega)).weaken (by omega)

theorem below_of_parts {p : Parts} (h : parts? x = some p) :
    Below (p.exponent + 53) x.toModel.unpack := by
  have unpacks : x.toModel.unpack = p.unpacked := unpack_eq_unpacked _ h
  rw [unpacks]
  exact below_unpacked (canonical_of_parts h) (Int.le_refl _)

theorem isFinite_millionths_of_parts {p : Parts} (parts : parts? x = some p)
    (small : p.exponent ≤ 844) : (x * 1000000.0 + 0.5).isFinite = true := by
  have million : parts? 1000000.0 = some ⟨false, 8589934592000000, -33⟩ := by decide
  have half : parts? 0.5 = some ⟨false, 4503599627370496, -53⟩ := by decide
  have below : Below 897 x.toModel.unpack := (below_of_parts parts).weaken (by omega)
  have product := float_mul_below below (below_of_parts million) (by decide) (by decide)
  have sum := float_add_below product ((below_of_parts half).weaken (by decide)) (by decide)
    (by decide)
  exact sum.isFinite

theorem isFinite_millionths (finite : x.isFinite = true) (fractional : isWhole x = false) :
    (x * 1000000.0 + 0.5).isFinite = true := by
  obtain ⟨p, parts⟩ := isFinite_iff_parts.mp finite
  have exponent : p.exponent < 0 := by
    rw [isWhole, parts, Option.any_some, Parts.isIntegral, Bool.or_eq_false_iff,
      decide_eq_false_iff_not] at fractional
    omega
  exact isFinite_millionths_of_parts parts (by omega)

end Floats

end EmitterLogic.Binary64
