import EmitterLogic.Proofs.Number.Nearest
import EmitterLogic.Number.Reading

namespace EmitterLogic.Binary64

theorem tenPow_pos (n : Nat) : 0 < tenPow n := Nat.pow_pos (by decide)

theorem tenPow_add (m n : Nat) : tenPow (m + n) = tenPow m * tenPow n := Nat.pow_add 10 m n

theorem tenPow_le {m n : Nat} (h : m ≤ n) : tenPow m ≤ tenPow n :=
  Nat.pow_le_pow_right (by decide) h

variable {p : Parts}

def Parts.NearsDecimal (p : Parts) (digits : Nat) (e : Int) : Prop :=
  p.Nears (digits * tenPow e.toNat) (tenPow (-e).toNat)

theorem Parts.Nears.congr {num den num' den' : Nat} (h : p.Nears num den) (hd : 0 < den)
    (same : num * den' = num' * den) (hd' : 0 < den') : p.Nears num' den' := by
  have lower : p.lowerEnd * den * twoPow p.place * den' =
      p.lowerEnd * den' * twoPow p.place * den := by ac_rfl
  have upper : (4 * p.mantissa + 2) * den * twoPow p.place * den' =
      (4 * p.mantissa + 2) * den' * twoPow p.place * den := by ac_rfl
  have middle : 4 * num * unitsOfOne * den' = 4 * num' * unitsOfOne * den := by
    rw [Nat.mul_right_comm _ _ den', Nat.mul_assoc 4, same, ← Nat.mul_assoc 4,
      Nat.mul_right_comm _ den]
  refine ⟨?_, ?_, fun odd => ⟨?_, ?_⟩⟩
  · rw [← Nat.mul_le_mul_right_iff hd, ← lower, ← middle, Nat.mul_le_mul_right_iff hd']
    exact h.low
  · rw [← Nat.mul_le_mul_right_iff hd, ← upper, ← middle, Nat.mul_le_mul_right_iff hd']
    exact h.high
  · rw [← Nat.mul_lt_mul_right hd, ← lower, ← middle, Nat.mul_lt_mul_right hd']
    exact (h.odd odd).1
  · rw [← Nat.mul_lt_mul_right hd, ← upper, ← middle, Nat.mul_lt_mul_right hd']
    exact (h.odd odd).2

theorem Parts.NearsDecimal.shift {digits k : Nat} {e : Int}
    (h : p.NearsDecimal (digits * tenPow k) e) : p.NearsDecimal digits (e + k) := by
  refine Parts.Nears.congr h (tenPow_pos _) ?_ (tenPow_pos _)
  rw [Nat.mul_assoc, Nat.mul_assoc, Nat.mul_assoc, ← tenPow_add, ← tenPow_add, ← tenPow_add]
  congr 2
  omega

theorem Parts.NearsDecimal.unshift {digits k : Nat} {e : Int}
    (h : p.NearsDecimal digits (e + k)) : p.NearsDecimal (digits * tenPow k) e := by
  refine Parts.Nears.congr h (tenPow_pos _) ?_ (tenPow_pos _)
  rw [Nat.mul_assoc, Nat.mul_assoc, Nat.mul_assoc, ← tenPow_add, ← tenPow_add, ← tenPow_add]
  congr 2
  omega

theorem nears_exact (hm : 0 < p.mantissa) {num den : Nat} (hd : 0 < den)
    (h : num * unitsOfOne = p.size * den) : p.Nears num den := by
  have value : 4 * num * unitsOfOne = 4 * p.mantissa * den * twoPow p.place := by
    rw [Nat.mul_assoc, h, Parts.size, Parts.place, Nat.mul_right_comm _ _ den, ← Nat.mul_assoc,
      ← Nat.mul_assoc]
  have below : p.lowerEnd < 4 * p.mantissa := by
    rw [Parts.lowerEnd]
    split <;> omega
  have low : p.lowerEnd * den * twoPow p.place < 4 * num * unitsOfOne := by
    rw [value]
    exact Nat.mul_lt_mul_of_pos_right (Nat.mul_lt_mul_of_pos_right below hd) (twoPow_pos _)
  have high : 4 * num * unitsOfOne < (4 * p.mantissa + 2) * den * twoPow p.place := by
    rw [value]
    exact Nat.mul_lt_mul_of_pos_right (Nat.mul_lt_mul_of_pos_right (by omega) hd) (twoPow_pos _)
  exact ⟨Nat.le_of_lt low, Nat.le_of_lt high, fun _ => ⟨low, high⟩⟩

section Range

variable {digits : Nat} {e : Int}

theorem digits_lt (digits : Nat) : digits < tenPow (Nat.toDigits 10 digits).length :=
  (Nat.length_toDigits_le_iff (by decide) Nat.length_toDigits_pos).mp (Nat.le_refl _)

theorem le_digits (h : 0 < digits) : tenPow ((Nat.toDigits 10 digits).length - 1) ≤ digits := by
  rcases Nat.eq_zero_or_pos ((Nat.toDigits 10 digits).length - 1) with short | long
  · rw [short]
    exact h
  · refine Nat.le_of_not_lt fun less => ?_
    have := (Nat.length_toDigits_le_iff (by decide) long).mpr less
    omega

theorem not_tiny (hm : 0 < p.mantissa) (h : p.NearsDecimal digits e) :
    ¬e + (Nat.toDigits 10 digits).length < -400 := by
  intro tiny
  obtain ⟨size, hs⟩ : ∃ size, size = (Nat.toDigits 10 digits).length := ⟨_, rfl⟩
  have bound := digits_lt digits
  rw [← hs] at tiny bound
  have whole : e.toNat = 0 := by omega
  have den : size + 400 ≤ (-e).toNat := by omega
  have low := h.low
  obtain ⟨u, hu⟩ : ∃ u : Nat, u = 1074 := ⟨_, rfl⟩
  rw [whole, unitsOfOne_eq hu] at low
  have apart : tenPow size * (2 * tenPow 400) < tenPow size * (4 * twoPow u) :=
    calc tenPow size * (2 * tenPow 400) = 2 * tenPow (size + 400) := by
          rw [tenPow_add, Nat.mul_left_comm]
      _ ≤ p.lowerEnd * tenPow (-e).toNat :=
          Nat.mul_le_mul (by have := lowerEnd_ge p; omega) (tenPow_le den)
      _ ≤ p.lowerEnd * tenPow (-e).toNat * twoPow p.place :=
          Nat.le_mul_of_pos_right _ (twoPow_pos _)
      _ ≤ 4 * (digits * tenPow 0) * twoPow u := low
      _ = digits * (4 * twoPow u) := by
          rw [show tenPow 0 = 1 from rfl, Nat.mul_one, Nat.mul_comm 4, Nat.mul_assoc]
      _ < tenPow size * (4 * twoPow u) :=
          Nat.mul_lt_mul_of_pos_right bound (Nat.mul_pos (by decide) (twoPow_pos u))
  have less := Nat.lt_of_mul_lt_mul_left apart
  subst hu
  exact absurd less (by decide +kernel)

theorem not_huge (hp : p.Canonical) (hd : 0 < digits) (h : p.NearsDecimal digits e) :
    ¬400 < e + (Nat.toDigits 10 digits).length := by
  intro huge
  obtain ⟨size, hs⟩ : ∃ size, size = (Nat.toDigits 10 digits).length := ⟨_, rfl⟩
  have bound := le_digits hd
  have mantissa := hp.mantissa_lt
  have greatest := hp.greatest
  rw [← hs] at huge bound
  have high := h.high
  obtain ⟨u, hu⟩ : ∃ u : Nat, u = 1074 := ⟨_, rfl⟩
  obtain ⟨t, ht⟩ : ∃ t : Nat, t = 2045 := ⟨_, rfl⟩
  rw [unitsOfOne_eq hu] at high
  have apart : tenPow (-e).toNat * (tenPow 400 * twoPow u) ≤
      tenPow (-e).toNat * (36028797018963968 * twoPow t) :=
    calc tenPow (-e).toNat * (tenPow 400 * twoPow u) = tenPow ((-e).toNat + 400) * twoPow u := by
          rw [tenPow_add, Nat.mul_assoc]
      _ ≤ tenPow (size - 1 + e.toNat) * twoPow u :=
          Nat.mul_le_mul_right _ (tenPow_le (by omega))
      _ ≤ digits * tenPow e.toNat * twoPow u := by
          rw [tenPow_add]
          exact Nat.mul_le_mul_right _ (Nat.mul_le_mul_right _ bound)
      _ ≤ 4 * (digits * tenPow e.toNat) * twoPow u :=
          Nat.mul_le_mul_right _ (Nat.le_mul_of_pos_left _ (by decide))
      _ ≤ (4 * p.mantissa + 2) * tenPow (-e).toNat * twoPow p.place := high
      _ ≤ 36028797018963968 * tenPow (-e).toNat * twoPow t := by
          refine Nat.mul_le_mul (Nat.mul_le_mul_right _ ?_) (twoPow_le ?_)
          · rw [twoPow_53] at mantissa
            omega
          · rw [Parts.place]
            omega
      _ = tenPow (-e).toNat * (36028797018963968 * twoPow t) := by
          rw [Nat.mul_comm 36028797018963968, Nat.mul_assoc]
  have le := Nat.le_of_mul_le_mul_left apart (tenPow_pos _)
  subst hu ht
  exact absurd le (by decide +kernel)

end Range

theorem ofDecimal_near {negative : Bool} {digits : Nat} {e : Int} (hp : p.Canonical)
    (hm : 0 < p.mantissa) (hd : 0 < digits) (h : p.NearsDecimal digits e) :
    Reading.ofDecimal negative digits e = ofBits negative p.bits := by
  have tiny := not_tiny hm h
  have huge := not_huge hp hd h
  have nonzero : ¬digits = 0 := by omega
  have rounds (num den : Nat) (hn : 0 < num) (hden : 0 < den) (near : p.Nears num den) :
      nearest negative num den = ofBits negative p.bits := by
    rw [nearest, nearest?, nearestBits_near hp hn hden near]
    rfl
  have small : ¬((digits == 0) || decide (e + (Nat.toDigits 10 digits).length < -400)) = true := by
    simp only [Bool.or_eq_true, beq_iff_eq, decide_eq_true_eq]
    omega
  simp only [Reading.ofDecimal, if_neg small, if_neg huge]
  split
  · next whole =>
    have one : (-e).toNat = 0 := by omega
    refine rounds _ _ (Nat.mul_pos hd (tenPow_pos _)) Nat.one_pos ?_
    rw [Parts.NearsDecimal, one] at h
    exact h
  · next fractional =>
    have one : e.toNat = 0 := by omega
    refine rounds _ _ hd (tenPow_pos _) ?_
    rw [Parts.NearsDecimal, one, show tenPow 0 = 1 from rfl, Nat.mul_one] at h
    exact h

end EmitterLogic.Binary64
