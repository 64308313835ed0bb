import EmitterLogic.Proofs.Number.Sign

namespace EmitterLogic.Binary64

theorem scaled_le {m n : Nat} (i j i' j' : Nat) (h : i + j' = i' + j) :
    m * twoPow j ≤ n * twoPow i ↔ m * twoPow j' ≤ n * twoPow i' := by
  have left : m * twoPow j * twoPow (i' + j') = m * twoPow j' * twoPow (i' + j) := by
    rw [Nat.mul_assoc, Nat.mul_assoc, ← twoPow_add, ← twoPow_add]
    congr 2
    omega
  have right : n * twoPow i * twoPow (i' + j') = n * twoPow i' * twoPow (i' + j) := by
    rw [Nat.mul_assoc, Nat.mul_assoc, ← twoPow_add, ← twoPow_add]
    congr 2
    omega
  rw [← Nat.mul_le_mul_right_iff (twoPow_pos (i' + j')), left, right,
    Nat.mul_le_mul_right_iff (twoPow_pos (i' + j))]

theorem scaled_ge {m n : Nat} (i j i' j' : Nat) (h : i + j' = i' + j) :
    n * twoPow i ≤ m * twoPow j ↔ n * twoPow i' ≤ m * twoPow j' :=
  scaled_le j i j' i' (by omega)

theorem scaled_lt {m n : Nat} (i j i' j' : Nat) (h : i + j' = i' + j) :
    m * twoPow j < n * twoPow i ↔ m * twoPow j' < n * twoPow i' := by
  rw [← Nat.not_le, ← Nat.not_le, scaled_ge i j i' j' h]

theorem scaled_eq (num den : Nat) (q : Int) :
    scaled num den q = (num * twoPow (-q).toNat, den * twoPow q.toNat) := by
  rw [scaled]
  split
  · have none : (-q).toNat = 0 := by omega
    rw [none]
    exact congrArg (·, _) (Nat.mul_one num).symm
  · have none : q.toNat = 0 := by omega
    rw [none]
    exact congrArg (_, ·) (Nat.mul_one den).symm

section LastPlace

variable {num den : Nat}

theorem place_of_log2 (hn : 0 < num) (hd : 0 < den) {q : Int}
    (h : q = (num.log2 : Int) - den.log2 - 53) :
    twoPow 52 * den * twoPow q.toNat ≤ num * twoPow (-q).toNat ∧
      num * twoPow (-q).toNat < twoPow 54 * den * twoPow q.toNat := by
  have numLow : twoPow num.log2 ≤ num := Nat.log2_self_le (by omega)
  have numHigh : num < twoPow (num.log2 + 1) := Nat.lt_log2_self
  have denLow : twoPow den.log2 ≤ den := Nat.log2_self_le (by omega)
  have denHigh : den < twoPow (den.log2 + 1) := Nat.lt_log2_self
  obtain ⟨a, ha⟩ : ∃ a, a = num.log2 := ⟨_, rfl⟩
  obtain ⟨b, hb⟩ : ∃ b, b = den.log2 := ⟨_, rfl⟩
  obtain ⟨i, hi⟩ : ∃ i, i = q.toNat := ⟨_, rfl⟩
  obtain ⟨j, hj⟩ : ∃ j, j = (-q).toNat := ⟨_, rfl⟩
  rw [← ha] at h numLow numHigh
  rw [← hb] at h denLow denHigh
  rw [← hi, ← hj]
  have balance : a + j = 53 + b + i := by omega
  constructor
  · calc twoPow 52 * den * twoPow i ≤ twoPow 52 * twoPow (b + 1) * twoPow i :=
          Nat.mul_le_mul_right _ (Nat.mul_le_mul_left _ (Nat.le_of_lt denHigh))
      _ = twoPow (a + j) := by
          rw [← twoPow_add, ← twoPow_add, balance]
          congr 1
          omega
      _ = twoPow a * twoPow j := twoPow_add a j
      _ ≤ num * twoPow j := Nat.mul_le_mul_right _ numLow
  · calc num * twoPow j < twoPow (a + 1) * twoPow j :=
          Nat.mul_lt_mul_of_pos_right numHigh (twoPow_pos j)
      _ = twoPow 54 * twoPow b * twoPow i := by
          rw [← twoPow_add, ← twoPow_add, ← twoPow_add]
          congr 1
          omega
      _ ≤ twoPow 54 * den * twoPow i := Nat.mul_le_mul_right _ (Nat.mul_le_mul_left _ denLow)

theorem lastPlace_spec (hn : 0 < num) (hd : 0 < den) :
    -1074 ≤ lastPlace num den ∧
      num * unitsOfOne < twoPow 53 * den * twoPow (lastPlace num den + 1074).toNat ∧
      (lastPlace num den = -1074 ∨
        twoPow 52 * den * twoPow (lastPlace num den + 1074).toNat ≤ num * unitsOfOne) := by
  obtain ⟨guess, hg⟩ : ∃ guess : Int, guess = (num.log2 : Int) - den.log2 - 53 := ⟨_, rfl⟩
  obtain ⟨low, high⟩ := place_of_log2 hn hd hg
  obtain ⟨u, hu⟩ : ∃ u : Nat, u = 1074 := ⟨_, rfl⟩
  rw [unitsOfOne_eq hu]
  have fits : ∃ q : Int, lastPlace num den = max q (-1074) ∧
      twoPow 52 * den * twoPow q.toNat ≤ num * twoPow (-q).toNat ∧
      num * twoPow (-q).toNat < twoPow 53 * den * twoPow q.toNat := by
    by_cases small : num * twoPow (-guess).toNat < twoPow 53 * den * twoPow guess.toNat
    · have quotient : num * twoPow (-guess).toNat / (den * twoPow guess.toNat) < twoPow 53 := by
        rw [Nat.div_lt_iff_lt_mul (Nat.mul_pos hd (twoPow_pos _)), ← Nat.mul_assoc]
        exact small
      refine ⟨guess, ?_, low, small⟩
      simp only [lastPlace, ← hg, scaled_eq, if_pos quotient]
    · have quotient : ¬num * twoPow (-guess).toNat / (den * twoPow guess.toNat) < twoPow 53 := by
        rw [Nat.div_lt_iff_lt_mul (Nat.mul_pos hd (twoPow_pos _)), ← Nat.mul_assoc]
        exact small
      have double (c : Nat) : twoPow c * den * twoPow (guess.toNat + 1) =
          twoPow (c + 1) * den * twoPow guess.toNat := by
        rw [twoPow_add, twoPow_add, Nat.mul_comm (twoPow guess.toNat), ← Nat.mul_assoc,
          Nat.mul_right_comm (twoPow c)]
      refine ⟨guess + 1, ?_, ?_, ?_⟩
      · simp only [lastPlace, ← hg, scaled_eq, if_neg quotient]
      · rw [scaled_ge _ _ (guess.toNat + 1) (-guess).toNat (by omega), double]
        exact Nat.le_of_not_lt small
      · rw [scaled_lt _ _ (guess.toNat + 1) (-guess).toNat (by omega), double]
        exact high
  obtain ⟨q, place, low, high⟩ := fits
  rw [place]
  by_cases least : -1074 ≤ q
  · have kept : max q (-1074) = q := Int.max_eq_left least
    rw [kept]
    refine ⟨least, ?_, .inr ?_⟩
    · exact (scaled_lt _ _ _ _ (by omega)).mp high
    · exact (scaled_ge _ _ _ _ (by omega)).mp low
  · have kept : max q (-1074) = -1074 := Int.max_eq_right (by omega)
    rw [kept]
    refine ⟨Int.le_refl _, ?_, .inl rfl⟩
    have here : num * twoPow (-q).toNat < twoPow 53 * den * twoPow ((-q).toNat - u) := by
      refine Nat.lt_of_lt_of_le high (Nat.mul_le_mul_left _ (twoPow_le ?_))
      omega
    exact (scaled_lt _ _ _ _ (by omega)).mp here

end LastPlace

theorem nearestNat_eq {n d w : Nat} (hd : 0 < d) (low : 2 * w * d ≤ 2 * n + d)
    (high : 2 * n ≤ (2 * w + 1) * d)
    (odd : w % 2 = 1 → 2 * w * d < 2 * n + d ∧ 2 * n < (2 * w + 1) * d) :
    nearestNat n d = w := by
  obtain ⟨t, ht⟩ : ∃ t, t = n / d := ⟨_, rfl⟩
  obtain ⟨r, hr⟩ : ∃ r, r = n % d := ⟨_, rfl⟩
  have split : n = d * t + r := by rw [ht, hr, Nat.div_add_mod]
  have short : r < d := hr ▸ Nat.mod_lt n hd
  have cases : w = t ∨ w = t + 1 := by
    have above : w < t + 2 := by
      refine Nat.lt_of_mul_lt_mul_right (a := d) ?_
      rw [Nat.add_mul, Nat.mul_comm t d]
      rw [Nat.mul_assoc] at low
      omega
    have below : t < w + 1 := by
      refine Nat.lt_of_mul_lt_mul_right (a := d) ?_
      rw [Nat.add_mul, Nat.mul_comm t d]
      rw [Nat.add_mul, Nat.mul_assoc] at high
      omega
    omega
  simp only [nearestNat, ← ht, ← hr]
  rcases cases with rfl | rfl
  · have stays : ¬(decide (2 * r > d) || (2 * r == d && w % 2 == 1)) = true := by
      rw [Nat.add_mul, Nat.mul_assoc, Nat.mul_comm w d] at high odd
      simp only [Bool.or_eq_true, decide_eq_true_eq, Bool.and_eq_true, beq_iff_eq]
      omega
    rw [if_neg stays]
  · have goes : (decide (2 * r > d) || (2 * r == d && t % 2 == 1)) = true := by
      rw [Nat.mul_assoc, Nat.add_mul, Nat.mul_comm t d] at low odd
      simp only [Bool.or_eq_true, decide_eq_true_eq, Bool.and_eq_true, beq_iff_eq]
      omega
    rw [if_pos goes]

def Parts.place (p : Parts) : Nat := (p.exponent + 1074).toNat

def Parts.lowerEnd (p : Parts) : Nat :=
  if p.mantissa == twoPow 52 && -1074 < p.exponent then 4 * p.mantissa - 1 else 4 * p.mantissa - 2

structure Parts.Nears (p : Parts) (num den : Nat) : Prop where
  low : p.lowerEnd * den * twoPow p.place ≤ 4 * num * unitsOfOne
  high : 4 * num * unitsOfOne ≤ (4 * p.mantissa + 2) * den * twoPow p.place
  odd : p.mantissa % 2 = 1 → p.lowerEnd * den * twoPow p.place < 4 * num * unitsOfOne ∧
    4 * num * unitsOfOne < (4 * p.mantissa + 2) * den * twoPow p.place

theorem lowerEnd_ge (p : Parts) : 4 * p.mantissa - 2 ≤ p.lowerEnd := by
  rw [Parts.lowerEnd]
  split <;> omega

section Nears

variable {p : Parts} {num den : Nat}

theorem twoPow_scaled_le (c : Nat) {i k : Nat} (h : i + c ≤ k) :
    twoPow c * (den * twoPow i) ≤ den * twoPow k := by
  rw [Nat.mul_left_comm, ← twoPow_add]
  exact Nat.mul_le_mul_left _ (twoPow_le (by omega))

theorem lowerEnd_power (power : p.mantissa = twoPow 52) (inside : -1074 < p.exponent) :
    p.lowerEnd = 18014398509481983 := by
  rw [Parts.lowerEnd, if_pos (by simp only [power, inside, beq_self_eq_true, decide_true,
    Bool.and_self]), power]
  rfl

theorem lastPlace_near (hp : p.Canonical) (hn : 0 < num) (hd : 0 < den) (h : p.Nears num den) :
    lastPlace num den = p.exponent ∨
      (lastPlace num den = p.exponent - 1 ∧ p.mantissa = twoPow 52 ∧ -1074 < p.exponent) := by
  obtain ⟨least, above, below⟩ := lastPlace_spec hn hd
  have low := h.low
  have high := h.high
  have mantissa := hp.mantissa_lt
  have exponent := hp.least
  obtain ⟨q, hq⟩ : ∃ q, q = lastPlace num den := ⟨_, rfl⟩
  obtain ⟨x, hx⟩ : ∃ x, x = num * unitsOfOne := ⟨_, rfl⟩
  obtain ⟨y, hy⟩ : ∃ y, y = den * twoPow p.place := ⟨_, rfl⟩
  obtain ⟨z, hz⟩ : ∃ z, z = den * twoPow (q + 1074).toNat := ⟨_, rfl⟩
  have positive : 0 < y := hy ▸ Nat.mul_pos hd (twoPow_pos _)
  rw [Nat.mul_assoc 4, ← hx, Nat.mul_assoc, ← hy] at low high
  rw [← hx, ← hq, Nat.mul_assoc, ← hz] at above below
  rw [← hq] at least ⊢
  rcases Int.lt_trichotomy q p.exponent with less | same | more
  · right
    have normal : twoPow 52 ≤ p.mantissa := by
      refine Nat.le_of_not_lt fun small => ?_
      have := hp.small small
      omega
    have half : 2 * z ≤ y := by
      rw [hy, hz]
      exact twoPow_scaled_le 1 (by rw [Parts.place]; omega)
    have power : p.mantissa = twoPow 52 := by
      refine Nat.le_antisymm (Nat.le_of_not_lt fun big => ?_) normal
      have far : 18014398509481986 * y ≤ p.lowerEnd * y := by
        refine Nat.mul_le_mul_right _ (Nat.le_trans ?_ (lowerEnd_ge p))
        rw [twoPow_52] at big
        omega
      rw [twoPow_53] at above
      omega
    have inside : -1074 < p.exponent := by omega
    refine ⟨?_, power, inside⟩
    refine Int.le_antisymm (by omega) (Int.le_of_not_gt fun far => ?_)
    have quarter : 4 * z ≤ y := by
      rw [hy, hz]
      exact twoPow_scaled_le 2 (by rw [Parts.place]; omega)
    rw [lowerEnd_power power inside] at low
    rw [twoPow_53] at above
    omega
  · exact .inl same
  · exfalso
    have double : 2 * y ≤ z := by
      rw [hy, hz]
      exact twoPow_scaled_le 1 (by rw [Parts.place]; omega)
    have short : (4 * p.mantissa + 2) * y ≤ 36028797018963966 * y := by
      refine Nat.mul_le_mul_right _ ?_
      rw [twoPow_53] at mantissa
      omega
    rw [twoPow_52] at below
    omega

section InPlace

variable {a c k : Nat} {q : Int}

theorem bound_in_place (h : (k : Int) = q + 1074) :
    a * den * twoPow k ≤ c * num * unitsOfOne ↔
      a * (den * twoPow q.toNat) ≤ c * (num * twoPow (-q).toNat) := by
  obtain ⟨u, hu⟩ : ∃ u : Nat, u = 1074 := ⟨_, rfl⟩
  rw [unitsOfOne_eq hu, scaled_ge k u q.toNat (-q).toNat (by omega), Nat.mul_assoc, Nat.mul_assoc]

theorem bounded_in_place (h : (k : Int) = q + 1074) :
    c * num * unitsOfOne ≤ a * den * twoPow k ↔
      c * (num * twoPow (-q).toNat) ≤ a * (den * twoPow q.toNat) := by
  obtain ⟨u, hu⟩ : ∃ u : Nat, u = 1074 := ⟨_, rfl⟩
  rw [unitsOfOne_eq hu, scaled_le k u q.toNat (-q).toNat (by omega), Nat.mul_assoc, Nat.mul_assoc]

end InPlace

theorem nearestNat_here (h : p.Nears num den) {q : Int} {n d : Nat} (place : (p.place : Int) = q + 1074)
    (positive : 0 < d) (n_eq : n = num * twoPow (-q).toNat) (d_eq : d = den * twoPow q.toNat) :
    nearestNat n d = p.mantissa := by
  have ends : 4 * p.mantissa * d ≤ p.lowerEnd * d + 2 * d := by
    rw [← Nat.add_mul]
    exact Nat.mul_le_mul_right _ (by have := lowerEnd_ge p; omega)
  have low := (bound_in_place place).mp h.low
  have high := (bounded_in_place place).mp h.high
  rw [← n_eq, ← d_eq] at low high
  refine nearestNat_eq positive ?_ ?_ fun odd => ?_
  · rw [Nat.mul_assoc] at ends ⊢
    omega
  · rw [Nat.add_mul, Nat.mul_assoc] at high ⊢
    omega
  · obtain ⟨above, below⟩ := h.odd odd
    rw [← Nat.not_le, bounded_in_place place, ← n_eq, ← d_eq] at above
    rw [← Nat.not_le, bound_in_place place, ← n_eq, ← d_eq] at below
    rw [Nat.add_mul, Nat.mul_assoc] at below ⊢
    rw [Nat.mul_assoc] at ends
    omega

theorem nearestNat_below (hn : 0 < num) (hd : 0 < den) (h : p.Nears num den) {q : Int} {n d : Nat}
    (last : q = lastPlace num den) (lower : q = p.exponent - 1) (power : p.mantissa = twoPow 52)
    (inside : -1074 < p.exponent) (n_eq : n = num * twoPow (-q).toNat)
    (d_eq : d = den * twoPow q.toNat) : nearestNat n d = twoPow 53 := by
  have positive : 0 < d := d_eq ▸ Nat.mul_pos hd (twoPow_pos _)
  have place : (((q + 1074).toNat : Nat) : Int) = q + 1074 := by omega
  have above : 18014398509481983 * d ≤ 2 * n := by
    have next : p.place = (q + 1074).toNat + 1 := by rw [Parts.place]; omega
    have low := h.low
    rw [lowerEnd_power power inside, next, twoPow_add, ← Nat.mul_assoc,
      Nat.mul_right_comm _ _ (twoPow 1)] at low
    have halved : 18014398509481983 * den * twoPow (q + 1074).toNat ≤ 2 * num * unitsOfOne := by
      rw [twoPow_one, Nat.mul_right_comm _ den 2, Nat.mul_assoc _ _ (twoPow _), Nat.mul_assoc 4] at low
      rw [Nat.mul_assoc, Nat.mul_assoc 2]
      omega
    rw [n_eq, d_eq]
    exact (bound_in_place place).mp halved
  have below : n < twoPow 53 * d := by
    obtain ⟨_, below, _⟩ := lastPlace_spec hn hd
    rw [← last, ← Nat.one_mul num, ← Nat.not_le, bound_in_place place, ← n_eq, ← d_eq,
      Nat.one_mul] at below
    exact Nat.lt_of_not_le below
  rw [twoPow_53] at below ⊢
  have even : ¬9007199254740992 % 2 = 1 := by decide
  exact nearestNat_eq positive (by omega) (by omega) fun odd => absurd odd even

theorem nearestBits_near (hp : p.Canonical) (hn : 0 < num) (hd : 0 < den) (h : p.Nears num den) :
    nearestBits num den = some p.bits := by
  have finite := hp.bits_lt
  have least := hp.least
  have nonzero : ¬(num == 0) = true := by
    rw [beq_iff_eq]
    omega
  obtain ⟨q, hq⟩ : ∃ q, q = lastPlace num den := ⟨_, rfl⟩
  obtain ⟨n, n_eq⟩ : ∃ n, n = num * twoPow (-q).toNat := ⟨_, rfl⟩
  obtain ⟨d, d_eq⟩ : ∃ d, d = den * twoPow q.toNat := ⟨_, rfl⟩
  suffices rounded : nearestNat n d + (q + 1074).toNat * twoPow 52 = p.bits by
    simp only [nearestBits, if_neg nonzero, scaled_eq, ← hq, ← n_eq, ← d_eq, rounded,
      if_pos finite]
  have near := lastPlace_near hp hn hd h
  rw [← hq] at near
  rcases near with same | ⟨lower, power, inside⟩
  · have place : (p.place : Int) = q + 1074 := by rw [Parts.place]; omega
    rw [nearestNat_here h place (d_eq ▸ Nat.mul_pos hd (twoPow_pos _)) n_eq d_eq, Parts.bits, same]
  · have next : (p.exponent + 1074).toNat = (q + 1074).toNat + 1 := by omega
    have double : twoPow 53 = twoPow 52 + twoPow 52 := rfl
    rw [nearestNat_below hn hd h hq lower power inside n_eq d_eq, Parts.bits, power, next,
      Nat.succ_mul, double]
    omega

end Nears

end EmitterLogic.Binary64
