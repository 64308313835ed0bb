import EmitterLogic.Proofs.Number.Decimal
import EmitterLogic.Number.Shortest

namespace EmitterLogic.Shortest

open Binary64

theorem scaled_uniform (a : Quotient) (e : Int) :
    a.scaled e = ⟨a.num * tenPow e.toNat, a.den * tenPow (-e).toNat⟩ := by
  rw [Quotient.scaled]
  split
  · have none : (-e).toNat = 0 := by omega
    rw [none, show tenPow 0 = 1 from rfl, Nat.mul_one]
  · have none : e.toNat = 0 := by omega
    rw [none, show tenPow 0 = 1 from rfl, Nat.mul_one]

theorem binary_uniform (m : Nat) (e : Int) :
    binary m e = ⟨m * twoPow e.toNat, twoPow (-e).toNat⟩ := by
  rw [binary]
  split
  · have none : (-e).toNat = 0 := by omega
    rw [none]
  · have none : e.toNat = 0 := by omega
    rw [none, show twoPow 0 = 1 from rfl, Nat.mul_one]

variable {p : Parts}

theorem interval_eq (p : Parts) :
    Parts.interval p = ⟨binary p.lowerEnd (p.exponent - 2), binary (4 * p.mantissa) (p.exponent - 2),
      binary (4 * p.mantissa + 2) (p.exponent - 2), p.mantissa % 2 == 0⟩ := rfl

section Ends

variable {a num den : Nat}

theorem end_le (hp : p.Canonical) :
    a * twoPow (p.exponent - 2).toNat * den ≤ num * twoPow (-(p.exponent - 2)).toNat ↔
      a * den * twoPow p.place ≤ 4 * num * unitsOfOne := by
  have least := hp.least
  obtain ⟨u, hu⟩ : ∃ u : Nat, u = 1074 := ⟨_, rfl⟩
  have four : 4 * num * twoPow u = num * twoPow (u + 2) := by
    rw [twoPow_add, Nat.mul_comm 4, Nat.mul_assoc, Nat.mul_comm (twoPow u)]
  rw [unitsOfOne_eq hu, four, Nat.mul_right_comm]
  exact scaled_ge _ _ _ _ (by rw [Parts.place]; omega)

theorem le_end (hp : p.Canonical) :
    num * twoPow (-(p.exponent - 2)).toNat ≤ a * twoPow (p.exponent - 2).toNat * den ↔
      4 * num * unitsOfOne ≤ a * den * twoPow p.place := by
  have least := hp.least
  obtain ⟨u, hu⟩ : ∃ u : Nat, u = 1074 := ⟨_, rfl⟩
  have four : 4 * num * twoPow u = num * twoPow (u + 2) := by
    rw [twoPow_add, Nat.mul_comm 4, Nat.mul_assoc, Nat.mul_comm (twoPow u)]
  rw [unitsOfOne_eq hu, four, Nat.mul_right_comm]
  exact scaled_le _ _ _ _ (by rw [Parts.place]; omega)

end Ends

theorem contains_nears (hp : p.Canonical) {d : Decimal}
    (h : (Parts.interval p).contains d = true) : p.NearsDecimal d.digits d.exponent := by
  rw [interval_eq] at h
  simp only [Interval.contains, scaled_uniform, binary_uniform, Nat.one_mul] at h
  split at h
  · next even =>
    rw [beq_iff_eq] at even
    simp only [Bool.and_eq_true, decide_eq_true_eq, end_le hp, le_end hp] at h
    exact ⟨h.1, h.2, fun odd => by omega⟩
  · simp only [Bool.and_eq_true, decide_eq_true_eq, ← Nat.not_le, end_le hp, le_end hp] at h
    rw [Nat.not_le, Nat.not_le] at h
    exact ⟨Nat.le_of_lt h.1, Nat.le_of_lt h.2, fun _ => h⟩

theorem nearestOnGrid_contains {i : Interval} {e : Int} {d : Decimal}
    (h : nearestOnGrid? i e = some d) : i.contains d = true := by
  simp only [nearestOnGrid?] at h
  split at h
  · next lower upper =>
    split at h
    · cases h
      exact lower
    · cases h
      exact upper
  · next lower _ =>
    cases h
    exact lower
  · next _ upper =>
    cases h
    exact upper
  · cases h

theorem firstOnGrids_contains {i : Interval} {n : Nat} {e : Int} {d : Decimal}
    (h : nearestOnGrid? i (e - n) = some d) : i.contains (firstOnGrids i n e) = true := by
  induction n generalizing e with
  | zero =>
    rw [Int.natCast_zero, Int.sub_zero] at h
    rw [firstOnGrids, h]
    exact nearestOnGrid_contains h
  | succ n ih =>
    rw [firstOnGrids]
    cases here : nearestOnGrid? i e with
    | some d => exact nearestOnGrid_contains here
    | none =>
      refine ih ?_
      have next : e - 1 - (n : Int) = e - ((n + 1 : Nat) : Int) := by omega
      rw [next]
      exact h

section LeadingExponent

theorem tenPow_le_twoPow {n : Nat} (h : n < 1100) :
    tenPow (n * 30103 / 100000 - 1) ≤ twoPow (n - 1) := by
  have all : ((List.range 1100).all fun n =>
      Nat.ble (tenPow (n * 30103 / 100000 - 1)) (twoPow (n - 1))) = true := by decide +kernel
  exact Nat.le_of_ble_eq_true (List.all_eq_true.mp all n (List.mem_range.mpr h))

theorem twoPow_le_tenPow {n : Nat} (h : n < 1100) :
    twoPow (n + 1) ≤ tenPow ((n * 30103 + 99999) / 100000 + 1) := by
  have all : ((List.range 1100).all fun n =>
      Nat.ble (twoPow (n + 1)) (tenPow ((n * 30103 + 99999) / 100000 + 1))) = true := by
    decide +kernel
  exact Nat.le_of_ble_eq_true (List.all_eq_true.mp all n (List.mem_range.mpr h))

theorem guess_sound {k : Int} (low : -1100 < k) (high : k < 1100) :
    tenPow (k * 30103 / 100000 - 1).toNat * twoPow (1 - k).toNat ≤
      twoPow (k - 1).toNat * tenPow (1 - k * 30103 / 100000).toNat := by
  rcases Int.lt_or_le 0 k with positive | negative
  · obtain ⟨n, rfl⟩ : ∃ n : Nat, k = n := ⟨k.toNat, by omega⟩
    have ten : ((n : Int) * 30103 / 100000 - 1).toNat = n * 30103 / 100000 - 1 := by omega
    have one : (1 - (n : Int)).toNat = 0 := by omega
    have two : ((n : Int) - 1).toNat = n - 1 := by omega
    rw [ten, one, two, show twoPow 0 = 1 from rfl, Nat.mul_one]
    exact Nat.le_trans (tenPow_le_twoPow (by omega)) (Nat.le_mul_of_pos_right _ (tenPow_pos _))
  · obtain ⟨n, rfl⟩ : ∃ n : Nat, k = -n := ⟨(-k).toNat, by omega⟩
    have one : (-(n : Int) * 30103 / 100000 - 1).toNat = 0 := by omega
    have two : (1 - -(n : Int)).toNat = n + 1 := by omega
    have none : (-(n : Int) - 1).toNat = 0 := by omega
    have ten : (1 - -(n : Int) * 30103 / 100000).toNat = (n * 30103 + 99999) / 100000 + 1 := by
      omega
    rw [one, two, none, ten, show tenPow 0 = 1 from rfl, show twoPow 0 = 1 from rfl, Nat.one_mul,
      Nat.one_mul]
    exact twoPow_le_tenPow (by omega)

theorem leadingExponent_le {v : Quotient} (hn : 0 < v.num)
    (low : (-1100 : Int) < (v.num.log2 : Int) - v.den.log2)
    (high : (v.num.log2 : Int) - v.den.log2 < 1100) :
    v.den * tenPow (leadingExponent v).toNat ≤ v.num * tenPow (-leadingExponent v).toNat := by
  obtain ⟨k, hk⟩ : ∃ k : Int, k = (v.num.log2 : Int) - v.den.log2 := ⟨_, rfl⟩
  obtain ⟨guess, hg⟩ : ∃ guess : Int, guess = k * 30103 / 100000 := ⟨_, rfl⟩
  have sound := guess_sound (hk ▸ low) (hk ▸ high)
  rw [← hg] at sound
  obtain ⟨reaches, hr⟩ : ∃ reaches : Int → Bool, reaches = fun e =>
      if 0 ≤ e then decide (v.den * tenPow e.toNat ≤ v.num)
      else decide (v.den ≤ v.num * tenPow (-e).toNat) := ⟨_, rfl⟩
  have uniform {e : Int} (h : reaches e = true) :
      v.den * tenPow e.toNat ≤ v.num * tenPow (-e).toNat := by
    rw [hr] at h
    simp only at h
    split at h
    · have none : (-e).toNat = 0 := by omega
      rw [none, show tenPow 0 = 1 from rfl, Nat.mul_one]
      exact of_decide_eq_true h
    · have none : e.toNat = 0 := by omega
      rw [none, show tenPow 0 = 1 from rfl, Nat.mul_one]
      exact of_decide_eq_true h
  have chosen : leadingExponent v =
      if !reaches guess then guess - 1 else if reaches (guess + 1) then guess + 1 else guess := by
    rw [hr, hg, hk]
    rfl
  rw [chosen]
  split
  · have numLow : twoPow v.num.log2 ≤ v.num := Nat.log2_self_le (by omega)
    have denHigh : v.den < twoPow (v.den.log2 + 1) := Nat.lt_log2_self
    have swap : -(guess - 1) = 1 - guess := by omega
    rw [swap]
    refine Nat.le_of_mul_le_mul_right ?_ (twoPow_pos (1 - k).toNat)
    calc v.den * tenPow (guess - 1).toNat * twoPow (1 - k).toNat
        = v.den * (tenPow (guess - 1).toNat * twoPow (1 - k).toNat) := Nat.mul_assoc _ _ _
      _ ≤ twoPow (v.den.log2 + 1) * (twoPow (k - 1).toNat * tenPow (1 - guess).toNat) :=
          Nat.mul_le_mul (Nat.le_of_lt denHigh) sound
      _ = twoPow (v.num.log2 + (1 - k).toNat) * tenPow (1 - guess).toNat := by
          rw [← Nat.mul_assoc, ← twoPow_add]
          congr 2
          omega
      _ = twoPow v.num.log2 * tenPow (1 - guess).toNat * twoPow (1 - k).toNat := by
          rw [twoPow_add, Nat.mul_right_comm]
      _ ≤ v.num * tenPow (1 - guess).toNat * twoPow (1 - k).toNat :=
          Nat.mul_le_mul_right _ (Nat.mul_le_mul_right _ numLow)
  · next reached =>
    split
    · next more => exact uniform more
    · exact uniform (by simpa using reached)

end LeadingExponent

theorem ten_scaled_le {m n : Nat} (i j i' j' : Nat) (h : i + j' = i' + j) :
    m * tenPow i ≤ n * tenPow j → m * tenPow i' ≤ n * tenPow j' := by
  intro le
  have left : m * tenPow i * tenPow (i' + j') = m * tenPow i' * tenPow (i + j') := by
    rw [Nat.mul_assoc, Nat.mul_assoc, ← tenPow_add, ← tenPow_add]
    congr 2
    omega
  have right : n * tenPow j * tenPow (i' + j') = n * tenPow j' * tenPow (i + j') := by
    rw [Nat.mul_assoc, Nat.mul_assoc, ← tenPow_add, ← tenPow_add]
    congr 2
    omega
  rw [← Nat.mul_le_mul_right_iff (tenPow_pos (i + j')), ← left, ← right]
  exact Nat.mul_le_mul_right _ le

theorem log2_twoPow (k : Nat) : (twoPow k).log2 = k :=
  log2_of_lt (Nat.le_refl _) (Nat.pow_lt_pow_right (by decide) (Nat.lt_succ_self k))

theorem value_eq (p : Parts) : (Parts.interval p).value =
    ⟨4 * p.mantissa * twoPow (p.exponent - 2).toNat, twoPow (-(p.exponent - 2)).toNat⟩ :=
  binary_uniform (4 * p.mantissa) (p.exponent - 2)

theorem value_log2 (hp : p.Canonical) (hm : 0 < p.mantissa) :
    (-1100 : Int) < ((Parts.interval p).value.num.log2 : Int) - (Parts.interval p).value.den.log2 ∧
      ((Parts.interval p).value.num.log2 : Int) - (Parts.interval p).value.den.log2 < 1100 := by
  have mantissa := hp.mantissa_lt
  have least := hp.least
  have greatest := hp.greatest
  obtain ⟨k, hk⟩ : ∃ k, k = (p.exponent - 2).toNat := ⟨_, rfl⟩
  have low : k ≤ (4 * p.mantissa * twoPow k).log2 := by
    refine (Nat.le_log2 (Nat.ne_of_gt (Nat.mul_pos (by omega) (twoPow_pos k)))).mpr ?_
    exact Nat.le_mul_of_pos_left _ (by omega)
  have high : (4 * p.mantissa * twoPow k).log2 < 55 + k := by
    refine (Nat.log2_lt (Nat.ne_of_gt (Nat.mul_pos (by omega) (twoPow_pos k)))).mpr ?_
    rw [Nat.pow_add]
    refine Nat.mul_lt_mul_of_pos_right ?_ (twoPow_pos k)
    rw [twoPow_53] at mantissa
    omega
  rw [value_eq, log2_twoPow, ← hk]
  simp only
  omega

section FinestGrid

theorem nearestOnGrid_of_floor {i : Interval} {f : Nat} {g : Int}
    (floor : (i.value.scaled (-g)).num / (i.value.scaled (-g)).den = f)
    (hit : i.contains ⟨f, g⟩ = true) : ∃ d, nearestOnGrid? i g = some d := by
  simp only [nearestOnGrid?, floor, hit]
  cases i.contains ⟨f + 1, g⟩ with
  | true =>
    simp only
    split
    · exact ⟨_, rfl⟩
    · exact ⟨_, rfl⟩
  | false => exact ⟨_, rfl⟩

theorem quadruple_le (hp : p.Canonical) : 4 * p.mantissa ≤ tenPow 17 := by
  have mantissa := hp.mantissa_lt
  rw [twoPow_53] at mantissa
  have power : tenPow 17 = 100000000000000000 := rfl
  omega

theorem finestGrid_fine (hp : p.Canonical) (hm : 0 < p.mantissa) {g : Int}
    (hg : g = leadingExponent (Parts.interval p).value - (17 : Nat)) :
    twoPow (-(p.exponent - 2)).toNat * tenPow g.toNat ≤
      twoPow (p.exponent - 2).toNat * tenPow (-g).toNat := by
  obtain ⟨lowLog, highLog⟩ := value_log2 hp hm
  have first := leadingExponent_le (v := (Parts.interval p).value)
    (by rw [value_eq]; exact Nat.mul_pos (by omega) (twoPow_pos _)) lowLog highLog
  obtain ⟨l, hl⟩ : ∃ l : Int, l = leadingExponent (Parts.interval p).value := ⟨_, rfl⟩
  rw [← hl] at hg
  rw [← hl, value_eq] at first
  have moved := ten_scaled_le _ _ (g.toNat + 17) (-g).toNat (by omega) first
  obtain ⟨t, ht⟩ : ∃ t, t = twoPow (p.exponent - 2).toNat := ⟨_, rfl⟩
  obtain ⟨v, hv⟩ : ∃ v, v = twoPow (-(p.exponent - 2)).toNat := ⟨_, rfl⟩
  rw [← ht, ← hv] at moved ⊢
  refine Nat.le_of_mul_le_mul_right ?_ (tenPow_pos 17)
  calc v * tenPow g.toNat * tenPow 17 = v * tenPow (g.toNat + 17) := by
        rw [tenPow_add, Nat.mul_assoc]
    _ ≤ 4 * p.mantissa * t * tenPow (-g).toNat := moved
    _ ≤ tenPow 17 * t * tenPow (-g).toNat := Nat.mul_le_mul_right _ (Nat.mul_le_mul_right _ (quadruple_le hp))
    _ = t * tenPow (-g).toNat * tenPow 17 := by rw [Nat.mul_assoc, Nat.mul_comm]

theorem floor_inside (hm : 0 < p.mantissa) {t b v a f : Nat} (positive : 0 < v * a)
    (fine : v * a ≤ t * b) (floor : f = 4 * p.mantissa * t * b / (v * a)) :
    p.lowerEnd * t * b < f * a * v ∧ f * a * v < (4 * p.mantissa + 2) * t * b := by
  have below : f * (v * a) ≤ 4 * p.mantissa * t * b := floor ▸ Nat.div_mul_le_self _ _
  have above : 4 * p.mantissa * t * b < f * (v * a) + v * a := by
    rw [floor]
    exact Nat.lt_div_mul_add positive
  rw [Nat.mul_assoc] at below above
  rw [Nat.mul_assoc, Nat.mul_assoc f, Nat.mul_comm a, Nat.mul_assoc _ t b]
  constructor
  · have close : p.lowerEnd * (t * b) + t * b ≤ 4 * p.mantissa * (t * b) := by
      rw [← Nat.succ_mul]
      refine Nat.mul_le_mul_right _ ?_
      rw [Parts.lowerEnd]
      split <;> omega
    omega
  · have more : 4 * p.mantissa * (t * b) < (4 * p.mantissa + 2) * (t * b) :=
      Nat.mul_lt_mul_of_pos_right (by omega) (Nat.lt_of_lt_of_le positive fine)
    omega

theorem finestGrid_hits (hp : p.Canonical) (hm : 0 < p.mantissa) :
    ∃ d, nearestOnGrid? (Parts.interval p)
      (leadingExponent (Parts.interval p).value - (17 : Nat)) = some d := by
  obtain ⟨g, hg⟩ : ∃ g : Int, g = leadingExponent (Parts.interval p).value - (17 : Nat) := ⟨_, rfl⟩
  have fine := finestGrid_fine hp hm hg
  rw [← hg]
  refine nearestOnGrid_of_floor rfl ?_
  have swap : - -g = g := by omega
  rw [value_eq, scaled_uniform, swap]
  obtain ⟨lower, upper⟩ := floor_inside hm (Nat.mul_pos (twoPow_pos _) (tenPow_pos _)) fine rfl
  rw [interval_eq]
  simp only [Interval.contains, scaled_uniform, binary_uniform, Nat.one_mul]
  split
  · simp only [Nat.le_of_lt lower, Nat.le_of_lt upper, decide_true, Bool.and_self]
  · simp only [lower, upper, decide_true, Bool.and_self]

end FinestGrid

theorem shortest_nears (hp : p.Canonical) (hm : 0 < p.mantissa) :
    p.NearsDecimal (Parts.shortest p).digits (Parts.shortest p).exponent := by
  obtain ⟨d, hit⟩ := finestGrid_hits hp hm
  exact contains_nears hp (firstOnGrids_contains hit)

end EmitterLogic.Shortest
