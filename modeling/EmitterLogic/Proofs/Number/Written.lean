import EmitterLogic.Proofs.Datum.InRange
import EmitterLogic.Proofs.Number.Shortest
import EmitterLogic.Proofs.Number.Spelling
import EmitterLogic.Kotlin.Literal
import Mathlib.Data.List.TakeDrop

namespace EmitterLogic

open Binary64 Shortest

namespace Numeral

theorem fractionChars_eq (cs : List Char) :
    fractionChars cs = if cs.isEmpty then [] else '.' :: cs := by
  cases cs <;> rfl

def Nears (s : Numeral) (p : Parts) : Prop := p.NearsDecimal s.digits s.power

theorem digits_pos {p : Parts} {digits : Nat} {e : Int} (hm : 0 < p.mantissa)
    (h : p.NearsDecimal digits e) : 0 < digits := by
  refine Nat.pos_of_ne_zero fun zero => ?_
  have low := h.low
  rw [zero, Nat.zero_mul, Nat.mul_zero, Nat.zero_mul, Nat.le_zero] at low
  have positive : 0 < p.lowerEnd := by
    have := lowerEnd_ge p
    omega
  exact absurd low (Nat.ne_of_gt (Nat.mul_pos (Nat.mul_pos positive (tenPow_pos _)) (twoPow_pos _)))

theorem Nears.value_eq {s : Numeral} {p : Parts} (h : s.Nears p) (hp : p.Canonical)
    (hm : 0 < p.mantissa) : s.value = ofBits false p.bits :=
  ofDecimal_near hp hm (digits_pos hm h) h

end Numeral

theorem AllDigits.append {cs ds : List Char} (hc : AllDigits cs) (hd : AllDigits ds) :
    AllDigits (cs ++ ds) := List.forall_mem_append.mpr ⟨hc, hd⟩

theorem allDigits_zeros (n : Nat) : AllDigits (List.replicate n '0') := by
  intro c h
  rw [(List.mem_replicate.mp h).2]
  rfl

theorem allDigits_toDigits (n : Nat) : AllDigits (Nat.toDigits 10 n) :=
  fun _ h => Nat.isDigit_of_mem_toDigits (by decide) (by decide) h

def kept (cs : List Char) : List Char := (cs.reverse.dropWhile (· == '0')).reverse

theorem eq_kept_append (cs : List Char) : ∃ z, cs = kept cs ++ List.replicate z '0' := by
  have zeros : ∀ c ∈ cs.reverse.takeWhile (· == '0'), c = '0' := fun c h =>
    beq_iff_eq.mp (List.all_eq_true.mp List.all_takeWhile c h)
  refine ⟨(cs.reverse.takeWhile (· == '0')).length, ?_⟩
  calc cs = (cs.reverse.takeWhile (· == '0') ++ cs.reverse.dropWhile (· == '0')).reverse := by
        rw [List.takeWhile_append_dropWhile, List.reverse_reverse]
    _ = kept cs ++ (cs.reverse.takeWhile (· == '0')).reverse := List.reverse_append
    _ = kept cs ++ (List.replicate (cs.reverse.takeWhile (· == '0')).length '0').reverse := by
        rw [← List.eq_replicate_iff.mpr ⟨rfl, zeros⟩]
    _ = kept cs ++ List.replicate (cs.reverse.takeWhile (· == '0')).length '0' := by
        rw [List.reverse_replicate]

section Layout

variable {ds : List Char} {lead : Int}

def Spells (s : Numeral) (ds : List Char) (lead : Int) : Prop :=
  ∀ p : Parts, p.NearsDecimal (natOf ds) (lead + 1 - ds.length) → s.Nears p

theorem spells_of_eq {s : Numeral} (digits : s.digits = natOf ds)
    (power : s.power = lead + 1 - ds.length) : Spells s ds lead := by
  intro p h
  rw [Numeral.Nears, digits, power]
  exact h

theorem noExponent_digits (negative : Bool) (ds : List Char)
    (h : (none : Option (Bool × List Char)) = some (negative, ds)) : ds ≠ [] ∧ AllDigits ds := by
  cases h

theorem fraction_numeral (nonempty : ds ≠ []) (digits : AllDigits ds) (h : lead < 0) :
    ∃ s : Numeral, '0' :: '.' :: List.replicate (-lead - 1).toNat '0' ++ ds = s.chars ∧
      s.exponent = none ∧ Spells s ds lead := by
  have point : List.replicate (-lead - 1).toNat '0' ++ ds ≠ [] := by simp [nonempty]
  refine ⟨{
    whole := ['0']
    fraction := List.replicate (-lead - 1).toNat '0' ++ ds
    whole_ne_nil := List.cons_ne_nil _ _
    whole_digits := List.forall_mem_singleton.mpr rfl
    fraction_digits := (allDigits_zeros _).append digits
    exponent := none
    exponent_digits := noExponent_digits }, ?_, rfl, spells_of_eq ?_ ?_⟩
  · simp only [Numeral.chars, Numeral.fractionChars_eq, List.isEmpty_eq_false_iff.mpr point,
      Numeral.exponentChars]
    simp
  · have zero : natOf ['0'] = 0 := rfl
    simp only [Numeral.digits, natOf_append, zero, natOf_zeros, Nat.zero_mul, Nat.zero_add]
  · simp only [Numeral.power, Numeral.exponentValue, List.length_append, List.length_replicate]
    omega

theorem whole_numeral (nonempty : ds ≠ []) (digits : AllDigits ds) (h : 0 ≤ lead) :
    ∃ s : Numeral, ds.take (lead.toNat + 1) ++ List.replicate (lead.toNat + 1 - ds.length) '0' ++
        '.' :: (if (ds.drop (lead.toNat + 1)).isEmpty then ['0'] else ds.drop (lead.toNat + 1)) =
          s.chars ∧ s.exponent = none ∧ Spells s ds lead := by
  by_cases short : ds.length ≤ lead.toNat + 1
  · have take : ds.take (lead.toNat + 1) = ds := List.take_of_length_le short
    have drop : ds.drop (lead.toNat + 1) = [] := List.drop_of_length_le short
    refine ⟨{
      whole := ds ++ List.replicate (lead.toNat + 1 - ds.length) '0'
      fraction := ['0']
      whole_ne_nil := by simp [nonempty]
      whole_digits := digits.append (allDigits_zeros _)
      fraction_digits := List.forall_mem_singleton.mpr rfl
      exponent := none
      exponent_digits := noExponent_digits }, ?_, rfl, fun p near => ?_⟩
    · simp [take, drop, Numeral.chars, Numeral.fractionChars, Numeral.exponentChars]
    · have zeros : ds ++ List.replicate (lead.toNat + 1 - ds.length) '0' ++ ['0'] =
          ds ++ List.replicate (lead.toNat + 2 - ds.length) '0' := by
        have count : lead.toNat + 2 - ds.length = lead.toNat + 1 - ds.length + 1 := by omega
        rw [count, List.replicate_succ', List.append_assoc]
      have power : (0 : Int) - ((['0'] : List Char).length : Nat) = -1 := rfl
      rw [Numeral.Nears, Numeral.digits, Numeral.power, Numeral.exponentValue, power, zeros,
        natOf_append, natOf_zeros, List.length_replicate, Nat.add_zero]
      refine Parts.NearsDecimal.unshift ?_
      have place : (-1 : Int) + (lead.toNat + 2 - ds.length : Nat) = lead + 1 - ds.length := by omega
      rw [place]
      exact near
  · have point : ds.drop (lead.toNat + 1) ≠ [] := by
      rw [ne_eq, List.drop_eq_nil_iff]
      exact short
    have full : lead.toNat + 1 - ds.length = 0 := by omega
    have front : ds.take (lead.toNat + 1) ≠ [] := by
      simp [List.take_eq_nil_iff, nonempty]
    refine ⟨{
      whole := ds.take (lead.toNat + 1)
      fraction := ds.drop (lead.toNat + 1)
      whole_ne_nil := front
      whole_digits := fun c hc => digits c (List.mem_of_mem_take hc)
      fraction_digits := fun c hc => digits c (List.mem_of_mem_drop hc)
      exponent := none
      exponent_digits := noExponent_digits }, ?_, rfl, spells_of_eq ?_ ?_⟩
    · simp [full, point, Numeral.chars, Numeral.fractionChars_eq, Numeral.exponentChars]
    · rw [Numeral.digits, List.take_append_drop]
    · simp only [Numeral.power, Numeral.exponentValue, List.length_drop]
      clear full
      omega

def scientific (ds : List Char) : List Char :=
  ds.take 1 ++ if (ds.drop 1).isEmpty then [] else '.' :: ds.drop 1

theorem exponent_numeral {es : List Char} (nonempty : ds ≠ []) (digits : AllDigits ds)
    (present : es ≠ []) (exponent : AllDigits es) (value : natOf es = lead.natAbs) :
    ∃ s : Numeral, scientific ds ++ 'e' :: (if lead < 0 then '-' else '+') :: es = s.chars ∧
      Spells s ds lead := by
  have front : ds.take 1 ≠ [] := by simp [List.take_eq_nil_iff, nonempty]
  refine ⟨{
    whole := ds.take 1
    fraction := ds.drop 1
    exponent := some (decide (lead < 0), es)
    whole_ne_nil := front
    whole_digits := fun c hc => digits c (List.mem_of_mem_take hc)
    fraction_digits := fun c hc => digits c (List.mem_of_mem_drop hc)
    exponent_digits := by
      intro negative fs h
      cases h
      exact ⟨present, exponent⟩ }, ?_, spells_of_eq ?_ ?_⟩
  · simp only [scientific, Numeral.chars, Numeral.fractionChars_eq, Numeral.exponentChars,
      List.append_assoc]
    by_cases h : lead < 0 <;> simp [h]
  · rw [Numeral.digits, List.take_append_drop]
  · have length : 0 < ds.length := List.length_pos_iff.mpr nonempty
    simp only [Numeral.power, Numeral.exponentValue, List.length_drop, decide_eq_true_eq, value]
    split <;> omega

end Layout

theorem natOf_dropZeros (cs : List Char) : natOf (cs.dropWhile (· == '0')) = natOf cs := by
  induction cs with
  | nil => rfl
  | cons c cs ih =>
    by_cases zero : c = '0'
    · subst zero
      have leading : natOf ('0' :: cs) = natOf (['0'] ++ cs) := rfl
      rw [List.dropWhile_cons_of_pos rfl, ih, leading, natOf_append, show natOf ['0'] = 0 from rfl,
        Nat.zero_mul, Nat.zero_add]
    · rw [List.dropWhile_cons_of_neg (by simpa using zero)]

section Shortest

variable {p : Parts}

theorem kept_ne_nil {n : Nat} (h : 0 < n) : kept (Nat.toDigits 10 n) ≠ [] := by
  intro empty
  obtain ⟨z, all⟩ := eq_kept_append (Nat.toDigits 10 n)
  have value := natOf_toDigits n
  rw [all, empty, List.nil_append, natOf_zeros] at value
  omega

theorem kept_digits (n : Nat) : AllDigits (kept (Nat.toDigits 10 n)) := by
  obtain ⟨z, all⟩ := eq_kept_append (Nat.toDigits 10 n)
  intro c h
  refine allDigits_toDigits n c ?_
  rw [all]
  exact List.mem_append_left _ h

def leading (d : Decimal) : Int := d.exponent + (Nat.toDigits 10 d.digits).length - 1

theorem kept_nears {d : Decimal} (h : p.NearsDecimal d.digits d.exponent) :
    p.NearsDecimal (natOf (kept (Nat.toDigits 10 d.digits)))
      (leading d + 1 - (kept (Nat.toDigits 10 d.digits)).length) := by
  obtain ⟨z, all⟩ := eq_kept_append (Nat.toDigits 10 d.digits)
  have value := natOf_toDigits d.digits
  have length := congrArg List.length all
  rw [all, natOf_append, natOf_zeros, List.length_replicate, Nat.add_zero] at value
  rw [List.length_append, List.length_replicate] at length
  rw [← value] at h
  have place : leading d + 1 - (kept (Nat.toDigits 10 d.digits)).length = d.exponent + z := by
    rw [leading]
    omega
  rw [place]
  exact h.shift

def paddedExponent (lead : Int) : List Char :=
  if (Nat.toDigits 10 lead.natAbs).length < 2 then '0' :: Nat.toDigits 10 lead.natAbs
  else Nat.toDigits 10 lead.natAbs

theorem paddedExponent_spec (lead : Int) : AllDigits (paddedExponent lead) ∧
    natOf (paddedExponent lead) = lead.natAbs := by
  rw [paddedExponent]
  split
  · have leading : '0' :: Nat.toDigits 10 lead.natAbs = ['0'] ++ Nat.toDigits 10 lead.natAbs := rfl
    refine ⟨List.forall_mem_cons.mpr ⟨rfl, allDigits_toDigits _⟩, ?_⟩
    rw [leading, natOf_append, natOf_toDigits, show natOf ['0'] = 0 from rfl, Nat.zero_mul,
      Nat.zero_add]
  · exact ⟨allDigits_toDigits _, natOf_toDigits _⟩

theorem layout_eq {d : Decimal} {ds : List Char} (h : ds = kept (Nat.toDigits 10 d.digits)) :
    layout d =
      if -4 ≤ leading d ∧ leading d < 16 then
        if leading d < 0 then '0' :: '.' :: List.replicate (-leading d - 1).toNat '0' ++ ds
        else ds.take ((leading d).toNat + 1) ++
          List.replicate ((leading d).toNat + 1 - ds.length) '0' ++
          '.' :: if (ds.drop ((leading d).toNat + 1)).isEmpty then ['0']
            else ds.drop ((leading d).toNat + 1)
      else scientific ds ++ 'e' :: (if leading d < 0 then '-' else '+') ::
        paddedExponent (leading d) := by
  subst h
  rfl

theorem layout_cases {d : Decimal} (hd : 0 < d.digits) :
    (∃ s : Numeral, layout d = s.chars ∧ s.exponent = none ∧
      ∀ p : Parts, p.NearsDecimal d.digits d.exponent → s.Nears p) ∨
    ∃ ds lead, layout d = scientific ds ++ 'e' :: (if lead < 0 then '-' else '+') ::
        paddedExponent lead ∧ ds ≠ [] ∧ AllDigits ds ∧
      ∀ p : Parts, p.NearsDecimal d.digits d.exponent →
        p.NearsDecimal (natOf ds) (lead + 1 - ds.length) := by
  have nonempty := kept_ne_nil hd
  have digits := kept_digits d.digits
  have nears (p : Parts) := kept_nears (p := p) (d := d)
  obtain ⟨ds, hds⟩ : ∃ ds, ds = kept (Nat.toDigits 10 d.digits) := ⟨_, rfl⟩
  simp only [← hds] at nonempty digits nears
  rw [layout_eq hds]
  split
  · split
    · next below =>
      obtain ⟨s, chars, plain, spells⟩ := fraction_numeral nonempty digits below
      exact .inl ⟨s, chars, plain, fun p near => spells p (nears p near)⟩
    · next above =>
      obtain ⟨s, chars, plain, spells⟩ := whole_numeral nonempty digits (Int.not_lt.mp above)
      exact .inl ⟨s, chars, plain, fun p near => spells p (nears p near)⟩
  · exact .inr ⟨_, _, rfl, nonempty, digits, nears⟩

theorem isDigit_ne_e {c : Char} (h : c.isDigit = true) : (c != 'e') = true :=
  of_isDigit (f := fun c => c != 'e') (by decide) h

theorem span_e {front rest : List Char} (h : ∀ c ∈ front, (c != 'e') = true) :
    (front ++ 'e' :: rest).span (· != 'e') = (front, 'e' :: rest) := by
  rw [List.span_eq_takeWhile_dropWhile, List.takeWhile_append_of_pos h,
    List.dropWhile_append_of_pos h]
  simp

theorem span_all {cs : List Char} (h : ∀ c ∈ cs, (c != 'e') = true) :
    cs.span (· != 'e') = (cs, []) := by
  have all : (cs ++ []).takeWhile (· != 'e') = _ := List.takeWhile_append_of_pos h
  have rest : (cs ++ []).dropWhile (· != 'e') = _ := List.dropWhile_append_of_pos h
  rw [List.append_nil] at all rest
  rw [List.span_eq_takeWhile_dropWhile, all, rest]
  simp

theorem signChars_ne_e (negative : Bool) : ∀ c ∈ signChars negative, (c != 'e') = true := by
  cases negative with
  | true => exact List.forall_mem_singleton.mpr rfl
  | false => exact nofun

theorem scientific_ne_e {ds : List Char} (h : AllDigits ds) :
    ∀ c ∈ scientific ds, (c != 'e') = true := by
  rw [scientific, List.forall_mem_append]
  refine ⟨fun c hc => isDigit_ne_e (h c (List.mem_of_mem_take hc)), ?_⟩
  split
  · exact nofun
  · exact List.forall_mem_cons.mpr
      ⟨by decide, fun c hc => isDigit_ne_e (h c (List.mem_of_mem_drop hc))⟩

theorem Numeral.chars_ne_e {s : Numeral} (plain : s.exponent = none) :
    ∀ c ∈ s.chars, (c != 'e') = true := by
  rw [chars, plain, exponentChars, List.append_nil, List.forall_mem_append]
  refine ⟨fun c h => isDigit_ne_e (s.whole_digits c h), ?_⟩
  rw [fractionChars_eq]
  split
  · exact List.forall_mem_nil _
  · exact List.forall_mem_cons.mpr ⟨by decide, fun c h => isDigit_ne_e (s.fraction_digits c h)⟩

def belowZero (p : Parts) : Bool := p.negative && p.mantissa != 0

def Spelled (p : Parts) (text : String) : Prop :=
  ∃ s : Numeral, text = String.ofList (signChars (belowZero p) ++ s.chars) ∧
    s.value = ofBits false p.bits

theorem belowZero_eq (hm : 0 < p.mantissa) : belowZero p = p.negative := by
  have nonzero : (p.mantissa != 0) = true := by simpa using Nat.ne_of_gt hm
  rw [belowZero, nonzero, Bool.and_true]

theorem numeral_eq {x : Float} (h : parts? x = some p) (hm : 0 < p.mantissa) :
    Shortest.numeral x = signChars p.negative ++ layout (Parts.shortest p) := by
  have nonzero : ¬(p.mantissa == 0) = true := by simpa using Nat.ne_of_gt hm
  rw [Shortest.numeral, h]
  simp only [if_neg nonzero]
  cases p.negative <;> rfl

theorem strippedExponent_spec (lead : Int) :
    ∃ es, (if ((paddedExponent lead).dropWhile (· == '0')).isEmpty then ['0']
        else (paddedExponent lead).dropWhile (· == '0')) = es ∧
      es ≠ [] ∧ AllDigits es ∧ natOf es = lead.natAbs := by
  obtain ⟨digits, value⟩ := paddedExponent_spec lead
  rw [← natOf_dropZeros] at value
  refine ⟨_, rfl, ?_⟩
  split
  · next empty =>
    rw [List.isEmpty_iff] at empty
    rw [empty] at value
    exact ⟨List.cons_ne_nil _ _, List.forall_mem_singleton.mpr rfl, value⟩
  · next some =>
    rw [List.isEmpty_iff] at some
    exact ⟨some, fun c h => digits c ((List.dropWhile_sublist _).subset h), value⟩

theorem laidOut_spelled {x : Float} (h : parts? x = some p) (hm : 0 < p.mantissa)
    (laidOut : (p.isIntegral && decide (x.abs < 1e21)) = false) : Spelled p (plainNumeral x) := by
  have hp := canonical_of_parts h
  have near := shortest_nears hp hm
  have spelled {s : Numeral} (nears : s.Nears p) :
      Spelled p (String.ofList (signChars p.negative ++ s.chars)) :=
    ⟨s, by rw [belowZero_eq hm], nears.value_eq hp hm⟩
  rw [plainNumeral, h]
  simp only [laidOut, Bool.false_eq_true, if_false, numeral_eq h hm]
  rcases layout_cases (Numeral.digits_pos hm near) with
    ⟨s, chars, plain, spells⟩ | ⟨ds, lead, chars, nonempty, digits, nears⟩
  · have none : ∀ c ∈ signChars p.negative ++ s.chars, (c != 'e') = true :=
      List.forall_mem_append.mpr ⟨signChars_ne_e _, s.chars_ne_e plain⟩
    rw [chars, span_all none]
    exact spelled (spells p near)
  · have front : ∀ c ∈ signChars p.negative ++ scientific ds, (c != 'e') = true :=
      List.forall_mem_append.mpr ⟨signChars_ne_e _, scientific_ne_e digits⟩
    obtain ⟨es, stripped, present, exponent, value⟩ := strippedExponent_spec lead
    obtain ⟨s, text, spells⟩ := exponent_numeral nonempty digits present exponent value
    rw [chars, ← List.append_assoc, span_e front]
    simp only [stripped]
    rw [List.append_assoc, text]
    exact spelled (spells p (nears p near))

theorem whole_nears (hp : p.Canonical) (hm : 0 < p.mantissa) (whole : p.isIntegral = true) :
    p.NearsDecimal p.magnitude 0 := by
  refine nears_exact hm (tenPow_pos _) ?_
  obtain ⟨k, hk⟩ := (isIntegral_iff hp).mp whole
  rw [magnitude_eq hp, hk, Nat.mul_div_cancel_left _ unitsOfOne_pos]
  rw [show tenPow (0 : Int).toNat = 1 from rfl, show tenPow (-0 : Int).toNat = 1 from rfl,
    Nat.mul_one, Nat.mul_one, Nat.mul_comm]

theorem magnitude_eq_zero_iff (hp : p.Canonical) (whole : p.isIntegral = true) :
    p.magnitude = 0 ↔ p.mantissa = 0 := by
  obtain ⟨k, hk⟩ := (isIntegral_iff hp).mp whole
  have magnitude : p.magnitude = k := by
    rw [magnitude_eq hp, hk, Nat.mul_div_cancel_left _ unitsOfOne_pos]
  have size : p.size = 0 ↔ p.mantissa = 0 := by
    rw [Parts.size, Nat.mul_eq_zero]
    exact or_iff_left (Nat.ne_of_gt (twoPow_pos _))
  rw [magnitude, ← size, hk, Nat.mul_eq_zero]
  exact (or_iff_right (Nat.ne_of_gt unitsOfOne_pos)).symm

theorem bits_zero (hp : p.Canonical) (hm : p.mantissa = 0) : p.bits = 0 := by
  have least := hp.small (by rw [hm]; exact twoPow_pos 52)
  rw [Parts.bits, hm, least]
  rfl

theorem toString_trunc (hp : p.Canonical) (whole : p.isIntegral = true) :
    toString p.trunc = String.ofList (signChars (belowZero p) ++ Nat.toDigits 10 p.magnitude) := by
  have zero := magnitude_eq_zero_iff hp whole
  rw [Parts.trunc, belowZero]
  cases p.negative with
  | false => exact Nat.toString_eq_ofList_toDigits
  | true =>
    cases e : p.magnitude with
    | zero =>
      rw [zero.mp e]
      rfl
    | succ n =>
      have nonzero : (p.mantissa != 0) = true := by
        refine bne_iff_ne.mpr fun h => ?_
        rw [zero.mpr h] at e
        cases e
      rw [nonzero]
      have digits : (n + 1).repr = String.ofList (Nat.toDigits 10 (n + 1)) :=
        Nat.toString_eq_ofList_toDigits
      have negative : toString (-(n + 1 : Nat) : Int) = "-" ++ (n + 1).repr := rfl
      refine String.toList_inj.mp ?_
      simp only [if_true]
      rw [negative, digits, String.toList_append, String.toList_ofList, String.toList_ofList,
        Bool.and_self, signChars, if_pos rfl]
      exact String.toList_ofList.symm

theorem whole_spelled (hp : p.Canonical) (whole : p.isIntegral = true) {zeros : List Char}
    (only : ∃ n, zeros = List.replicate n '0') :
    Spelled p (toString p.trunc ++ String.ofList (Numeral.fractionChars zeros)) := by
  obtain ⟨n, rfl⟩ := only
  let s : Numeral := {
    whole := Nat.toDigits 10 p.magnitude
    fraction := List.replicate n '0'
    exponent := none
    whole_ne_nil := List.ne_nil_of_length_pos Nat.length_toDigits_pos
    whole_digits := allDigits_toDigits _
    fraction_digits := allDigits_zeros n
    exponent_digits := noExponent_digits }
  have digits : s.digits = p.magnitude * tenPow n := by
    rw [Numeral.digits, natOf_append, natOf_toDigits, natOf_zeros, List.length_replicate,
      Nat.add_zero]
  have power : s.power = -n := by
    rw [Numeral.power, Numeral.exponentValue, List.length_replicate, Int.zero_sub]
  refine ⟨s, ?_, ?_⟩
  · rw [toString_trunc hp whole, ← String.ofList_append, List.append_assoc, Numeral.chars,
      Numeral.exponentChars, List.append_nil]
  · rcases Nat.eq_zero_or_pos p.mantissa with empty | hm
    · have none := (magnitude_eq_zero_iff hp whole).mpr empty
      rw [Numeral.value, Numeral.signed, digits, none, bits_zero hp empty, Nat.zero_mul]
      rfl
    · refine Numeral.Nears.value_eq ?_ hp hm
      rw [Numeral.Nears, digits, power]
      refine Parts.NearsDecimal.unshift ?_
      rw [Int.add_left_neg]
      exact whole_nears hp hm whole

theorem abs_small {x : Float} (h : parts? x = some p) (hm : p.mantissa = 0) :
    decide (x.abs < 1e21) = true := by
  have hp := canonical_of_parts h
  have least := hp.small (by rw [hm]; exact twoPow_pos 52)
  have same := parts_ofBits_canonical hp
  rw [bits_zero hp hm] at same
  rw [eq_of_parts h same]
  cases p.negative <;> decide

theorem plainNumeral_spelled {x : Float} (h : parts? x = some p) : Spelled p (plainNumeral x) := by
  cases small : p.isIntegral && decide (x.abs < 1e21) with
  | true =>
    have whole := (Bool.and_eq_true_iff.mp small).1
    have text : plainNumeral x = toString p.trunc ++ String.ofList (Numeral.fractionChars []) := by
      rw [plainNumeral, h]
      simp only [small, if_true, Numeral.fractionChars, String.ofList_nil, String.append_empty]
    rw [text]
    exact whole_spelled (canonical_of_parts h) whole ⟨0, rfl⟩
  | false =>
    refine laidOut_spelled h (Nat.pos_of_ne_zero fun zero => ?_) small
    have integral : p.isIntegral = true := by
      rw [Parts.isIntegral, zero, Nat.zero_mod]
      simp
    rw [integral, abs_small h zero] at small
    cases small

theorem full_spelled {x : Float} (h : parts? x = some p) :
    ∃ text, Kotlin.full (.float x) = .ok text ∧ Spelled p text := by
  have finite := finite?_float (isFinite_of_parts h)
  have whole : isWhole x = p.isIntegral := by rw [isWhole, h, Option.any_some]
  rw [Kotlin.full, finite]
  simp only [bind, Except.bind, whole]
  cases integral : p.isIntegral with
  | true =>
    rw [if_pos rfl, truncated, h]
    exact ⟨_, rfl, whole_spelled (canonical_of_parts h) integral ⟨1, rfl⟩⟩
  | false => exact ⟨_, rfl, plainNumeral_spelled h⟩

end Shortest

section Values

/-- A number, where a zero has no sign. -/
def unsignedZero (x : Float) : Float := if x == 0.0 then 0.0 else x

variable {x : Float} {p : Parts} {s : Numeral}

theorem isFinite_unsignedZero (hx : x.isFinite = true) : (unsignedZero x).isFinite = true := by
  rw [unsignedZero]
  split
  · exact zero_isFinite
  · exact hx

theorem units_unsignedZero (hx : x.isFinite = true) : units (unsignedZero x) = units x := by
  rw [unsignedZero]
  split
  · next zero => exact ((beq_iff hx zero_isFinite).mp zero).symm
  · rfl

theorem units_eq_zero_iff (h : parts? x = some p) : units x = 0 ↔ p.mantissa = 0 := by
  have size : p.size = 0 ↔ p.mantissa = 0 := by
    rw [Parts.size, Nat.mul_eq_zero]
    have := twoPow_pos (p.exponent + 1074).toNat
    omega
  have same : units x = p.units := by
    rw [units, h]
    rfl
  rw [same, ← size, Parts.units]
  cases p.negative <;> simp

theorem spelled_value (h : parts? x = some p) (value : s.value = ofBits false p.bits) :
    s.value.isFinite = true ∧ (if belowZero p then -s.value else s.value) = unsignedZero x := by
  obtain ⟨negative, mantissa, exponent⟩ := p
  have canonical := canonical_of_parts h
  have finite := isFinite_of_parts h
  have magnitude : parts? s.value = some ⟨false, mantissa, exponent⟩ := by
    rw [value]
    exact parts_ofBits_canonical (p := ⟨false, mantissa, exponent⟩)
      ⟨canonical.mantissa_lt, canonical.least, canonical.greatest, canonical.small⟩
  refine ⟨isFinite_of_parts magnitude, ?_⟩
  have isZero : (x == 0.0) = true ↔ mantissa = 0 := by
    have zero : units 0.0 = 0 := by decide
    rw [beq_iff finite zero_isFinite, zero, units_eq_zero_iff h]
  rcases Nat.eq_zero_or_pos mantissa with none | some
  · subst none
    obtain rfl : exponent = -1074 := canonical.small (twoPow_pos 52)
    have zero : parts? 0.0 = some ⟨false, 0, -1074⟩ := by decide
    rw [unsignedZero, if_pos (isZero.mpr rfl), belowZero, bne_self_eq_false, Bool.and_false,
      if_neg Bool.false_ne_true]
    exact eq_of_parts magnitude zero
  · have nonzero : ¬(x == 0.0) = true := fun zero => Nat.ne_of_gt some (isZero.mp zero)
    rw [unsignedZero, if_neg nonzero, belowZero_eq some]
    cases negative with
    | false => exact eq_of_parts magnitude h
    | true => exact eq_of_parts (parts_neg magnitude) h

theorem numeral_spelled (h : parts? x = some p) (unsigned : p.negative = false) :
    ∃ s : Numeral, Shortest.numeral x = s.chars ∧ s.value = x := by
  have canonical := canonical_of_parts h
  rcases Nat.eq_zero_or_pos p.mantissa with none | some
  · refine ⟨Numeral.zero, ?_, ?_⟩
    · simp only [Shortest.numeral, h, none, unsigned, beq_self_eq_true, if_true,
        Bool.false_eq_true, if_false]
      rfl
    · have least := canonical.small (by rw [none]; exact twoPow_pos 52)
      have zero : parts? 0.0 = some p := by
        obtain ⟨negative, mantissa, exponent⟩ := p
        subst none unsigned least
        decide
      exact eq_of_parts zero h
  · have near := shortest_nears canonical some
    have value {s : Numeral} (nears : s.Nears p) : s.value = x := by
      have same := parts_ofBits_canonical canonical
      rw [unsigned] at same
      rw [nears.value_eq canonical some]
      exact eq_of_parts same h
    rw [numeral_eq h some, unsigned]
    rcases layout_cases (Numeral.digits_pos some near) with
      ⟨s, chars, _, spells⟩ | ⟨ds, lead, chars, nonempty, digits, nears⟩
    · exact ⟨s, chars, value (spells p near)⟩
    · obtain ⟨exponent, natOf⟩ := paddedExponent_spec lead
      have present : paddedExponent lead ≠ [] := by
        rw [paddedExponent]
        split
        · exact List.cons_ne_nil _ _
        · exact List.ne_nil_of_length_pos Nat.length_toDigits_pos
      obtain ⟨s, text, spells⟩ := exponent_numeral nonempty digits present exponent natOf
      exact ⟨s, chars.trans text, value (spells p (nears p near))⟩

end Values

end EmitterLogic
