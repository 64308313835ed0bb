import Mathlib.Data.List.TakeWhile
import EmitterLogic.Proofs.Number.Unsigned

namespace EmitterLogic

namespace Text

variable {c d : Char}

theorem isDigitMark_cases (h : isDigitMark c = true) : isDecimal c = true ∨
    128 ≤ c.toNat ∧ ∃ r ∈ digitSignRanges, r.1 ≤ c.toNat ∧ c.toNat ≤ r.2 := by
  rw [isDigitMark, Bool.or_eq_true, Bool.and_eq_true, inRanges, List.any_eq_true] at h
  rcases h with decimal | ⟨far, r, inside, range⟩
  · exact .inl decimal
  · rw [Bool.and_eq_true, decide_eq_true_eq, decide_eq_true_eq] at range
    exact .inr ⟨of_decide_eq_true far, r, inside, range⟩

theorem isDigitMark_not_blank (h : isDigitMark c = true) : isBlank c = false := by
  rcases isDigitMark_cases h with decimal | ⟨far, r, inside, low, high⟩
  · exact isDecimal_not_blank decimal
  · have apart : (digitSignRanges.all fun r => (160 < r.1 && r.2 < 0x1680) ||
        (0x1680 < r.1 && r.2 < 0x2000) || (0x205F < r.1 && r.2 < 0x3000) || 0x3000 < r.1) = true := by
      decide
    have apart := List.all_eq_true.mp apart r inside
    simp only [Bool.or_eq_true, Bool.and_eq_true, decide_eq_true_eq] at apart
    rw [Bool.eq_false_iff]
    intro blank
    simp only [isBlank, Bool.or_eq_true, Bool.and_eq_true, decide_eq_true_eq, beq_iff_eq] at blank
    omega

theorem isDigitMark_ne (h : isDigitMark c = true) (other : isDigitMark d = false) : c ≠ d := by
  rintro rfl
  rw [h] at other
  cases other

theorem le_of_not_isDecimal (h : isDigitMark c = true) (other : isDecimal c = false) :
    128 ≤ c.toNat := by
  rcases isDigitMark_cases h with decimal | ⟨far, _⟩
  · rw [decimal] at other
    cases other
  · exact far

end Text

namespace Reading

open Text

variable {s rest whole fraction exponent : List Char} {c : Char} {p : Char → Bool}

/-- Nothing, or a point with digits, of which there may be none. -/
def IsFraction (p : Char → Bool) : List Char → Prop
  | [] => True
  | c :: ds => c = '.' ∧ ∀ d ∈ ds, p d = true

/-- Nothing, or the mark of an exponent with digits, before which a sign may stand. -/
def IsExponent (p : Char → Bool) : List Char → Prop
  | [] => True
  | e :: rest => (e == 'e' || e == 'E') = true ∧ (signOf rest).2 ≠ [] ∧
    ∀ d ∈ (signOf rest).2, p d = true

/-- The parts of a number in digits of one kind. There is a digit before the point or right after
it. -/
structure IsUnsigned (p : Char → Bool) (whole fraction exponent : List Char) : Prop where
  digits : ∀ c ∈ whole, p c = true
  fractional : IsFraction p fraction
  power : IsExponent p exponent
  counts : whole = [] → 2 ≤ fraction.length

theorem signOf_subset (s : List Char) : ∀ c ∈ (signOf s).2, c ∈ s := by
  unfold signOf
  split
  · exact fun c hc => List.mem_cons_of_mem _ hc
  · exact fun c hc => List.mem_cons_of_mem _ hc
  · exact fun c hc => hc

theorem IsUnsigned.weaken {q : Char → Bool} (h : IsUnsigned p whole fraction exponent)
    (imp : ∀ c ∈ whole ++ (fraction ++ exponent), p c = true → q c = true) :
    IsUnsigned q whole fraction exponent := by
  obtain ⟨digits, fractional, power, counts⟩ := h
  rw [List.forall_mem_append, List.forall_mem_append] at imp
  obtain ⟨first, second, third⟩ := imp
  refine ⟨fun c hc => first c hc (digits c hc), ?_, ?_, counts⟩
  · cases fraction with
    | nil => trivial
    | cons point ds =>
      rw [List.forall_mem_cons] at second
      exact ⟨fractional.1, fun d hd => second.2 d hd (fractional.2 d hd)⟩
  · cases exponent with
    | nil => trivial
    | cons e rest =>
      rw [List.forall_mem_cons] at third
      refine ⟨power.1, power.2.1, fun d hd => ?_⟩
      exact third.2 d (signOf_subset rest d hd) (power.2.2 d hd)

section Accepted

theorem digitRunFrom_decimals (started : Bool) {ds : List Char} (h : ∀ c ∈ ds, isDecimal c = true)
    (stops : StopsDigits rest) :
    ∃ vs, digitRunFrom started (ds ++ rest) = (vs, rest) ∧ vs.length = ds.length := by
  induction ds generalizing started with
  | nil =>
    have none : AllDigits [] := nofun
    exact ⟨[], digitRunFrom_digits started none stops, rfl⟩
  | cons d ds ih =>
    rw [List.forall_mem_cons] at h
    obtain ⟨v, digit⟩ := Option.isSome_iff_exists.mp h.1
    obtain ⟨vs, run, length⟩ := ih true h.2
    refine ⟨v :: vs, ?_, congrArg (· + 1) length⟩
    rw [List.cons_append, digitRunFrom, digit, run]

theorem exponent?_isSome (h : IsExponent isDecimal s) : (exponent? s).isSome = true := by
  cases s with
  | nil => rfl
  | cons e rest =>
    obtain ⟨mark, nonempty, digits⟩ := h
    have ends : StopsDigits [] := nofun
    obtain ⟨vs, run, length⟩ := digitRunFrom_decimals false digits ends
    rw [List.append_nil] at run
    cases vs with
    | nil => exact absurd (List.length_eq_zero_iff.mp length.symm) nonempty
    | cons v vs =>
      simp only [exponent?, mark, if_true, digitRun, run, Option.isSome_some]

theorem IsExponent.stops (h : IsExponent p s) : StopsDigits s := by
  intro c head
  cases s with
  | nil => cases head
  | cons e rest =>
    cases head
    have mark := h.1
    simp only [Bool.or_eq_true, beq_iff_eq] at mark
    rcases mark with rfl | rfl
    · decide
    · decide

theorem IsExponent.not_point (h : IsExponent p s) (rest : List Char) : s ≠ '.' :: rest := by
  rintro rfl
  exact absurd h.1 (by decide)

theorem unsigned?_isSome (h : IsUnsigned isDecimal whole fraction exponent) (negative : Bool) :
    (unsigned? negative (whole ++ (fraction ++ exponent))).isSome = true := by
  have power := exponent?_isSome h.power
  cases fraction with
  | nil =>
    obtain ⟨vs, run, length⟩ := digitRunFrom_decimals false h.digits h.power.stops
    have nonempty : vs.isEmpty = false := by
      cases vs with
      | nil => exact absurd (h.counts (List.length_eq_zero_iff.mp length.symm)) (by decide)
      | cons v vs => rfl
    simp only [List.nil_append, unsigned?, digitRun, run]
    split
    · exact absurd rfl (h.power.not_point _)
    · simp only [nonempty, Bool.false_eq_true, if_false, Option.isSome_map, power]
  | cons point ds =>
    obtain ⟨rfl, digits⟩ := h.fractional
    have stops : StopsDigits ('.' :: ds ++ exponent) := by
      intro c head
      cases head
      decide
    obtain ⟨vs, run, length⟩ := digitRunFrom_decimals false h.digits stops
    obtain ⟨ws, run', length'⟩ := digitRunFrom_decimals false digits h.power.stops
    have nonempty : (vs.isEmpty && ws.isEmpty) = false := by
      cases vs with
      | cons v vs => rfl
      | nil =>
        have some := h.counts (List.length_eq_zero_iff.mp length.symm)
        cases ws with
        | cons w ws => rfl
        | nil =>
          rw [List.length_cons, ← length'] at some
          exact absurd some (by decide)
    simp only [List.cons_append, unsigned?, digitRun] at run ⊢
    simp only [run, run', nonempty, Bool.false_eq_true, if_false, Option.isSome_map, power]

def numberSigns : List Char := ['.', 'e', 'E', '+', '-', '_']

theorem IsUnsigned.chars (h : IsUnsigned p whole fraction exponent) :
    ∀ c ∈ whole ++ (fraction ++ exponent), p c = true ∨ c ∈ numberSigns := by
  refine List.forall_mem_append.mpr ⟨fun c hc => .inl (h.digits c hc), ?_⟩
  refine List.forall_mem_append.mpr ⟨?_, ?_⟩
  · cases fraction with
    | nil => exact List.forall_mem_nil _
    | cons point ds =>
      obtain ⟨rfl, digits⟩ := h.fractional
      exact List.forall_mem_cons.mpr ⟨.inr (by decide), fun c hc => .inl (digits c hc)⟩
  · cases exponent with
    | nil => exact List.forall_mem_nil _
    | cons e rest =>
      obtain ⟨mark, _, digits⟩ := h.power
      simp only [Bool.or_eq_true, beq_iff_eq] at mark
      refine List.forall_mem_cons.mpr ⟨?_, ?_⟩
      · rcases mark with rfl | rfl
        · exact .inr (by decide)
        · exact .inr (by decide)
      · unfold signOf at digits
        split at digits
        · exact List.forall_mem_cons.mpr ⟨.inr (by decide), fun c hc => .inl (digits c hc)⟩
        · exact List.forall_mem_cons.mpr ⟨.inr (by decide), fun c hc => .inl (digits c hc)⟩
        · exact fun c hc => .inl (digits c hc)

theorem IsUnsigned.first (h : IsUnsigned p whole fraction exponent) :
    ∃ c rest, whole ++ (fraction ++ exponent) = c :: rest ∧ (p c = true ∨ c = '.') := by
  cases whole with
  | cons c whole => exact ⟨c, _, rfl, .inl (h.digits c List.mem_cons_self)⟩
  | nil =>
    cases fraction with
    | nil => exact absurd (h.counts rfl) (by decide)
    | cons point ds => exact ⟨point, _, rfl, .inr h.fractional.1⟩

theorem float?_isSome (h : IsUnsigned isDecimal whole fraction exponent) :
    (float? (whole ++ (fraction ++ exponent))).isSome = true := by
  have visible : ∀ c ∈ whole ++ (fraction ++ exponent), isMargin c = false := by
    intro c hc
    rcases h.chars c hc with digit | sign
    · rw [isMargin, isDecimal_not_blank digit, Bool.false_and]
    · have all : (numberSigns.all fun c => !isMargin c) = true := by decide
      simpa using List.all_eq_true.mp all c sign
  have reads := unsigned?_isSome h false
  obtain ⟨c, rest, front, first⟩ := h.first
  rw [front] at visible reads ⊢
  have other (d : Char) (decimal : isDecimal d = false) (point : d ≠ '.') : c ≠ d := by
    rcases first with digit | rfl
    · exact isDecimal_ne digit decimal
    · exact point.symm
  have lower : c.toLower = c := by
    rcases first with digit | rfl
    · exact isDecimal_toLower digit
    · rfl
  have sign : signOf (c :: rest) = (false, c :: rest) := by
    unfold signOf
    split
    · next e => exact absurd (List.cons.inj e).1 (other _ (by decide) (by decide))
    · next e => exact absurd (List.cons.inj e).1 (other _ (by decide) (by decide))
    · rfl
  have i : ¬c = 'i' := other _ (by decide) (by decide)
  have n : ¬c = 'n' := other _ (by decide) (by decide)
  have inf : ((c :: rest).map Char.toLower == "inf".toList) = false := by simp [lower, i]
  have infinity : ((c :: rest).map Char.toLower == "infinity".toList) = false := by
    simp [lower, i]
  have nan : ((c :: rest).map Char.toLower == "nan".toList) = false := by simp [lower, n]
  simp only [float?, withoutMargins_of_visible visible, sign, inf, infinity, nan, Bool.or_self,
    Bool.false_eq_true, if_false, reads]

end Accepted

section Refused

def IsNumberChar (c : Char) : Prop := isDecimal c = true ∨ c ∈ numberSigns

theorem digitRunFrom_chars {started : Bool} {vs : List Nat}
    (run : digitRunFrom started s = (vs, rest)) :
    ∀ c ∈ s, c ∈ rest ∨ IsNumberChar c := by
  induction s generalizing started vs with
  | nil => exact nofun
  | cons d s ih =>
    rw [digitRunFrom] at run
    split at run
    · next v digit =>
      have more : (digitRunFrom true s).2 = rest := congrArg Prod.snd run
      refine List.forall_mem_cons.mpr ⟨.inr (.inl ?_), ih (Prod.ext rfl more)⟩
      rw [isDecimal, digit]
      rfl
    · split at run
      · next low =>
        simp only [Bool.and_eq_true, beq_iff_eq] at low
        obtain ⟨⟨_, rfl⟩, _⟩ := low
        exact List.forall_mem_cons.mpr ⟨.inr (.inr (by decide)), ih run⟩
      · cases run
        exact fun c hc => .inl hc

theorem signOf_chars (s : List Char) : ∀ c ∈ s, c ∈ (signOf s).2 ∨ IsNumberChar c := by
  unfold signOf
  split
  · exact List.forall_mem_cons.mpr ⟨.inr (.inr (by decide)), fun c hc => .inl hc⟩
  · exact List.forall_mem_cons.mpr ⟨.inr (.inr (by decide)), fun c hc => .inl hc⟩
  · exact fun c hc => .inl hc

theorem exponent?_chars {e : Int} (h : exponent? s = some e) : ∀ c ∈ s, IsNumberChar c := by
  cases s with
  | nil => exact List.forall_mem_nil _
  | cons d rest =>
    rcases sign : signOf rest with ⟨negative, body⟩
    rcases run : digitRun body with ⟨vs, left⟩
    simp only [exponent?, sign, run] at h
    split at h
    · next mark =>
      have mark : IsNumberChar d := by
        simp only [Bool.or_eq_true, beq_iff_eq] at mark
        rcases mark with rfl | rfl
        · exact .inr (by decide)
        · exact .inr (by decide)
      refine List.forall_mem_cons.mpr ⟨mark, fun c hc => ?_⟩
      have taken := signOf_chars rest c hc
      rw [sign] at taken
      rcases taken with inside | taken
      · split at h
        · next vs e =>
          cases e
          exact (digitRunFrom_chars run c inside).resolve_left (List.not_mem_nil)
        · cases h
      · exact taken
    · cases h

theorem unsigned?_chars {negative : Bool} {x : Float} (h : unsigned? negative s = some x) :
    ∀ c ∈ s, IsNumberChar c := by
  rcases run : digitRun s with ⟨vs, rest⟩
  have power {f : Int → Float} {rest : List Char} (read : (exponent? rest).map f = some x) :
      ∀ c ∈ rest, IsNumberChar c := by
    obtain ⟨e, found, _⟩ := Option.map_eq_some_iff.mp read
    exact exponent?_chars found
  intro c hc
  rcases digitRunFrom_chars run c hc with left | taken
  · rw [unsigned?, run] at h
    dsimp only at h
    split at h
    · next after =>
      rcases List.mem_cons.mp left with rfl | left
      · exact .inr (by decide)
      rcases run' : digitRun after with ⟨ws, rest⟩
      rw [run'] at h
      dsimp only at h
      split at h
      · cases h
      · rcases digitRunFrom_chars run' c left with left | taken
        · exact power h c left
        · exact taken
    · split at h
      · cases h
      · exact power h c left
  · exact taken

theorem mem_withoutMargins (h : c ∈ s) (visible : isMargin c = false) : c ∈ withoutMargins s := by
  have kept {t : List Char} (h : c ∈ t) : c ∈ t.dropWhile isMargin := by
    rw [← List.takeWhile_append_dropWhile (p := isMargin) (l := t), List.mem_append] at h
    rcases h with dropped | left
    · have margin := List.mem_takeWhile_imp dropped
      rw [visible] at margin
      cases margin
    · exact left
  rw [withoutMargins, List.mem_reverse]
  exact kept (List.mem_reverse.mpr (kept h))

theorem float?_eq_none (h : c ∈ s) (mark : isDigitMark c = true) (other : isDecimal c = false) :
    float? s = none := by
  have far := le_of_not_isDecimal mark other
  have visible : isMargin c = false := by rw [isMargin, isDigitMark_not_blank mark, Bool.false_and]
  have not_ascii {d : Char} (ascii : d.toNat < 128) : c ≠ d := by
    rintro rfl
    omega
  have strange : ¬IsNumberChar c := by
    rintro (decimal | sign)
    · rw [decimal] at other
      cases other
    · have all : (numberSigns.all fun d => d.toNat < 128) = true := by decide
      exact not_ascii (of_decide_eq_true (List.all_eq_true.mp all c sign)) rfl
  rcases sign : signOf (withoutMargins s) with ⟨negative, body⟩
  have inside : c ∈ body := by
    have left := signOf_chars _ c (mem_withoutMargins h visible)
    rw [sign] at left
    exact left.resolve_right strange
  have lower : c.toLower = c := by
    refine dif_neg ?_
    rintro ⟨_, high⟩
    have high : c.toNat ≤ 90 := high
    omega
  have word {w : List Char} (ascii : (w.all fun d => d.toNat < 128) = true) :
      (body.map Char.toLower == w) = false := by
    refine beq_eq_false_iff_ne.mpr fun same => ?_
    have member : c ∈ w := by
      rw [← same, ← lower]
      exact List.mem_map_of_mem inside
    exact not_ascii (of_decide_eq_true (List.all_eq_true.mp ascii c member)) rfl
  simp only [float?, sign, word (w := "inf".toList) (by decide),
    word (w := "infinity".toList) (by decide), word (w := "nan".toList) (by decide), Bool.or_self,
    Bool.false_eq_true, if_false]
  refine Option.eq_none_iff_forall_ne_some.mpr fun x read => ?_
  exact strange (unsigned?_chars read c inside)

end Refused

theorem float?_eq_none_iff (h : IsUnsigned isDigitMark whole fraction exponent) :
    float? (whole ++ (fraction ++ exponent)) = none ↔
      ∃ c ∈ whole ++ (fraction ++ exponent), isDigitMark c = true ∧ isDecimal c = false := by
  constructor
  · intro refused
    refine Classical.byContradiction fun none => ?_
    have decimal : ∀ c ∈ whole ++ (fraction ++ exponent), isDigitMark c = true →
        isDecimal c = true := by
      intro c hc mark
      cases other : isDecimal c with
      | true => rfl
      | false => exact absurd ⟨c, hc, mark, other⟩ none
    have reads := float?_isSome (h.weaken decimal)
    rw [refused] at reads
    cases reads
  · rintro ⟨c, hc, mark, other⟩
    exact float?_eq_none hc mark other

end Reading

end EmitterLogic
