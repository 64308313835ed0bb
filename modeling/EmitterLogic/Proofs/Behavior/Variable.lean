import EmitterLogic.Behavior.Basic
import EmitterLogic.Proofs.Condition.Normal
import EmitterLogic.Proofs.Number.Spelling
import EmitterLogic.Proofs.Number.Whole
import EmitterLogic.Proofs.Datum.InRange
import EmitterLogic.Behavior.Variable

namespace EmitterLogic

namespace Bounds

variable {b : Bounds} {x : Float} {n : Number}

def Keeps (b : Bounds) (n : Number) : Prop :=
  ∃ x, n.toFloat = .ok x ∧ x.isFinite = true ∧ b.clamp x = .ok n

def raised (b : Bounds) (y : Float) : Number :=
  b.lo.elim (.float y) fun lo => if lo.lt (.float y) then .float y else lo

theorem clamp_eq (hi : b.hi = none) :
    b.clamp x = (if b.whole then wholePart x else .ok x).map b.raised := by
  obtain ⟨whole, lo, hi⟩ := b
  cases hi
  cases whole with
  | false => rfl
  | true =>
    change (wholePart x >>= _) = (wholePart x).map _
    cases wholePart x <;> rfl

theorem clamp_keeps (hi : b.hi = none) (low : ∀ l ∈ b.lo, b.Keeps l) (hx : x.isFinite = true)
    (h : b.clamp x = .ok n) : b.Keeps n := by
  rw [clamp_eq hi] at h
  obtain ⟨y, part, made⟩ := map_ok h
  have typed : y.isFinite = true ∧ (if b.whole then wholePart y else .ok y) = .ok y := by
    cases whole : b.whole with
    | true =>
      rw [whole, if_pos rfl] at part
      exact ⟨(isWhole_wholePart hx part).1, wholePart_wholePart hx part⟩
    | false =>
      rw [whole] at part
      cases part
      exact ⟨hx, rfl⟩
  have clamped : b.clamp y = .ok n := by
    rw [clamp_eq hi, typed.2, ← made]
    rfl
  cases bound : b.lo with
  | none =>
    rw [raised, bound] at made
    cases made
    exact ⟨y, rfl, typed.1, clamped⟩
  | some l =>
    rw [raised, bound, Option.elim_some] at made
    split at made
    · cases made
      exact ⟨y, rfl, typed.1, clamped⟩
    · cases made
      exact low n bound

def least (n : Int) : Bounds := { whole := true, lo := some (.int n) }

theorem least_clamp {l : Int} {y : Float} (part : wholePart y = .ok y) : (least l).clamp y =
    .ok (if (Number.int l).lt (.float y) then .float y else .int l) := by
  rw [clamp_eq rfl, least, if_pos rfl, part]
  rfl

theorem least_keeps_float {l : Int} {y : Float} (finite : y.isFinite = true)
    (part : wholePart y = .ok y) (above : (Number.int l).lt (.float y) = true) :
    (least l).Keeps (.float y) :=
  ⟨y, rfl, finite, by rw [least_clamp part, if_pos above]⟩

theorem least_keeps {l : Int} {y : Float} (value : (Number.int l).toFloat = .ok y)
    (finite : y.isFinite = true) (part : wholePart y = .ok y)
    (same : ¬(Number.int l).lt (.float y) = true) : ∀ n ∈ (least l).lo, (least l).Keeps n := by
  intro n mem
  cases mem
  exact ⟨y, value, finite, by rw [least_clamp part, if_neg same]⟩

theorem wholePart_zero : wholePart 0.0 = .ok 0.0 := by decide +kernel

theorem wholePart_one : wholePart 1.0 = .ok 1.0 := by decide

theorem int_lt_one (n : Int) : (Number.int n).lt (.float 1.0) = true ↔ n < 1 := by
  have positive : (0 : Int) < (Binary64.unitsOfOne : Nat) :=
    Int.natCast_pos.mpr Binary64.unitsOfOne_pos
  rw [Number.int_lt_float one_isFinite, units_one]
  refine ⟨fun less => ?_, fun less => ?_⟩
  · refine Int.lt_of_mul_lt_mul_right (a := (Binary64.unitsOfOne : Nat)) ?_ (Int.le_of_lt positive)
    rwa [Int.one_mul]
  · have := Int.mul_lt_mul_of_pos_right less positive
    rwa [Int.one_mul] at this

theorem least_zero_keeps : ∀ n ∈ (least 0).lo, (least 0).Keeps n :=
  least_keeps rfl zero_isFinite wholePart_zero (by decide +kernel)

theorem least_one_keeps : ∀ n ∈ (least 1).lo, (least 1).Keeps n :=
  least_keeps (by decide) one_isFinite wholePart_one fun less =>
    absurd ((int_lt_one 1).mp less) (by decide)

end Bounds

namespace Spelling

theorem ofText_number {s : String} {x : Float} (h : ofText s = .number x) : x.isFinite = true := by
  rw [ofText] at h
  split at h
  · cases h
  · split at h
    · next found =>
      cases h
      obtain ⟨y, _, finite⟩ := Option.bind_eq_some_iff.mp found
      exact isFinite_of_finiteOnly finite
    · split at h
      · cases h
      · cases h

theorem ofText_name {s w : String} (h : ofText s = .name w) : w = s ∧ isIdent s = true := by
  rw [ofText] at h
  split at h
  · cases h
  · split at h
    · cases h
    · split at h
      · next ident =>
        cases h
        exact ⟨rfl, ident⟩
      · cases h

theorem display_visible (n : Number) : ∀ c ∈ n.display.toList, Text.isBlank c = false := by
  have digits (m : Nat) : ∀ c ∈ (toString m).toList, Text.isBlank c = false := by
    rw [Nat.toString_eq_ofList_toDigits, String.toList_ofList]
    exact fun c h => isBlank_of_numeralChar (Shortest.digitChars_chars m c h)
  cases n with
  | int n =>
    cases n with
    | ofNat m => exact digits m
    | negSucc m =>
      have negated : (Number.int (Int.negSucc m)).display = "-" ++ toString (m + 1) := rfl
      rw [negated, String.toList_append, List.forall_mem_append]
      exact ⟨List.forall_mem_singleton.mpr (by decide), digits (m + 1)⟩
  | float x =>
    have text : (Number.float x).display.toList = Shortest.numeral x := String.toList_ofList
    rw [text]
    exact fun c h => isBlank_of_numeralChar (Shortest.numeral_chars x c h)

theorem ofDatum_cases (d : Datum) : ofDatum d = .nothing ∨
    (∃ x, x.isFinite = true ∧ ofDatum d = .number x) ∨
      ∃ s, trimmed s = s ∧ ofDatum d = ofText s := by
  have text (d : Datum) : ∃ s, trimmed s = s ∧ ofText (trimmed d.toText) = ofText s :=
    ⟨trimmed d.toText, trimmed_trimmed _, rfl⟩
  cases d with
  | null => exact .inl rfl
  | bool b =>
    refine .inr (.inl ⟨if b then 1.0 else 0.0, ?_, rfl⟩)
    cases b
    · exact zero_isFinite
    · exact one_isFinite
  | number n =>
    cases found : n.toFloat.toOption.bind finiteOnly with
    | some x =>
      obtain ⟨y, _, finite⟩ := Option.bind_eq_some_iff.mp found
      exact .inr (.inl ⟨x, isFinite_of_finiteOnly finite, by rw [ofDatum, found]⟩)
    | none =>
      have visible : trimmed n.display = n.display := by
        rw [trimmed, Text.trim_of_visible (display_visible n), String.ofList_toList]
      exact .inr (.inr ⟨n.display, visible, by rw [ofDatum, found]⟩)
  | undefined => exact .inr (.inr (text .undefined))
  | text s => exact .inr (.inr (text (.text s)))
  | list items => exact .inr (.inr (text (.list items)))
  | object entries => exact .inr (.inr (text (.object entries)))

end Spelling

namespace Amount

variable {b : Bounds} {a : Amount}

def Settled (b : Bounds) : Amount → Prop
  | number n => b.Keeps n
  | named w => trimmed w = w ∧ Spelling.ofText w = .name w

def ofSpelling (default : Amount) (b : Bounds) : Spelling → Except Fault Amount
  | .nothing => do return number (← b.clamp (← default.toDatum.finiteOrZero))
  | .number x => (b.clamp x).map number
  | .name s => .ok (named s)
  | .other => .ok default

theorem ofDatum_eq (d : Datum) (default : Amount) :
    ofDatum d default b = ofSpelling default b (Spelling.ofDatum d) := rfl

theorem ofDatum_settled {d : Datum} {default : Amount} (hi : b.hi = none)
    (low : ∀ l ∈ b.lo, b.Keeps l) (h : ofDatum d default b = .ok a) :
    a.Settled b ∨ a = default := by
  have given {x : Float} (finite : x.isFinite = true) {n : Number} (h : b.clamp x = .ok n) :
      (number n).Settled b ∨ number n = default := .inl (Bounds.clamp_keeps hi low finite h)
  have fallback (h : ofSpelling default b .nothing = .ok a) : a.Settled b ∨ a = default := by
    obtain ⟨x, value, h⟩ := bind_ok h
    obtain ⟨n, clamped, h⟩ := bind_ok h
    cases h
    exact given (finiteOrZero_isFinite value) clamped
  have numeral {x : Float} (finite : x.isFinite = true)
      (h : ofSpelling default b (.number x) = .ok a) : a.Settled b ∨ a = default := by
    obtain ⟨n, clamped, rfl⟩ := map_ok h
    exact given finite clamped
  rw [ofDatum_eq] at h
  rcases Spelling.ofDatum_cases d with e | ⟨x, finite, e⟩ | ⟨s, own, e⟩
  · rw [e] at h
    exact fallback h
  · rw [e] at h
    exact numeral finite h
  · rw [e] at h
    cases spells : Spelling.ofText s with
    | nothing =>
      rw [spells] at h
      exact fallback h
    | number x =>
      rw [spells] at h
      exact numeral (Spelling.ofText_number spells) h
    | name w =>
      rw [spells] at h
      cases h
      obtain ⟨rfl, _⟩ := Spelling.ofText_name spells
      exact .inl ⟨own, spells⟩
    | other =>
      rw [spells] at h
      cases h
      exact .inr rfl

theorem ofDatum_number {n n' : Number} {x : Float} (value : n.toFloat = .ok x)
    (finite : x.isFinite = true) (clamped : b.clamp x = .ok n') (default : Amount) :
    ofDatum (.number n) default b = .ok (number n') := by
  have found : n.toFloat.toOption.bind finiteOnly = some x := by
    rw [value]
    exact if_pos finite
  have spells : Spelling.ofDatum (.number n) = .number x := by
    delta Spelling.ofDatum
    dsimp only
    rw [found]
  rw [ofDatum_eq, spells, ofSpelling, clamped]
  rfl

theorem ofDatum_reread (settled : a.Settled b) (default : Amount) :
    ofDatum a.toDatum default b = .ok a := by
  cases a with
  | number n =>
    obtain ⟨x, value, finite, clamped⟩ := settled
    exact ofDatum_number value finite clamped default
  | named w =>
    have spells : Spelling.ofDatum (.text w) = Spelling.ofText (trimmed w) := rfl
    rw [ofDatum_eq, toDatum, spells, settled.1, settled.2, ofSpelling]

end Amount

namespace Variable

open Binary64

structure Sound (v : Variable) : Prop where
  initial : v.initial.isFinite = true
  least : v.minValue.isFinite = true
  greatest : v.maxValue.isFinite = true
  whole : v.isInt = true →
    isWhole v.initial = true ∧ isWhole v.minValue = true ∧ isWhole v.maxValue = true
  ordered : v.hasMin = true → v.hasMax = true → v.minValue ≤ v.maxValue

structure Admits (v : Variable) (x : Float) : Prop where
  finite : x.isFinite = true
  low : v.hasMin = true → v.minValue ≤ x
  high : v.hasMax = true → x ≤ v.maxValue
  whole : v.isInt = true → isWhole x = true

theorem ofType_finite (isInt : Bool) {x : Float} (hx : x.isFinite = true) :
    ∃ y, ofType isInt x = .ok y ∧ y.isFinite = true ∧ (isInt = true → isWhole y = true) := by
  cases isInt with
  | false => exact ⟨x, rfl, hx, nofun⟩
  | true =>
    obtain ⟨y, part, finite, _⟩ := wholePart_finite hx
    exact ⟨y, part, finite, fun _ => (isWhole_wholePart hx part).2⟩

theorem ofType_isFinite {isInt : Bool} {x y : Float} (hx : x.isFinite = true)
    (h : ofType isInt x = .ok y) : y.isFinite = true ∧ (isInt = true → isWhole y = true) := by
  obtain ⟨z, typed, finite, whole⟩ := ofType_finite isInt hx
  cases typed.symm.trans h
  exact ⟨finite, whole⟩

theorem isWhole_zero : isWhole 0.0 = true := by decide +kernel

theorem numberOf_isFinite {isInt : Bool} {d : Datum} {x : Float} (h : numberOf isInt d = .ok x) :
    x.isFinite = true ∧ (isInt = true → isWhole x = true) := by
  have typed (h : (do ofType isInt (← d.finiteOrZero)) = .ok x) :
      x.isFinite = true ∧ (isInt = true → isWhole x = true) := by
    obtain ⟨y, found, h⟩ := bind_ok h
    exact ofType_isFinite (finiteOrZero_isFinite found) h
  cases d with
  | bool b =>
    cases h
    exact ⟨by decide, fun _ => isWhole_zero⟩
  | _ => exact typed h

theorem inOrder_sound {v : Variable} (initial : v.initial.isFinite = true)
    (least : v.minValue.isFinite = true) (greatest : v.maxValue.isFinite = true)
    (whole : v.isInt = true →
      isWhole v.initial = true ∧ isWhole v.minValue = true ∧ isWhole v.maxValue = true) :
    v.inOrder.Sound := by
  rw [inOrder]
  split
  · next swapped =>
    simp only [Bool.and_eq_true, decide_eq_true_eq] at swapped
    refine ⟨initial, greatest, least, fun int => ?_, fun _ _ => le_of_lt greatest least swapped.2⟩
    obtain ⟨first, second, third⟩ := whole int
    exact ⟨first, third, second⟩
  · next kept =>
    refine ⟨initial, least, greatest, whole, fun hasMin hasMax => ?_⟩
    simp only [hasMin, hasMax, Bool.true_and, decide_eq_true_eq] at kept
    exact le_of_not_lt greatest least kept

theorem ofDatum_sound {d : Datum} {v : Variable} (h : ofDatum d = .ok v) : v.Sound := by
  obtain ⟨x, initial, h⟩ := bind_ok h
  obtain ⟨lo, least, h⟩ := bind_ok h
  obtain ⟨hi, greatest, h⟩ := bind_ok h
  cases h
  obtain ⟨first, whole⟩ := numberOf_isFinite initial
  obtain ⟨second, whole'⟩ := numberOf_isFinite least
  obtain ⟨third, whole''⟩ := numberOf_isFinite greatest
  exact inOrder_sound first second third fun int => ⟨whole int, whole' int, whole'' int⟩

theorem raised {lo x : Float} (hlo : lo.isFinite = true) (hx : x.isFinite = true) (on : Bool) :
    (if on then (if lo < x then x else lo) else x).isFinite = true ∧
      (on = true → lo ≤ if on then (if lo < x then x else lo) else x) := by
  cases on with
  | false => exact ⟨hx, nofun⟩
  | true =>
    simp only [if_true]
    by_cases less : lo < x
    · rw [if_pos less]
      exact ⟨hx, fun _ => le_of_lt hlo hx less⟩
    · rw [if_neg less]
      exact ⟨hlo, fun _ => le_refl hlo⟩

theorem lowered {hi x : Float} (hhi : hi.isFinite = true) (hx : x.isFinite = true) (on : Bool) :
    (if on then (if x < hi then x else hi) else x).isFinite = true ∧
      (on = true → (if on then (if x < hi then x else hi) else x) ≤ hi) ∧
      ∀ lo, lo ≤ x → (on = true → lo ≤ hi) →
        lo ≤ if on then (if x < hi then x else hi) else x := by
  cases on with
  | false => exact ⟨hx, nofun, fun _ low _ => low⟩
  | true =>
    simp only [if_true]
    by_cases less : x < hi
    · rw [if_pos less]
      exact ⟨hx, fun _ => le_of_lt hx hhi less, fun _ low _ => low⟩
    · rw [if_neg less]
      exact ⟨hhi, fun _ => le_refl hhi, fun _ _ order => order trivial⟩

theorem ofType_bound (isInt : Bool) {x : Float} (hx : x.isFinite = true)
    (whole : isInt = true → isWhole x = true) :
    ∃ y, ofType isInt x = .ok y ∧ y.isFinite = true ∧ y ≤ x ∧ x ≤ y := by
  cases isInt with
  | false => exact ⟨x, rfl, hx, le_refl hx, le_refl hx⟩
  | true =>
    obtain ⟨y, part, finite, _⟩ := wholePart_finite hx
    exact ⟨y, part, finite, wholePart_le_whole hx hx (whole rfl) (le_refl hx) part,
      whole_le_wholePart hx hx (whole rfl) (le_refl hx) part⟩

theorem below_ofType {isInt : Bool} {lo x y : Float} (hlo : lo.isFinite = true)
    (hx : x.isFinite = true) (whole : isInt = true → isWhole lo = true) (le : lo ≤ x)
    (h : ofType isInt x = .ok y) : lo ≤ y := by
  cases isInt with
  | false =>
    cases h
    exact le
  | true => exact whole_le_wholePart hlo hx (whole rfl) le h

theorem above_ofType {isInt : Bool} {hi x y : Float} (hhi : hi.isFinite = true)
    (hx : x.isFinite = true) (whole : isInt = true → isWhole hi = true) (le : x ≤ hi)
    (h : ofType isInt x = .ok y) : y ≤ hi := by
  cases isInt with
  | false =>
    cases h
    exact le
  | true => exact wholePart_le_whole hhi hx (whole rfl) le h

theorem bound_admits {v : Variable} (hv : v.Sound) {x : Float} (hx : x.isFinite = true) :
    ∃ y, v.bound x = .ok y ∧ v.Admits y := by
  obtain ⟨lo, typedLo, finiteLo, loLe, leLo⟩ :=
    ofType_bound v.isInt hv.least fun int => (hv.whole int).2.1
  obtain ⟨hi, typedHi, finiteHi, hiLe, leHi⟩ :=
    ofType_bound v.isInt hv.greatest fun int => (hv.whole int).2.2
  have order (hasMin : v.hasMin = true) (hasMax : v.hasMax = true) : lo ≤ hi :=
    le_trans finiteLo hv.greatest finiteHi
      (le_trans finiteLo hv.least hv.greatest loLe (hv.ordered hasMin hasMax)) leHi
  obtain ⟨finite, low⟩ := raised finiteLo hx v.hasMin
  obtain ⟨finite', high, kept⟩ := lowered finiteHi finite v.hasMax
  obtain ⟨y, typed, finiteY, whole⟩ := ofType_finite v.isInt finite'
  refine ⟨y, ?_, finiteY, ?_, ?_, whole⟩
  · simp only [bound, typedLo, typedHi, bind, Except.bind]
    exact typed
  · intro hasMin
    have low' := le_trans hv.least finiteLo finite' leLo
      (kept lo (low hasMin) fun hasMax => order hasMin hasMax)
    exact below_ofType hv.least finite' (fun int => (hv.whole int).2.1) low' typed
  · intro hasMax
    have high' := le_trans finite' finiteHi hv.greatest (high hasMax) hiLe
    exact above_ofType hv.greatest finite' (fun int => (hv.whole int).2.2) high' typed

end Variable

end EmitterLogic
