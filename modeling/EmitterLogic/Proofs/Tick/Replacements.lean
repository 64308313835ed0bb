import EmitterLogic.Proofs.Tick.Phases

namespace EmitterLogic.Tick

open Text

section Replacements

variable {m : Matcher (List Char)} {before : Option Char} {asks : Bool} {c : Char} {n : Nat}
  {e g s w rest out : List Char}

def Splits (m : Matcher (List Char)) : Prop := ∀ ⦃before s n out⦄, m before s = some (n, out) →
  ∃ w rest, s = w ++ rest ∧ n = w.length ∧ w ≠ []

theorem Splits.induction (splits : Splits m) {P : Option Char → List Char → List Char → Prop}
    (nil : ∀ before, P before [] [])
    (put : ∀ before w rest out r, w ≠ [] → m before (w ++ rest) = some (w.length, out) →
      P (w.getLast?.or before) rest r → P before (w ++ rest) (out ++ r))
    (keep : ∀ before c rest r, m before (c :: rest) = none → P (some c) rest r →
      P before (c :: rest) (c :: r))
    (before : Option Char) (s : List Char) : P before s (replaceFrom m before 0 s) := by
  induction whole : s.length using Nat.strong_induction_on generalizing before s with
  | _ k ih =>
    subst whole
    cases s with
    | nil => exact nil before
    | cons c rest =>
      cases found : m before (c :: rest) with
      | none =>
        rw [replaceFrom, found]
        exact keep before c rest _ found (ih _ (Nat.lt_succ_self _) (some c) rest rfl)
      | some taken =>
        obtain ⟨n, out⟩ := taken
        obtain ⟨w, more, split, rfl, some⟩ := splits found
        rw [split] at found ⊢
        rw [replaceFrom_matched some found]
        have shorter : more.length < (c :: rest).length := by
          rw [split, List.length_append]
          have := List.length_pos_iff.mpr some
          omega
        exact put before w more out _ some found (ih _ shorter _ more rfl)

theorem Splits.alike (splits : Splits m)
    (each : ∀ {before w rest out}, m before (w ++ rest) = some (w.length, out) → '\n' ∉ w →
      Alike asks w out) (before : Option Char) (unbroken : '\n' ∉ s) :
    Alike asks s (replaceFrom m before 0 s) := by
  refine splits.induction (P := fun _ s r => '\n' ∉ s → Alike asks s r) ?_ ?_ ?_ before s unbroken
  · exact fun _ _ => .rfl' []
  · intro before w rest out r _ found later unbroken
    rw [List.mem_append, not_or] at unbroken
    exact (each found unbroken.1).append (later unbroken.2)
  · intro before c rest r _ later unbroken
    exact Alike.append (.rfl' [c]) (later fun inside => unbroken (List.mem_cons_of_mem c inside))

theorem Splits.chars (splits : Splits m) {f : Char → Prop}
    (each : ∀ {before w rest out}, m before (w ++ rest) = some (w.length, out) → (∀ c ∈ w, f c) →
      ∀ c ∈ out, f c) (before : Option Char) (all : ∀ c ∈ s, f c) :
    ∀ c ∈ replaceFrom m before 0 s, f c := by
  refine splits.induction (P := fun _ s r => (∀ c ∈ s, f c) → ∀ c ∈ r, f c) ?_ ?_ ?_ before s all
  · exact fun _ _ => List.forall_mem_nil _
  · intro before w rest out r _ found later all
    rw [List.forall_mem_append] at all ⊢
    exact ⟨each found all.1, later all.2⟩
  · intro before c rest r _ later all
    rw [List.forall_mem_cons] at all ⊢
    exact ⟨all.1, later all.2⟩

structure Swap (before : Option Char) (w out : List Char) : Prop where
  first : ∃ c v, w = c :: v ∧ isBlank c = false
  inner : ∀ c ∈ w, c ≠ '/' ∧ c ≠ ';'
  alike : '\n' ∉ w → ∀ asks, Alike asks w out
  chars : ∀ c ∈ out, c ∈ w ∨ c ∉ signs true
  front : ∃ c v, out = c :: v ∧ isIdle c = false ∧ c ∉ ['e', 'l', 's'] ∧
    (before.any isWordChar = true → w.head? = some c)

def stops (c : Char) : Bool := isIdle c || c == '/'

structure Gentle (m : Matcher (List Char)) : Prop where
  split : ∀ {before s n out}, m before s = some (n, out) →
    ∃ w rest, s = w ++ rest ∧ n = w.length ∧ Swap before w out

structure Mild (m : Matcher (List Char)) : Prop extends Gentle m where
  last : ∀ {before w rest out}, m before (w ++ rest) = some (w.length, out) →
    ∀ c ∈ w.getLast?, isBlank c = false
  moves : ∀ {before w rest out rest'}, m before (w ++ rest) = some (w.length, out) →
    (∀ c ∈ rest'.head?, rest.head? = some c ∨ stops c = true) →
    m before (w ++ rest') = some (w.length, out)
  fresh : ∀ {c s}, isWordChar c = false → m (some c) s = m none s

namespace Gentle

theorem splits (h : Gentle m) : Splits m := by
  intro before s n out found
  obtain ⟨w, rest, whole, count, swap⟩ := h.split found
  obtain ⟨c, v, rfl, -⟩ := swap.first
  exact ⟨c :: v, rest, whole, count, List.cons_ne_nil c v⟩

theorem swap (h : Gentle m) (found : m before (w ++ rest) = some (w.length, out)) :
    Swap before w out := by
  obtain ⟨w', rest', whole, count, swap⟩ := h.split found
  obtain ⟨rfl, -⟩ := List.append_inj whole count
  exact swap

theorem alike (h : Gentle m) (asks : Bool) (unbroken : '\n' ∉ s) :
    Alike asks s (replaceAll m s) :=
  h.splits.alike (fun found unbroken => (h.swap found).alike unbroken asks) none unbroken

theorem chars (h : Gentle m) {f : Char → Prop} (others : ∀ c, c ∉ signs true → f c)
    (before : Option Char) (all : ∀ c ∈ s, f c) : ∀ c ∈ replaceFrom m before 0 s, f c :=
  h.splits.chars (fun found inner c member => ((h.swap found).chars c member).elim (inner c) (others c))
    before all

theorem not_mem (h : Gentle m) (before : Option Char) (sign : c ∈ signs true) (none : c ∉ s) :
    c ∉ replaceFrom m before 0 s := fun member =>
  h.chars (f := (· ≠ c)) (fun _ other same => other (same ▸ sign)) before
    (fun _ inside same => none (same ▸ inside)) c member rfl

theorem unmatched (h : Gentle m) (stop : stops c = true) : m before (c :: s) = none := by
  cases found : m before (c :: s) with
  | none => rfl
  | some taken =>
    obtain ⟨n, out⟩ := taken
    obtain ⟨w, rest, whole, -, swap⟩ := h.split found
    obtain ⟨d, v, rfl, visible⟩ := swap.first
    obtain ⟨rfl, -⟩ := List.cons.inj whole
    obtain ⟨slash, semicolon⟩ := swap.inner c List.mem_cons_self
    rw [stops, isIdle, visible, beq_eq_false_iff_ne.mpr slash, beq_eq_false_iff_ne.mpr semicolon] at stop
    cases stop

theorem replaceFrom_stops (h : Gentle m) (before : Option Char) (all : ∀ c ∈ e, stops c = true)
    (s : List Char) :
    replaceFrom m before 0 (e ++ s) = e ++ replaceFrom m (e.getLast?.or before) 0 s := by
  refine replaceFrom_unmatched fun A c B split => h.unmatched (all c ?_)
  rw [split]
  exact List.mem_append_right A List.mem_cons_self

end Gentle

theorem isWordPart_of_stops (stop : stops c = true) : Script.isWordPart c = false := by
  rw [Bool.eq_false_iff]
  intro part
  rw [stops, isIdle, isBlank_of_wordPart part, Bool.false_or, Bool.or_eq_true, beq_iff_eq,
    beq_iff_eq] at stop
  rcases stop with rfl | rfl <;> exact absurd part (by decide)

theorem isWordChar_of_stops (stop : stops c = true) : isWordChar c = false := by
  rw [Bool.eq_false_iff]
  intro word
  have part := Predicate.isWordPart_of_wordChar word
  rw [isWordPart_of_stops stop] at part
  cases part

theorem stops_of_idle (idle : Idle e) : ∀ c ∈ e, stops c = true := fun c member => by
  rw [stops, idle c member, Bool.true_or]

theorem stops_comment (idle : Idle e) : ∀ c ∈ e ++ ['/', '/'], stops c = true := by
  refine List.forall_mem_append.mpr ⟨stops_of_idle idle, ?_⟩
  decide

theorem Swap.within (swap : Swap before w out)
    (visible : ∀ c ∈ w.getLast?, isBlank c = false) (idle : Idle e) {s note : List Char}
    (whole : s ++ (e ++ '/' :: '/' :: note) = w ++ rest) :
    ∃ v, s = w ++ v ∧ rest = v ++ (e ++ '/' :: '/' :: note) := by
  rcases List.append_eq_append_iff.mp whole with ⟨a, taken, tail⟩ | ⟨v, taken, tail⟩
  · rcases List.eq_nil_or_concat a with rfl | ⟨a, c, rfl⟩
    · exact ⟨[], by rw [taken, List.append_nil, List.append_nil], by rw [tail]; rfl⟩
    · exfalso
      rw [List.concat_eq_append] at taken tail
      have last : isBlank c = false := visible c (by simp [taken])
      obtain ⟨slash, semicolon⟩ := swap.inner c (by simp [taken])
      -- The last character that is taken stands among the idle ones, or the comment begins before it.
      have inside : c ∈ e ++ ['/', '/'] ∨ '/' ∈ a ++ [c] := by
        rw [List.append_assoc] at tail
        rcases List.append_eq_append_iff.mp tail with ⟨b, rfl, more⟩ | ⟨b, rfl, more⟩
        · cases b with
          | nil =>
            left
            obtain rfl := (List.cons.inj more).1
            exact List.mem_append_right _ List.mem_cons_self
          | cons d b =>
            right
            obtain rfl := (List.cons.inj more).1
            simp
        · cases b with
          | nil =>
            left
            obtain rfl := (List.cons.inj more).1
            exact List.mem_append_right _ List.mem_cons_self
          | cons d b =>
            left
            obtain rfl := (List.cons.inj more).1
            simp
      rcases inside with inside | inside
      · have stop := stops_comment idle c inside
        rw [stops, isIdle, last, beq_eq_false_iff_ne.mpr slash, beq_eq_false_iff_ne.mpr semicolon] at stop
        cases stop
      · exact (swap.inner '/' (by rw [taken]; exact List.mem_append_right s inside)).1 rfl
  · exact ⟨v, taken, tail⟩

namespace Mild

theorem replaceFrom_comment (h : Mild m) (idle : Idle e) (before : Option Char) (s note : List Char) :
    replaceFrom m before 0 (s ++ (e ++ '/' :: '/' :: note)) =
      replaceFrom m before 0 s ++ (e ++ '/' :: '/' :: replaceFrom m (some '/') 0 note) := by
  have tail (before : Option Char) : replaceFrom m before 0 (e ++ '/' :: '/' :: note) =
      e ++ '/' :: '/' :: replaceFrom m (some '/') 0 note := by
    have all := h.replaceFrom_stops before (stops_comment idle) note
    rw [List.append_assoc, List.getLast?_append] at all
    rw [List.append_assoc] at all
    exact all
  -- Along the parts that are replaced: none of them can begin in the line and end in the comment.
  refine h.splits.induction (P := fun before s r => replaceFrom m before 0
    (s ++ (e ++ '/' :: '/' :: note)) = r ++ (e ++ '/' :: '/' :: replaceFrom m (some '/') 0 note))
    ?_ ?_ ?_ before s
  · exact tail
  · intro before w rest out r some found later
    have next : ∀ c ∈ (rest ++ (e ++ '/' :: '/' :: note)).head?,
        rest.head? = Option.some c ∨ stops c = true := by
      intro c head
      cases rest with
      | cons d rest => exact .inl head
      | nil =>
        refine .inr (stops_comment idle c ?_)
        cases e with
        | nil =>
          obtain rfl : '/' = c := Option.some.inj head
          exact List.mem_cons_self
        | cons d e =>
          obtain rfl : d = c := Option.some.inj head
          exact List.mem_cons_self
    rw [List.append_assoc, replaceFrom_matched some (h.moves found next), later, List.append_assoc]
  · intro before c rest r none later
    have none' : m before (c :: (rest ++ (e ++ '/' :: '/' :: note))) = Option.none := by
      cases found : m before (c :: (rest ++ (e ++ '/' :: '/' :: note))) with
      | none => rfl
      | some taken =>
        obtain ⟨n, out⟩ := taken
        obtain ⟨w, more, whole, rfl, swap⟩ := h.split found
        have found' : m before (w ++ more) = some (w.length, out) := whole ▸ found
        obtain ⟨v, taken, rfl⟩ := swap.within (s := c :: rest) (h.last found') idle whole
        rw [taken, h.moves found'] at none
        · cases none
        · intro d head
          refine .inl ?_
          rw [List.head?_append, Option.mem_def.mp head]
          rfl
    rw [List.cons_append, replaceFrom, none']
    exact congrArg (c :: ·) later

theorem replaceAll_idle (h : Mild m) (idle : Idle g) (s : List Char) :
    replaceAll m (g ++ s) = g ++ replaceAll m s := by
  rw [replaceAll, h.replaceFrom_stops none (stops_of_idle idle)]
  congr 1
  cases last : g.getLast? with
  | none => rfl
  | some d =>
    have stop := stops_of_idle idle d (List.mem_of_mem_getLast? last)
    cases s with
    | nil => rfl
    | cons c s =>
      rw [Option.some_or, replaceAll, replaceFrom, replaceFrom, h.fresh (isWordChar_of_stops stop)]

end Mild

def BeginsElse (s : List Char) : Prop :=
  ∃ rest, s = 'e' :: 'l' :: 's' :: 'e' :: rest ∧ ∀ c ∈ rest.head?, Script.isWordPart c = false

def FrontElse (s : List Char) : Prop := ∃ e t, s = e ++ t ∧ Idle e ∧ BeginsElse t

structure Faithful (R : Option Char → List Char → List Char → Prop) : Prop where
  letter : ∀ {before s c r}, R before s (c :: r) → c ∈ ['e', 'l', 's'] ∨ isIdle c = true →
    ∃ t, s = c :: t ∧ R (some c) t r
  head : ∀ {s r}, R (some 'e') s r → (∀ c ∈ r.head?, Script.isWordPart c = false) → s.head? = r.head?

namespace Faithful

variable {R : Option Char → List Char → List Char → Prop}

theorem beginsElse (h : Faithful R) (before : Option Char) (made : R before s out)
    (begins : BeginsElse out) : BeginsElse s := by
  obtain ⟨rest, rfl, ends⟩ := begins
  obtain ⟨t, rfl, made₁⟩ := h.letter made (.inl (by decide))
  obtain ⟨t, rfl, made₂⟩ := h.letter made₁ (.inl (by decide))
  obtain ⟨t, rfl, made₃⟩ := h.letter made₂ (.inl (by decide))
  obtain ⟨t, rfl, made₄⟩ := h.letter made₃ (.inl (by decide))
  exact ⟨t, rfl, by rwa [h.head made₄ ends]⟩

theorem frontElse (h : Faithful R) (before : Option Char) (made : R before s out)
    (front : FrontElse out) : FrontElse s := by
  obtain ⟨e, t, rfl, idle, begins⟩ := front
  induction e generalizing before s with
  | nil => exact ⟨[], s, rfl, List.forall_mem_nil _, h.beginsElse before made begins⟩
  | cons c e ih =>
    obtain ⟨first, rest⟩ := List.forall_mem_cons.mp idle
    obtain ⟨s, rfl, later⟩ := h.letter made (.inr first)
    obtain ⟨d, t, rfl, idle', begins'⟩ := ih (some c) later rest
    exact ⟨c :: d, t, rfl, List.forall_mem_cons.mpr ⟨first, idle'⟩, begins'⟩

end Faithful

theorem Gentle.faithful (h : Gentle m) :
    Faithful fun before s out => out = replaceFrom m before 0 s where
  letter {before s c r} made kind := by
    cases s with
    | nil => cases made
    | cons d t =>
      cases found : m before (d :: t) with
      | none =>
        rw [replaceFrom, found] at made
        obtain ⟨rfl, rfl⟩ := List.cons.inj made
        exact ⟨t, rfl, rfl⟩
      | some taken =>
        obtain ⟨n, out⟩ := taken
        obtain ⟨w, rest, whole, rfl, swap⟩ := h.split found
        obtain ⟨e, v, rfl, tells, other, -⟩ := swap.front
        rw [replaceFrom, found] at made
        obtain ⟨rfl, -⟩ := List.cons.inj made
        rcases kind with letter | idle
        · exact absurd letter other
        · rw [tells] at idle
          cases idle
  head {s r} made _ := by
    subst made
    cases s with
    | nil => rfl
    | cons d t =>
      rw [replaceFrom]
      split
      · next n out found =>
        obtain ⟨w, rest, whole, rfl, swap⟩ := h.split found
        obtain ⟨e, v, rfl, -, -, same⟩ := swap.front
        obtain ⟨f, x, rfl, -⟩ := swap.first
        obtain ⟨rfl, -⟩ := List.cons.inj whole
        exact same (by decide)
      · rfl

namespace Mild

theorem of_iff {F : Option Char → Prop} {T : List Char → List Char → Prop} {E : List Char → Prop}
    (shape : ∀ before s n out, m before s = some (n, out) ↔
      F before ∧ ∃ w rest, s = w ++ rest ∧ n = w.length ∧ T w out ∧ E rest)
    (swap : ∀ before w out, F before → T w out → Swap before w out)
    (last : ∀ w out, T w out → ∀ c ∈ w.getLast?, isBlank c = false)
    (ends : ∀ rest rest', E rest →
      (∀ c ∈ rest'.head?, rest.head? = some c ∨ stops c = true) → E rest')
    (fresh : ∀ c, isWordChar c = false → (F (some c) ↔ F none)) : Mild m where
  split found := by
    obtain ⟨free, w, rest, rfl, rfl, takes, -⟩ := (shape ..).mp found
    exact ⟨w, rest, rfl, rfl, swap _ w _ free takes⟩
  last found := by
    obtain ⟨-, w, rest, whole, count, takes, -⟩ := (shape ..).mp found
    obtain ⟨rfl, -⟩ := List.append_inj whole count
    exact last _ _ takes
  moves found next := by
    obtain ⟨free, w, rest, whole, count, takes, stop⟩ := (shape ..).mp found
    obtain ⟨rfl, rfl⟩ := List.append_inj whole count
    exact (shape ..).mpr ⟨free, _, _, rfl, rfl, takes, ends _ _ stop next⟩
  fresh other := by
    refine Option.ext fun taken => ?_
    obtain ⟨n, out⟩ := taken
    rw [shape, shape, fresh _ other]

end Mild

end Replacements

end EmitterLogic.Tick
