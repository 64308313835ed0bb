import EmitterLogic.Proofs.Predicate.Rewritten

namespace EmitterLogic

namespace Predicate

open Text Script

variable {rest : List Char} {ps qs : List Part} {p : Part} {kind : TokenKind} {cs : List Char}
  {t key : String} {names : List (String × String)}

/-- What stands for a name: a dotted name, or a number that may have a sign. -/
inductive IsTarget (t : String) : Prop where
  | name (pieces : (cut '.' t.toList).all isIdentChars = true)
  | number {negative : Bool} {whole fraction exponent : List Char}
    (spells : Reading.IsUnsigned Char.isDigit whole fraction exponent)
    (text : t.toList = signChars negative ++ (whole ++ (fraction ++ exponent)))

/-- A target that begins as no name does. -/
def isNumeric (t : String) : Bool := t.toList.head?.any fun c => !isIdentStart c

/-- Two tokens one after the other that stay what they are when names are replaced by their targets. -/
structure Sits (names : List (String × String)) (k k' : TokenKind) (touches : Prop) : Prop where
  member : k = .mark .dot → ∀ n ∈ names, k' ≠ .word n.1
  number : ∀ n ∈ names, isNumeric n.2 = true → k = .word n.1 →
    k' = .finish ∨ ∃ m, m ≠ .dot ∧ k' = .mark m
  sign : k = .mark .minus → touches → ∀ n ∈ names, n.2.toList.head? = some '-' → k' ≠ .word n.1

instance {names : List (String × String)} {k k' : TokenKind} {touches : Prop} [Decidable touches] :
    Decidable (Sits names k k' touches) :=
  decidable_of_iff ((k = .mark .dot → ∀ n ∈ names, k' ≠ .word n.1) ∧
      (∀ n ∈ names, isNumeric n.2 = true → k = .word n.1 →
        k' = .finish ∨ ∃ m ∈ Mark.all, m ≠ .dot ∧ k' = .mark m) ∧
      (k = .mark .minus → touches → ∀ n ∈ names, n.2.toList.head? = some '-' → k' ≠ .word n.1)) <| by
    constructor
    · rintro ⟨member, number, sign⟩
      exact ⟨member, fun n listed numeric word => (number n listed numeric word).imp_right
        fun ⟨m, _, other, mark⟩ => ⟨m, other, mark⟩, sign⟩
    · rintro ⟨member, number, sign⟩
      exact ⟨member, fun n listed numeric word => (number n listed numeric word).imp_right
        fun ⟨m, other, mark⟩ => ⟨m, m.mem_all, other, mark⟩, sign⟩

def Part.Sits (names : List (String × String)) (p q : Part) : Prop :=
  Predicate.Sits names p.kind q.kind (q.gap = [])

def targetStarts : List Char := identStarts ++ asciiDigits ++ ['.', '-']

structure Fits (qs : List Part) (t : String) : Prop extends SpelledBy qs t.toList where
  start : ∃ c ∈ t.toList.head?, c ∈ targetStarts
  last : ∀ q ∈ qs.getLast?, ∀ m, q.kind ≠ .mark m
  written : ∀ rest : List Char, (∀ c ∈ rest.head?, isWordPart c = false) →
    (isNumeric t = true → rest.head? ≠ some '.') → Written rest qs

section Targets

def dotted : List (List Char) → List Part
  | [] => []
  | [w] => [⟨[], .word (String.ofList w), w⟩]
  | w :: v :: ws => ⟨[], .word (String.ofList w), w⟩ :: ⟨[], .mark .dot, ['.']⟩ :: dotted (v :: ws)

theorem joined_dotted (s : List Char) : joined [] (dotted (cut '.' s)) = s := by
  induction s with
  | nil => rfl
  | cons c s ih =>
    obtain ⟨w, ws, found⟩ := exists_cut '.' s
    by_cases point : c = '.'
    · subst point
      rw [cut_break, found, dotted, joined, joined, ← found, ih]
      rfl
    · rw [cut_cons point found]
      rw [found] at ih
      cases ws <;> exact congrArg (c :: ·) ih

theorem Firm.word_of {w : List Char} {head : Option Char} (ident : isIdentChars w = true)
    (stops : ∀ c ∈ head, isWordPart c = false) : Firm (.word (String.ofList w)) w head := by
  have firm : Firm (.word (String.ofList w)) (String.ofList w).toList head :=
    .word (by rwa [String.toList_ofList]) stops
  rwa [String.toList_ofList] at firm

theorem isIdentChars_head {w : List Char} (ident : isIdentChars w = true) :
    ∃ c cs, w = c :: cs ∧ isIdentStart c = true := by
  cases w with
  | nil => cases ident
  | cons c cs =>
    rw [isIdentChars, Bool.and_eq_true] at ident
    exact ⟨c, cs, rfl, ident.1⟩

theorem dotted_written {ws : List (List Char)} (ident : ∀ w ∈ ws, isIdentChars w = true)
    (stops : ∀ c ∈ rest.head?, isWordPart c = false) : Written rest (dotted ws) := by
  induction ws using dotted.induct with
  | case1 => exact .nil
  | case2 w => exact .cons nofun (.word_of (ident w List.mem_cons_self) stops) .nil
  | case3 w v ws ih =>
    rw [List.forall_mem_cons] at ident
    obtain ⟨c, cs, rfl, start⟩ := isIdentChars_head (ident.2 v List.mem_cons_self)
    have digit : isDigitMark c = false := by
      have all : (identStarts.all fun c => !isDigitMark c) = true := by decide
      simpa using of_isIdentStart all start
    have head : (joined rest (dotted ((c :: cs) :: ws))).head? = some c := by
      cases ws <;> rfl
    refine .cons nofun (.word_of ident.1 ?_) (.cons nofun ?_ (ih ident.2))
    · rintro _ ⟨⟩
      decide
    · rw [head]
      refine .mark (m := .dot) nofun nofun fun _ => ?_
      rintro _ ⟨⟩
      exact digit

theorem isWordPart_of_digitMark {c : Char} (h : isDigitMark c = true) : isWordPart c = true := by
  have covered : ∀ r ∈ digitSignRanges, ∃ s ∈ numericSignRanges, s.1 ≤ r.1 ∧ r.2 ≤ s.2 := by
    decide +kernel
  rw [isWordPart, Bool.or_eq_true, Bool.or_eq_true, isAlphanumeric, Bool.or_eq_true, Bool.or_eq_true]
  rcases isDigitMark_cases h with decimal | ⟨beyond, r, inside, range⟩
  · exact .inl (.inl (.inl (.inr decimal)))
  · obtain ⟨s, inside', low, high⟩ := covered r inside
    refine .inl (.inl (.inr ?_))
    rw [Bool.and_eq_true, inRanges, List.any_eq_true]
    refine ⟨decide_eq_true beyond, s, inside', ?_⟩
    rw [Bool.and_eq_true, decide_eq_true_eq, decide_eq_true_eq]
    exact ⟨low.trans range.1, range.2.trans high⟩

theorem Firm.number_of {whole fraction exponent : List Char}
    (spells : Reading.IsUnsigned Char.isDigit whole fraction exponent) :
    ∃ x, ∀ head : Option Char, (∀ c ∈ head, isWordPart c = false ∧ c ≠ '.') →
      Firm (.number x) (whole ++ (fraction ++ exponent)) head := by
  have marks := spells.weaken fun c _ digit => of_isDigit (f := isDigitMark) (by decide) digit
  have decimals := spells.weaken fun c _ digit => of_isDigit (f := isDecimal) (by decide) digit
  obtain ⟨x, value⟩ := Option.isSome_iff_exists.mp (Reading.float?_isSome decimals)
  refine ⟨x, fun head stops => .number ?_ value ?_ ?_ ?_⟩
  · intro c member
    rcases spells.chars c member with digit | sign
    · exact List.mem_append_left _ (mem_asciiDigits digit)
    · exact List.mem_append_right _ sign
  · intro c first
    refine Bool.eq_false_iff.mpr fun start => ?_
    have stop := (stops c first).1
    rw [isWordPart_of_start start] at stop
    cases stop
  · intro rest _
    cases whole with
    | cons c ds =>
      have digit := marks.digits c List.mem_cons_self
      rw [List.cons_append, List.cons_append, startsNumber_of_ne (isDigitMark_ne digit (by decide)),
        digit]
    | nil =>
      cases fraction with
      | nil => exact absurd (spells.counts rfl) (by decide)
      | cons point ds =>
        obtain ⟨rfl, digits⟩ := marks.fractional
        cases ds with
        | nil => exact absurd (spells.counts rfl) (by decide)
        | cons d ds => exact digits d List.mem_cons_self
  · rintro rest rfl
    refine numberLength_spelled marks fun c first => ?_
    obtain ⟨stop, point⟩ := stops c first
    refine ⟨Bool.eq_false_iff.mpr fun digit => ?_, point, Bool.eq_false_iff.mpr fun start => ?_⟩
    · rw [isWordPart_of_digitMark digit] at stop
      cases stop
    · rw [isWordPart_of_start start] at stop
      cases stop

theorem dotted_last (ws : List (List Char)) :
    ∀ q ∈ (dotted ws).getLast?, ∀ m, q.kind ≠ .mark m := by
  induction ws using dotted.induct with
  | case1 => exact nofun
  | case2 w =>
    rintro _ ⟨⟩
    exact nofun
  | case3 w v ws ih =>
    have left : dotted (v :: ws) ≠ [] := by cases ws <;> exact nofun
    intro q last
    rw [dotted, List.getLast?_cons_cons, List.getLast?_cons_of_ne_nil left] at last
    exact ih q last

theorem fits_dotted (pieces : (cut '.' t.toList).all isIdentChars = true) : ∃ qs, Fits qs t := by
  obtain ⟨w, ws, found⟩ := exists_cut '.' t.toList
  have text := joined_dotted t.toList
  rw [found] at pieces text
  rw [List.all_eq_true] at pieces
  obtain ⟨c, cs, rfl, start⟩ := isIdentChars_head (pieces w List.mem_cons_self)
  refine ⟨dotted ((c :: cs) :: ws), ⟨text, ?_⟩, ⟨c, ?_, ?_⟩, dotted_last _,
    fun rest stops _ => dotted_written pieces stops⟩
  · cases ws <;> exact ⟨_, rfl, rfl⟩
  · rw [← text]
    cases ws <;> rfl
  · exact List.mem_append_left _ (List.mem_append_left _ (mem_identStarts start))

section Numbers

variable {negative : Bool} {whole fraction exponent : List Char}

theorem exists_first (spells : Reading.IsUnsigned Char.isDigit whole fraction exponent) :
    ∃ c more, whole ++ (fraction ++ exponent) = c :: more ∧ c ∈ asciiDigits ++ ['.'] := by
  obtain ⟨c, more, front, first⟩ := spells.first
  refine ⟨c, more, front, ?_⟩
  rcases first with digit | rfl
  · exact List.mem_append_left _ (mem_asciiDigits digit)
  · decide

theorem exists_head (spells : Reading.IsUnsigned Char.isDigit whole fraction exponent)
    (text : t.toList = signChars negative ++ (whole ++ (fraction ++ exponent))) :
    ∃ d ∈ t.toList.head?, d ∈ asciiDigits ++ ['.', '-'] := by
  obtain ⟨c, more, front, first⟩ := exists_first spells
  rw [text, front]
  cases negative with
  | false =>
    have all : ∀ d ∈ asciiDigits ++ ['.'], d ∈ asciiDigits ++ ['.', '-'] :=
      forall_mem_of_all (by decide)
    exact ⟨c, rfl, all c first⟩
  | true => exact ⟨'-', rfl, by decide⟩

theorem isNumeric_of_head {d : Char} (head : d ∈ t.toList.head?) (start : d ∈ asciiDigits ++ ['.', '-']) :
    isNumeric t = true := by
  have all : ∀ d ∈ asciiDigits ++ ['.', '-'], (!isIdentStart d) = true :=
    forall_mem_of_all (by decide)
  rw [isNumeric, Option.mem_def.mp head, Option.any_some, all d start]

theorem fits_number (spells : Reading.IsUnsigned Char.isDigit whole fraction exponent)
    (text : t.toList = signChars negative ++ (whole ++ (fraction ++ exponent))) : ∃ qs, Fits qs t := by
  obtain ⟨x, firm⟩ := Firm.number_of spells
  obtain ⟨d, head, start⟩ := exists_head spells text
  have starts : d ∈ targetStarts := by
    rw [targetStarts, List.append_assoc]
    exact List.mem_append_right _ start
  have ends (rest : List Char) (stops : ∀ c ∈ rest.head?, isWordPart c = false)
      (point : isNumeric t = true → rest.head? ≠ some '.') :
      Written rest [⟨[], .number x, whole ++ (fraction ++ exponent)⟩] := by
    refine .cons nofun (firm _ fun c next => ⟨stops c next, ?_⟩) .nil
    rintro rfl
    exact point (isNumeric_of_head head start) next
  cases negative with
  | false =>
    refine ⟨[⟨[], .number x, whole ++ (fraction ++ exponent)⟩], ⟨?_, _, rfl, rfl⟩, ⟨d, head, starts⟩,
      ?_, ends⟩
    · rw [text]
      exact List.append_nil _
    · rintro _ ⟨⟩
      exact nofun
  | true =>
    refine ⟨[⟨[], .mark .minus, ['-']⟩, ⟨[], .number x, whole ++ (fraction ++ exponent)⟩],
      ⟨?_, _, rfl, rfl⟩, ⟨d, head, starts⟩, ?_, fun rest stops point =>
        .cons nofun (.mark (m := .minus) ?_ nofun nofun) (ends rest stops point)⟩
    · rw [text]
      exact congrArg ('-' :: ·) (List.append_nil _)
    · rintro _ ⟨⟩
      exact nofun
    · -- the minus sign does not grow with the number behind it
      have all : ∀ d ∈ asciiDigits ++ ['.'], d ∉ Mark.minus.growths :=
        forall_mem_of_all (by decide)
      obtain ⟨c, more, front, first⟩ := exists_first spells
      intro d head
      rw [joined, List.nil_append, front] at head
      cases head
      exact all c first

end Numbers

theorem IsTarget.fits (h : IsTarget t) : ∃ qs, Fits qs t := by
  cases h with
  | name pieces => exact fits_dotted pieces
  | number spells text => exact fits_number spells text

end Targets

section Renaming

variable {n : String × String}

theorem Sits.of_other {k k' : TokenKind} {touches : Prop} (first : ∀ n ∈ names, k ≠ .word n.1)
    (second : ∀ n ∈ names, k' ≠ .word n.1) : Sits names k k' touches where
  member _ := second
  number n member _ same := absurd same (first n member)
  sign _ _ n member _ := second n member

theorem Sits.mono {k k' : TokenKind} {touches : Prop} (h : Sits (n :: names) k k' touches) :
    Sits names k k' touches where
  member dot m member := h.member dot m (List.mem_cons_of_mem n member)
  number m member := h.number m (List.mem_cons_of_mem n member)
  sign minus near m member := h.sign minus near m (List.mem_cons_of_mem n member)

theorem kind_of_mem_placed {g : List Char} {q : Part} (member : q ∈ placed g qs) :
    ∃ q' ∈ qs, q.kind = q'.kind := by
  cases qs with
  | nil => cases member
  | cons q' qs =>
    rcases List.mem_cons.mp member with rfl | later
    · exact ⟨q', List.mem_cons_self, rfl⟩
    · exact ⟨q, List.mem_cons_of_mem q' later, rfl⟩

theorem kind_of_last_placed {g : List Char} {q : Part} (last : q ∈ (placed g qs).getLast?) :
    ∃ q' ∈ qs.getLast?, q.kind = q'.kind := by
  cases qs with
  | nil => cases last
  | cons q' qs =>
    cases qs with
    | nil =>
      cases last
      exact ⟨q', rfl, rfl⟩
    | cons r qs =>
      rw [placed, List.getLast?_cons_cons] at last
      exact ⟨q, by rwa [List.getLast?_cons_cons], rfl⟩

theorem Fits.renamed_ne_nil (fits : Fits qs t) (p : Part) : renamed key qs p ≠ [] := by
  obtain ⟨q, head, _⟩ := fits.front
  rw [renamed]
  split
  · cases qs with
    | nil => cases head
    | cons q' qs => exact List.cons_ne_nil _ _
  · exact List.cons_ne_nil p []

theorem renamed_sits (fits : Fits qs t) (fresh : ∀ n ∈ names, ∀ q ∈ qs, q.kind ≠ .word n.1)
    (sits : ps.IsChain (Part.Sits ((key, t) :: names))) :
    (ps.flatMap (renamed key qs)).IsChain (Part.Sits names) := by
  have target {g : List Char} {q : Part} (member : q ∈ placed g qs) : ∀ n ∈ names, q.kind ≠ .word n.1 := by
    obtain ⟨q', inside, same⟩ := kind_of_mem_placed member
    exact fun n listed => same ▸ fresh n listed q' inside
  induction ps with
  | nil => exact .nil
  | cons p ps ih =>
    rw [List.flatMap_cons, List.isChain_append]
    rw [List.isChain_cons] at sits
    refine ⟨?_, ih sits.2, ?_⟩
    · rw [renamed]
      split
      · refine List.Pairwise.isChain (List.pairwise_of_forall_mem_list fun q first q' second => ?_)
        exact .of_other (target first) (target second)
      · exact .singleton p
    · intro x last y head
      cases ps with
      | nil => cases head
      | cons q ps =>
        have near : Predicate.Sits ((key, t) :: names) p.kind q.kind (q.gap = []) := sits.1 q rfl
        rw [List.flatMap_cons, List.head?_append_of_ne_nil _ (fits.renamed_ne_nil q)] at head
        have after : y = q ∨ q.kind = .word key ∧ ∀ n ∈ names, y.kind ≠ .word n.1 := by
          rw [renamed] at head
          split at head
          · next same => exact .inr ⟨TokenKind.isWord_iff.mp same, target (List.mem_of_head? head)⟩
          · exact .inl (Option.some.inj head).symm
        rw [renamed] at last
        split at last
        · have first := target (List.mem_of_getLast? last)
          obtain ⟨q', last', same⟩ := kind_of_last_placed last
          have other (m : Mark) : x.kind ≠ .mark m := same ▸ fits.last q' last' m
          rcases after with rfl | ⟨_, second⟩
          · exact ⟨fun dot => absurd dot (other _), fun n listed _ word => absurd word (first n listed),
              fun minus => absurd minus (other _)⟩
          · exact .of_other first second
        · obtain rfl : p = x := Option.some.inj last
          rcases after with rfl | ⟨word, second⟩
          · exact near.mono
          · refine ⟨fun _ => second, fun n listed numeric same => ?_, fun _ _ n listed _ => second n listed⟩
            rcases near.number n (List.mem_cons_of_mem _ listed) numeric same with finish | ⟨m, _, mark⟩
            · cases word.symm.trans finish
            · cases word.symm.trans mark

theorem Written.renamed_head (key : String) (fits : Fits qs t) (h : Written rest ps) :
    (joined rest (ps.flatMap (renamed key qs))).head? = (joined rest ps).head? ∨
      ∃ q ∈ ps.head?, q.gap = [] ∧ q.kind = .word key ∧
        (∃ c ∈ (joined rest ps).head?, isWordStart c = true) ∧
        ∃ d ∈ (joined rest (ps.flatMap (renamed key qs))).head?, d ∈ targetStarts ∧
          t.toList.head? = some d := by
  cases h with
  | nil => exact .inl rfl
  | @cons p ps gap firm more =>
    obtain ⟨c, cs, chars⟩ := List.exists_cons_of_ne_nil firm.chars_ne_nil
    rw [List.flatMap_cons, joined_append, renamed]
    split
    · next same =>
      have kind := TokenKind.isWord_iff.mp same
      rw [fits.placed, joined, chars]
      cases empty : p.gap with
      | cons b g => exact .inl rfl
      | nil =>
        obtain ⟨d, head, start⟩ := fits.start
        refine .inr ⟨p, rfl, empty, kind, ⟨c, rfl, ?_⟩, d, ?_, start, head⟩
        · rw [kind, chars] at firm
          generalize whole : c :: cs = w at firm
          cases firm with
          | word ident =>
            rw [← whole, isIdentChars, Bool.and_eq_true] at ident
            exact of_isIdentStart (by decide) ident.1
        · rw [List.nil_append, List.head?_append, Option.mem_def.mp head]
          rfl
    · refine .inl ?_
      simp only [joined, chars, List.head?_append, List.head?_cons, Option.some_or]

theorem Firm.beside (fits : Fits qs t) (h : Written rest ps)
    (firm : Firm kind cs (joined rest ps).head?)
    (sits : ∀ q ∈ ps.head?, Sits ((key, t) :: names) kind q.kind (q.gap = [])) :
    Firm kind cs (joined rest (ps.flatMap (renamed key qs))).head? := by
  rcases h.renamed_head key fits with
    same | ⟨q, next, gap, word, ⟨c, first, start⟩, d, head, begins, front⟩
  · rwa [same]
  have near := sits q next
  -- Only a mark stands directly before a word.
  cases firm with
  | word ident stops =>
    have stop := stops c first
    rw [isWordPart_of_start start] at stop
    cases stop
  | number chars value stops =>
    rw [stops c first] at start
    cases start
  | @mark m stops slash dot =>
    rw [Option.mem_def.mp head]
    refine .mark ?_ ?_ ?_
    · rintro _ ⟨⟩ grows
      have all : ∀ d ∈ targetStarts, ∀ m ∈ Mark.all, d ∈ m.growths → d = '-' ∧ m = .minus :=
        forall_mem_of_all (by decide)
      obtain ⟨rfl, rfl⟩ := all d begins m m.mem_all grows
      exact near.sign rfl gap _ List.mem_cons_self front word
    · rintro _ _ ⟨⟩
      have all : ∀ d ∈ targetStarts, d ≠ '/' ∧ d ≠ '*' := forall_mem_of_all (by decide)
      exact all d begins
    · rintro rfl
      exact absurd word (near.member rfl _ List.mem_cons_self)

theorem Written.head_ne_point (h : Written rest ps) (blank : AllBlank rest)
    (next : ∀ q ∈ ps.head?, q.kind = .finish ∨ ∃ m, m ≠ .dot ∧ q.kind = .mark m) :
    (joined rest ps).head? ≠ some '.' := by
  intro point
  cases h with
  | nil => exact absurd (blank _ (List.mem_of_head? point)) (by decide)
  | @cons p ps gap firm more =>
    cases empty : p.gap with
    | cons c g =>
      rw [joined, empty] at point
      cases point
      exact absurd (gap '.' (by rw [empty]; exact List.mem_cons_self)) (by decide)
    | nil =>
      rw [joined, empty, List.nil_append, List.head?_append_of_ne_nil _ firm.chars_ne_nil] at point
      rcases next p rfl with finish | ⟨m, other, mark⟩
      · rw [finish] at firm
        cases firm
      · rw [mark] at firm
        generalize p.chars = cs at firm point
        cases firm
        have all : ∀ m ∈ Mark.all, m.text.toList.head? = some '.' → m = .dot := by decide
        exact other (all m m.mem_all point)

theorem placed_written {g : List Char} (fits : Fits qs t) (gap : AllBlank g) (h : Written rest qs) :
    Written rest (placed g qs) := by
  cases h with
  | nil => exact .nil
  | cons _ firm more => exact .cons gap firm more

theorem Written.renamed (fits : Fits qs t) (h : Written rest ps) (blank : AllBlank rest)
    (sits : ps.IsChain (Part.Sits ((key, t) :: names))) :
    Written rest (ps.flatMap (renamed key qs)) := by
  induction h with
  | nil => exact .nil
  | @cons p ps gap firm more ih =>
    rw [List.isChain_cons] at sits
    have firm' := firm.beside fits more sits.1
    rw [List.flatMap_cons, Predicate.renamed]
    split
    · next same =>
      have kind := TokenKind.isWord_iff.mp same
      refine Written.append (placed_written fits gap (fits.written _ ?_ fun numeric point => ?_))
        (ih sits.2)
      · rw [kind] at firm'
        generalize p.chars = cs at firm'
        cases firm' with
        | word _ stops => exact stops
      · rcases more.renamed_head key fits with same' | ⟨q, next, _, word, _⟩
        · rw [same'] at point
          refine more.head_ne_point blank (fun q next => ?_) point
          exact (sits.1 q next).number _ List.mem_cons_self numeric kind
        · rcases (sits.1 q next).number _ List.mem_cons_self numeric kind with finish | ⟨m, _, mark⟩
          · cases word.symm.trans finish
          · cases word.symm.trans mark
    · exact .cons gap firm' (ih sits.2)

end Renaming

end Predicate

end EmitterLogic
