import EmitterLogic.Proofs.Script.Enclosed

namespace EmitterLogic.Script

open Text

variable {A B R : List Char} {p : Char → Bool} {n : Nat} {c : Char} {rest : List Char}

section Numbers

theorem takeWhile_stable (le : ((A ++ B).takeWhile p).length ≤ A.length) (same : R.head? = B.head?) :
    (A ++ R).takeWhile p = (A ++ B).takeWhile p := by
  induction A with
  | nil =>
    have none : B.takeWhile p = [] := List.eq_nil_of_length_eq_zero (Nat.le_zero.mp le)
    rw [List.nil_append, List.nil_append, none]
    cases R with
    | nil => rfl
    | cons c R =>
      obtain ⟨B, rfl⟩ : ∃ more, B = c :: more := by
        cases B with
        | nil => cases same
        | cons d B => exact ⟨B, by rw [Option.some.inj same]⟩
      rw [List.takeWhile_cons] at none ⊢
      split
      · next goes =>
        rw [if_pos goes] at none
        cases none
      · rfl
  | cons c A ih =>
    rw [List.cons_append, List.takeWhile_cons] at le ⊢
    rw [List.cons_append, List.takeWhile_cons]
    split
    · next goes =>
      rw [if_pos goes] at le
      rw [ih (Nat.le_of_succ_le_succ le)]
    · rfl

theorem fractionEnd_stable (le : fractionEnd n (A ++ B) ≤ n + A.length) (same : R.head? = B.head?) :
    fractionEnd n (A ++ R) = fractionEnd n (A ++ B) := by
  have other {s : List Char} (h : s.head? ≠ some '.') : fractionEnd n s = n := by
    unfold fractionEnd
    split
    · exact absurd rfl h
    · rfl
  cases A with
  | nil =>
    have plain : B.head? ≠ some '.' := by
      intro head
      obtain ⟨more, rfl⟩ : ∃ more, B = '.' :: more := by
        cases B with
        | nil => cases head
        | cons d B => exact ⟨B, by rw [Option.some.inj head]⟩
      rw [List.nil_append, fractionEnd, List.length_nil] at le
      omega
    rw [List.nil_append, List.nil_append, other plain, other (by rwa [same])]
  | cons c A =>
    by_cases point : c = '.'
    · subst point
      rw [List.cons_append, fractionEnd, List.length_cons] at le
      rw [List.cons_append, List.cons_append, fractionEnd, fractionEnd,
        takeWhile_stable (by omega) same]
    · have head {s : List Char} : (c :: A ++ s).head? ≠ some '.' :=
        fun same => point (Option.some.inj same)
      rw [other head, other head]

theorem exponentEnd_stable (le : exponentEnd n (A ++ B) = n + A.length) (same : R.head? = B.head?)
    (stops : B.head?.any isWordStart = false) : exponentEnd n (A ++ R) = n + A.length := by
  have other {s : List Char} (h : s.head?.any (fun e => e == 'e' || e == 'E') = false) :
      exponentEnd n s = n := by
    cases s with
    | nil => rfl
    | cons e s =>
      have mark : ¬(e == 'e' || e == 'E') = true := by simpa using h
      rw [exponentEnd, if_neg mark]
  cases A with
  | nil =>
    refine other ?_
    rw [List.nil_append, same]
    cases head : B.head? with
    | none => rfl
    | some e =>
      rw [head] at stops
      rw [Option.any_some] at stops ⊢
      refine Bool.eq_false_iff.mpr fun mark => ?_
      rw [Bool.or_eq_true, beq_iff_eq, beq_iff_eq] at mark
      rcases mark with rfl | rfl <;> exact absurd stops (by decide)
  | cons e A =>
    by_cases mark : (e == 'e' || e == 'E') = true
    · rw [List.cons_append, exponentEnd, if_pos mark] at le ⊢
      have digits : (A ++ B).head?.any (fun c => c == '+' || c == '-') =
          (A ++ R).head?.any (fun c => c == '+' || c == '-') := by
        cases A with
        | nil => rw [List.nil_append, List.nil_append, same]
        | cons d A => rfl
      rw [← digits]
      -- The sign and the digits after it are `A`.
      generalize (if (A ++ B).head?.any (fun c => c == '+' || c == '-') = true then 1 else 0) = sign
        at le ⊢
      dsimp only at le ⊢
      rw [List.length_cons] at le ⊢
      split at le
      · omega
      · next some =>
        rw [List.drop_append_of_le_length (by omega)] at le some ⊢
        rw [takeWhile_stable (by rw [List.length_drop]; omega) same, if_neg some]
        exact le
    · have head {s : List Char} : (e :: A ++ s).head?.any (fun e => e == 'e' || e == 'E') = false := by
        simpa using mark
      rw [other head] at le
      rw [List.length_cons] at le
      omega

theorem le_fractionEnd (n : Nat) (s : List Char) : n ≤ fractionEnd n s := by
  obtain ⟨_, _, _, _, count⟩ := fractionEnd_split s
  rw [count]
  exact Nat.le_add_right _ _

theorem numberLength_stable (length : numberLength (A ++ B) = A.length) (same : R.head? = B.head?)
    (stops : B.head?.any isWordStart = false) : numberLength (A ++ R) = A.length := by
  rw [numberLength_eq] at length ⊢
  generalize digits : ((A ++ B).takeWhile isDigitMark).length = d at length
  generalize fraction : fractionEnd d ((A ++ B).drop d) = f at length
  have le : d ≤ f := fraction ▸ le_fractionEnd d _
  have le' : f ≤ A.length := length ▸ le_exponentEnd f _
  have first : ((A ++ R).takeWhile isDigitMark).length = d := by
    rw [takeWhile_stable (by rw [digits]; exact le.trans le') same, digits]
  rw [List.drop_append_of_le_length (le.trans le')] at fraction
  have second : fractionEnd d (A.drop d ++ R) = f := by
    rw [← fraction]
    exact fractionEnd_stable (by rw [fraction, List.length_drop]; omega) same
  have count : A.length = f + (A.drop f).length := by
    rw [List.length_drop]
    omega
  rw [List.drop_append_of_le_length le', count] at length
  rw [first, List.drop_append_of_le_length (le.trans le'), second, List.drop_append_of_le_length le',
    exponentEnd_stable length same stops, ← count]

open Reading

variable {whole fraction exponent : List Char}

theorem fractionEnd_spelled (h : IsFraction isDigitMark fraction)
    (stops : ∀ c ∈ rest.head?, isDigitMark c = false ∧ c ≠ '.') :
    fractionEnd n (fraction ++ rest) = n + fraction.length := by
  cases fraction with
  | nil =>
    rw [List.nil_append]
    unfold fractionEnd
    split
    · exact absurd rfl (stops _ rfl).2
    · rfl
  | cons point ds =>
    obtain ⟨rfl, digits⟩ := h
    have run := takeWhile_append_stop digits fun c head => (stops c head).1
    rw [List.cons_append, fractionEnd, run, List.length_cons]
    omega

theorem exponentEnd_spelled (h : IsExponent isDigitMark exponent) (ends : EndsNumber rest) :
    exponentEnd n (exponent ++ rest) = n + exponent.length := by
  cases exponent with
  | nil =>
    rw [List.nil_append]
    unfold exponentEnd
    split
    · next e more =>
      refine if_neg fun mark => ?_
      rw [Bool.or_eq_true, beq_iff_eq, beq_iff_eq] at mark
      have start := (ends e rfl).2.2
      rcases mark with rfl | rfl <;> cases start
    · rfl
  | cons e more =>
    obtain ⟨mark, some, digits⟩ := h
    have run (sign ds : List Char) (split : more = sign ++ ds) (some : ds ≠ [])
        (digits : ∀ d ∈ ds, isDigitMark d = true)
        (count : (if (more ++ rest).head?.any (fun c => c == '+' || c == '-') then 1 else 0) =
          sign.length) : exponentEnd n (e :: more ++ rest) = n + (e :: more).length := by
      have taken : ((more ++ rest).drop sign.length).takeWhile isDigitMark = ds := by
        rw [split, List.append_assoc, List.drop_left]
        exact takeWhile_append_stop digits fun c head => (ends c head).1
      have left : ¬(ds.length == 0) = true := by simpa using some
      rw [List.cons_append, exponentEnd, if_pos mark]
      dsimp only
      rw [count, taken, if_neg left, List.length_cons, split, List.length_append]
      omega
    cases more with
    | nil => exact absurd rfl some
    | cons c ds =>
      by_cases minus : c = '-'
      · subst minus
        exact run ['-'] ds rfl some digits rfl
      by_cases plus : c = '+'
      · subst plus
        exact run ['+'] ds rfl some digits rfl
      have unsigned : signOf (c :: ds) = (false, c :: ds) :=
        signOf.eq_3 _ (fun _ same => minus (List.cons.inj same).1)
          fun _ same => plus (List.cons.inj same).1
      rw [unsigned] at some digits
      refine run [] (c :: ds) rfl some digits (if_neg ?_)
      rw [List.cons_append, List.head?_cons, Option.any_some, Bool.or_eq_true, beq_iff_eq, beq_iff_eq]
      rintro (rfl | rfl)
      · exact plus rfl
      · exact minus rfl

theorem numberLength_spelled (h : IsUnsigned isDigitMark whole fraction exponent)
    (ends : EndsNumber rest) : numberLength (whole ++ (fraction ++ exponent) ++ rest) =
      (whole ++ (fraction ++ exponent)).length := by
  have afterFraction : ∀ c ∈ (exponent ++ rest).head?, isDigitMark c = false ∧ c ≠ '.' := by
    intro c head
    cases exponent with
    | nil => exact ⟨(ends c head).1, (ends c head).2.1⟩
    | cons e more =>
      cases head
      have mark := h.power.1
      rw [Bool.or_eq_true, beq_iff_eq, beq_iff_eq] at mark
      rcases mark with rfl | rfl <;> decide
  have afterWhole : ∀ c ∈ (fraction ++ (exponent ++ rest)).head?, isDigitMark c = false := by
    intro c head
    cases fraction with
    | nil => exact (afterFraction c head).1
    | cons point ds =>
      cases head
      rw [h.fractional.1]
      decide
  have run : (whole ++ (fraction ++ (exponent ++ rest))).takeWhile isDigitMark = whole :=
    takeWhile_append_stop h.digits afterWhole
  rw [numberLength_eq, List.append_assoc, List.append_assoc, run, List.drop_left,
    fractionEnd_spelled h.fractional afterFraction, ← List.drop_drop, List.drop_left, List.drop_left,
    exponentEnd_spelled h.power ends, List.length_append, List.length_append, Nat.add_assoc]

end Numbers

section Marks

def Mark.growths : Mark → List Char
  | .assign => ['=', '>']
  | .looseEq => ['=']
  | .not => ['=']
  | .looseNe => ['=']
  | .lt => ['=']
  | .gt => ['=']
  | .plus => ['+', '=']
  | .minus => ['-', '=']
  | .star => ['=']
  | .slash => ['=']
  | .percent => ['=']
  | _ => []

def Mark.before (m : Mark) : List Mark := Mark.all.takeWhile (· != m)

theorem find?_eq_some_takeWhile {α : Type} [DecidableEq α] {l : List α} {p : α → Bool} {a : α}
    (member : a ∈ l) (holds : p a = true) :
    l.find? p = some a ↔ ∀ b ∈ l.takeWhile (· != a), p b = false := by
  induction l with
  | nil => cases member
  | cons b l ih =>
    by_cases same : b = a
    · subst same
      rw [List.find?_cons_of_pos holds, List.takeWhile_cons_of_neg (by simp)]
      exact ⟨fun _ => nofun, fun _ => rfl⟩
    · rw [List.takeWhile_cons_of_pos (by simpa using same), List.forall_mem_cons]
      cases first : p b with
      | true =>
        rw [List.find?_cons_of_pos first]
        exact ⟨fun found => absurd (Option.some.inj found) same, fun none => absurd none.1 (by simp)⟩
      | false =>
        rw [List.find?_cons_of_neg (by rw [first]; exact Bool.false_ne_true),
          ih ((List.mem_cons.mp member).resolve_left (Ne.symm same))]
        exact ⟨fun h => ⟨rfl, h⟩, fun h => h.2⟩

theorem Mark.mem_all (m : Mark) : m ∈ Mark.all := by cases m <;> decide

theorem Mark.at?_iff {m : Mark} {s : List Char} : Mark.at? (m.text.toList ++ s) = some m ↔
    ∀ m' ∈ m.before, ¬m'.text.toList <+: m.text.toList ++ s := by
  have whole : m.text.toList.isPrefixOf (m.text.toList ++ s) = true :=
    List.isPrefixOf_iff_prefix.mpr (List.prefix_append _ _)
  rw [at?, find?_eq_some_takeWhile m.mem_all whole]
  refine forall₂_congr fun m' _ => ?_
  rw [← Bool.not_eq_true, List.isPrefixOf_iff_prefix]

theorem Mark.before_shorter {m m' : Mark} (h : m' ∈ m.before) : ¬m'.text.toList <+: m.text.toList := by
  have all : (m.before.all fun m' => !m'.text.toList.isPrefixOf m.text.toList) = true := by
    cases m <;> decide
  rw [← List.isPrefixOf_iff_prefix, Bool.not_eq_true, ← Bool.not_eq_true']
  exact List.all_eq_true.mp all m' h

theorem Mark.growths_longer {m : Mark} {c : Char} (h : c ∈ m.growths) :
    ∃ m' ∈ m.before, m'.text.toList = m.text.toList ++ [c] := by
  have all : (m.growths.all fun c => m.before.any fun m' =>
      m'.text.toList == m.text.toList ++ [c]) = true := by cases m <;> decide
  obtain ⟨m', before, same⟩ := List.any_eq_true.mp (List.all_eq_true.mp all c h)
  exact ⟨m', before, beq_iff_eq.mp same⟩

theorem Mark.mem_growths {m m' : Mark} {c : Char} {cs : List Char}
    (h : m'.text.toList = m.text.toList ++ c :: cs) : c ∈ m.growths := by
  have all : (Mark.all.all fun m => Mark.all.all fun m' =>
      ((dropWord? m.text.toList m'.text.toList).bind List.head?).all m.growths.contains) = true := by
    decide
  have found := List.all_eq_true.mp (List.all_eq_true.mp all m m.mem_all) m' m'.mem_all
  rw [h, dropWord?_append] at found
  exact List.contains_iff_mem.mp found

theorem Mark.at?_text {m : Mark} {s : List Char} :
    Mark.at? (m.text.toList ++ s) = some m ↔ ∀ c ∈ s.head?, c ∉ m.growths := by
  rw [Mark.at?_iff]
  constructor
  · intro none c head grows
    obtain ⟨m', before, longer⟩ := Mark.growths_longer grows
    obtain ⟨more, rfl⟩ : ∃ more, s = c :: more := by
      cases s with
      | nil => cases head
      | cons d more => exact ⟨more, by rw [Option.some.inj head]⟩
    refine none m' before ?_
    rw [longer]
    exact ⟨more, by rw [List.append_assoc, List.singleton_append]⟩
  · intro stops m' before front
    rcases List.prefix_or_prefix_of_prefix front (List.prefix_append _ _) with short | ⟨more, longer⟩
    · exact Mark.before_shorter before short
    · cases more with
      | nil => exact Mark.before_shorter before ⟨[], by rw [List.append_nil, ← longer, List.append_nil]⟩
      | cons c more =>
        rw [← longer, List.prefix_append_right_inj] at front
        obtain ⟨left, rfl⟩ := front
        exact stops c rfl (Mark.mem_growths longer.symm)

theorem lexemeAt_mark {m : Mark} {s : List Char} (stops : ∀ c ∈ s.head?, c ∉ m.growths)
    (slash : m = .slash → ∀ c ∈ s.head?, c ≠ '/' ∧ c ≠ '*')
    (dot : m = .dot → ∀ c ∈ s.head?, isDigitMark c = false) :
    lexemeAt (m.text.toList ++ s) = .ok (m.text.length, .token (.mark m)) := by
  have found := Mark.at?_text.mpr stops
  obtain ⟨c, cs, text, visible, number, quote, word⟩ : ∃ c cs, m.text.toList = c :: cs ∧
      (c == '\n' || isBlank c) = false ∧ isDigitMark c = false ∧ isQuote c = false ∧
        isWordStart c = false := by
    cases m <;> exact ⟨_, _, rfl, by decide, by decide, by decide, by decide⟩
  rw [Bool.or_eq_false_iff] at visible
  have comment (d : Char) (opens : d = '/' ∨ d = '*') : ['/', d].isPrefixOf (c :: cs ++ s) = false := by
    rw [Bool.eq_false_iff]
    intro front
    rw [List.cons_append] at front
    obtain ⟨rfl, more, behind⟩ := prefix_cons front
    by_cases same : m = .slash
    · subst same
      cases text
      obtain ⟨other, other'⟩ := slash rfl d (by rw [← List.nil_append s, behind]; rfl)
      rcases opens with rfl | rfl
      · exact other rfl
      · exact other' rfl
    · have division : ∃ more, cs = '=' :: more := by
        cases m <;> first | exact absurd rfl same | (cases text; exact ⟨_, rfl⟩) | cases text
      obtain ⟨cs, rfl⟩ := division
      rcases opens with rfl | rfl <;> cases behind
  have starts : startsNumber (c :: cs ++ s) = false := by
    by_cases point : c = '.'
    · subst point
      obtain rfl : m = .dot := by cases m <;> first | rfl | cases text
      cases text
      cases s with
      | nil => decide
      | cons d s => exact dot rfl d rfl
    · rw [List.cons_append, startsNumber_of_ne point, number]
  rw [text] at found ⊢
  rw [List.cons_append] at found comment starts ⊢
  rw [lexemeAt, if_neg (by rw [visible.1]; exact Bool.false_ne_true),
    if_neg (by rw [visible.2]; exact Bool.false_ne_true), if_neg, if_neg, if_neg, if_neg, if_neg, found]
  · rw [word]
    exact Bool.false_ne_true
  · rw [quote]
    exact Bool.false_ne_true
  · rw [starts]
    exact Bool.false_ne_true
  · exact Bool.eq_false_iff.mp (comment '*' (.inr rfl))
  · exact Bool.eq_false_iff.mp (comment '/' (.inl rfl))

end Marks

theorem startsNumber_stable (some : A ≠ []) (same : R.head? = B.head?) :
    startsNumber (A ++ R) = startsNumber (A ++ B) := by
  obtain ⟨c, A, rfl⟩ := List.exists_cons_of_ne_nil some
  by_cases point : c = '.'
  · subst point
    cases A with
    | cons d A => rfl
    | nil =>
      cases R with
      | nil =>
        cases B with
        | nil => rfl
        | cons d B => cases same
      | cons c R =>
        cases B with
        | nil => cases same
        | cons d B =>
          obtain rfl : c = d := Option.some.inj same
          rfl
  · rw [List.cons_append, List.cons_append, startsNumber_of_ne point, startsNumber_of_ne point]

end EmitterLogic.Script
