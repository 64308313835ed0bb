import EmitterLogic.Proofs.Tick.Choices

namespace EmitterLogic.Tick

open Text

variable {asks : Bool} {c : Char} {a b e g g' k k' r s t x y note : List Char}

section Conditionals

def withConditional (s : List Char) : List Char := (conditional? s).getD s

theorem withConditional_some {out : List Char} (here : conditionalHere? (c :: s) = some out) :
    withConditional (c :: s) = out := by
  rw [withConditional, conditional?, here]
  rfl

theorem withConditional_none (here : conditionalHere? (c :: s) = none) (unbroken : c ≠ '\n') :
    withConditional (c :: s) = c :: withConditional s := by
  have inLine : ¬(c == '\n') = true := fun same => unbroken (beq_iff_eq.mp same)
  rw [withConditional, conditional?, here]
  simp only [inLine]
  rw [withConditional]
  cases conditional? s <;> rfl

theorem conditionalHere?_eq (s : List Char) : conditionalHere? s =
    if (s.takeWhile isConditionChar).isEmpty then none
    else (dropSign? '?' (trimStart (s.dropWhile isConditionChar))).bind fun r => (choice? r).map fun ch =>
      "if (".toList ++ s.takeWhile isConditionChar ++ ") ".toList ++ ch.yes ++ " else ".toList ++ ch.no := by
  rw [conditionalHere?]
  split
  · rfl
  · cases dropSign? '?' (trimStart (s.dropWhile isConditionChar)) with
    | none => rfl
    | some r =>
      simp only [Option.bind_eq_bind, Option.bind_some]
      cases choice? r <;> rfl

theorem ordinary_condition {cond : List Char} (h : ∀ c ∈ cond, isConditionChar c = true) :
    Ordinary asks cond := ordinary_of (by decide) h

theorem visible_condition (h : isConditionChar c = true) : isBlank c = false := by
  rw [Bool.eq_false_iff]
  intro blank
  rw [isConditionChar, Bool.or_eq_true, Bool.or_eq_true, Bool.or_eq_true, beq_iff_eq, beq_iff_eq,
    beq_iff_eq] at h
  rcases h with ((part | rfl) | rfl) | rfl
  · rw [isBlank_of_wordPart (Script.isWordPart_of_ident part)] at blank
    cases blank
  all_goals exact absurd blank (by decide)

theorem alike_conditional {cond h : List Char} (some : cond ≠ [])
    (condition : ∀ c ∈ cond, isConditionChar c = true) (blank : Blank h)
    (unbroken : '\n' ∉ h ++ '?' :: (a ++ ':' :: b)) (blank' : Blank g) (split : b = g ++ (trim b ++ k)) :
    Alike false (cond ++ (h ++ '?' :: (a ++ ':' :: b)))
      ("if (".toList ++ cond ++ ") ".toList ++ trim a ++ " else ".toList ++ trim b ++ k) := by
  obtain ⟨i, i', white, white', split'⟩ := trim_split a
  have inside : ∀ c ∈ h ++ '?' :: (i ++ (trim a ++ i') ++ ':' :: (g ++ (trim b ++ k))), c ≠ '\n' := by
    rw [← split, ← split']
    exact fun c member same => unbroken (same ▸ member)
  simp only [List.forall_mem_append, List.forall_mem_cons] at inside
  obtain ⟨one, -, ⟨two, -, three⟩, -, four, -⟩ := inside
  have plain {x : List Char} (blank : Blank x) (unbroken : ∀ c ∈ x, c ≠ '\n') : Ordinary false x :=
    ordinary_blank blank fun member => unbroken _ member rfl
  obtain ⟨c, cond, rfl⟩ := List.exists_cons_of_ne_nil some
  have head :
      Alike false ((c :: cond) ++ (h ++ '?' :: i)) ("if (".toList ++ ((c :: cond) ++ ") ".toList)) := by
    refine .of_ordinary (not_blank_of_head (visible_condition (condition c List.mem_cons_self)))
      (not_blank_of_head (c := 'i') (by decide)) ?_ ?_ fun w => ?_
    · refine (ordinary_condition condition).append ((plain blank one).append ?_)
      exact List.forall_mem_cons.mpr ⟨by decide, plain white two⟩
    · exact Ordinary.append (by decide) ((ordinary_condition condition).append (by decide))
    · rw [← List.append_assoc, ← List.append_assoc, wordBehind_append,
        wordBehind_stop (c := '?') (by decide) (by decide), wordBehind_blank white]
      rw [wordBehind_append]
      exact (wordBehind_stop (c := ')') (by decide) (by decide) _ [' ']).symm
  have middle : Alike false (i' ++ ':' :: g) " else ".toList := by
    have shown : ¬Blank " else ".toList := by decide
    refine .of_ordinary (fun blank => ?_) shown ?_ (by decide) fun w => ?_
    · cases blank ':' (by simp)
    · exact (plain white' three).append (List.forall_mem_cons.mpr ⟨by decide, plain blank' four⟩)
    · rw [wordBehind_append, wordBehind_stop (c := ':') (by decide) (by decide), wordBehind_blank blank']
      exact (wordBehind_fresh (c := 'e') blank_space (List.cons_ne_nil _ _) (by decide) w "lse ".toList).symm
  have whole : (c :: cond) ++ (h ++ '?' :: (a ++ ':' :: b)) =
      ((c :: cond) ++ (h ++ '?' :: i)) ++ (trim a ++ ((i' ++ ':' :: g) ++ (trim b ++ k))) := by
    calc (c :: cond) ++ (h ++ '?' :: (a ++ ':' :: b)) =
          (c :: cond) ++ (h ++ '?' :: (i ++ (trim a ++ i') ++ ':' :: (g ++ (trim b ++ k)))) := by
          rw [← split, ← split']
      _ = _ := by simp only [List.append_assoc, List.cons_append]
  rw [whole]
  have pieces := head.append ((Alike.rfl' (trim a)).append (middle.append (.rfl' (trim b ++ k))))
  simpa only [List.append_assoc] using pieces

theorem conditionalHere?_split {out : List Char} (unbroken : '\n' ∉ s)
    (found : conditionalHere? s = some out) :
    ∃ cond h a b, s = cond ++ (h ++ '?' :: (a ++ ':' :: b)) ∧ cond ≠ [] ∧
      (∀ c ∈ cond, isConditionChar c = true) ∧ Blank h ∧
      out = "if (".toList ++ cond ++ ") ".toList ++ trim a ++ " else ".toList ++ trim b := by
  have whole := List.takeWhile_append_dropWhile (p := isConditionChar) (l := s)
  rw [conditionalHere?_eq] at found
  split at found
  · cases found
  · next some =>
    obtain ⟨r, sign, found⟩ := Option.bind_eq_some_iff.mp found
    obtain ⟨ch, read, rfl⟩ := Option.map_eq_some_iff.mp found
    obtain ⟨h, blank, split⟩ := (dropSign?_trimStart_eq_some_iff (by decide)).mp sign
    rw [split] at whole
    have unbroken' : '\n' ∉ r := fun inside => unbroken (by rw [← whole]; simp [inside])
    obtain ⟨a, b, rfl, rfl⟩ := choice?_split unbroken' read
    exact ⟨_, h, a, b, whole.symm, fun none => some (List.isEmpty_iff.mpr none),
      fun _ => List.mem_takeWhile_imp, blank, rfl⟩

theorem exists_withConditional_alike (unbroken : '\n' ∉ s) :
    ∃ g, Blank g ∧ '\n' ∉ g ∧ Alike false s (withConditional s ++ g) := by
  induction s with
  | nil => exact ⟨[], List.forall_mem_nil _, by decide, .rfl' []⟩
  | cons c s ih =>
    have inLine := List.mem_cons.not.mp unbroken
    rw [not_or] at inLine
    cases here : conditionalHere? (c :: s) with
    | none =>
      obtain ⟨g, blank, plain, alike⟩ := ih inLine.2
      refine ⟨g, blank, plain, ?_⟩
      rw [withConditional_none here (Ne.symm inLine.1)]
      exact (Alike.rfl' [c]).append alike
    | some out =>
      obtain ⟨cond, h, a, b, split, some, condition, blank, rfl⟩ := conditionalHere?_split unbroken here
      obtain ⟨g, k, blank', blank'', ends⟩ := trim_split b
      have inside : '\n' ∉ h ++ '?' :: (a ++ ':' :: b) := fun member =>
        unbroken (split ▸ List.mem_append_right cond member)
      refine ⟨k, blank'', fun member => inside ?_, ?_⟩
      · rw [ends]
        simp [member]
      · rw [withConditional_some here, split]
        exact alike_conditional some condition blank inside blank' ends

theorem takeWhile_stopped {f : Char → Bool} (stop : ∀ c ∈ t.head?, f c = false) :
    (s ++ t).takeWhile f = s.takeWhile f ∧ (s ++ t).dropWhile f = s.dropWhile f ++ t := by
  induction s with
  | nil =>
    cases t with
    | nil => exact ⟨rfl, rfl⟩
    | cons c t =>
      have first : ¬f c = true := by rw [stop c rfl]; exact Bool.false_ne_true
      exact ⟨List.takeWhile_cons_of_neg first, List.dropWhile_cons_of_neg first⟩
  | cons c s ih =>
    by_cases goes : f c = true
    · rw [List.cons_append, List.takeWhile_cons_of_pos goes, List.takeWhile_cons_of_pos goes,
        List.dropWhile_cons_of_pos goes, List.dropWhile_cons_of_pos goes, ih.1, ih.2]
      exact ⟨rfl, rfl⟩
    · rw [List.cons_append, List.takeWhile_cons_of_neg goes, List.takeWhile_cons_of_neg goes,
        List.dropWhile_cons_of_neg goes, List.dropWhile_cons_of_neg goes]
      exact ⟨rfl, rfl⟩

theorem IsTail.head (h : IsTail e note) : ∀ c ∈ (e ++ '/' :: '/' :: note).head?, stops c = true := by
  intro c first
  refine stops_comment h.idle c ?_
  cases e with
  | nil => exact Option.some.inj first ▸ List.mem_cons_self
  | cons d e => exact Option.some.inj first ▸ List.mem_cons_self

theorem IsTail.no_question (h : IsTail e note) (blank : Blank s) :
    dropSign? '?' (trimStart (s ++ (e ++ '/' :: '/' :: note))) = none := by
  obtain ⟨g, blank', split, shown⟩ := trimStart_split e
  have start : trimStart (s ++ (e ++ '/' :: '/' :: note)) = trimStart e ++ '/' :: '/' :: note := by
    have front : s ++ (e ++ '/' :: '/' :: note) = (s ++ g) ++ (trimStart e ++ '/' :: '/' :: note) := by
      calc s ++ (e ++ '/' :: '/' :: note) = s ++ (g ++ trimStart e ++ '/' :: '/' :: note) := by rw [← split]
        _ = _ := by simp only [List.append_assoc]
    rw [front]
    refine trimStart_append (blank.append blank') ?_
    intro c head
    cases left : trimStart e with
    | nil =>
      rw [left] at head
      exact Option.some.inj head ▸ (by decide)
    | cons d e' =>
      rw [left] at head shown
      exact Option.some.inj head ▸ shown d rfl
  rw [start]
  cases left : trimStart e with
  | nil => rfl
  | cons d e' =>
    have inside : d ∈ e := by
      rw [split, left]
      simp
    have other : ¬(d == '?') = true := fun same => by
      have idle := h.idle d inside
      rw [beq_iff_eq.mp same] at idle
      cases idle
    exact if_neg other

theorem stops_condition (stop : stops c = true) : isConditionChar c = false := by
  rw [Bool.eq_false_iff]
  intro part
  have visible := visible_condition part
  rw [stops, isIdle, visible, Bool.false_or, Bool.or_eq_true, beq_iff_eq, beq_iff_eq] at stop
  rcases stop with rfl | rfl <;> exact absurd part (by decide)

theorem conditionalHere?_comment (tail : IsTail e note) (unbroken : '\n' ∉ s) (pre : List Char)
    (answered : Answered note (pre ++ s)) :
    (conditionalHere? s = none ∧ conditionalHere? (s ++ (e ++ '/' :: '/' :: note)) = none) ∨
    ∃ cond h a b, s = cond ++ (h ++ '?' :: (a ++ ':' :: b)) ∧ cond ≠ [] ∧
      (∀ c ∈ cond, isConditionChar c = true) ∧ Blank h ∧ trim b ≠ [] ∧
      conditionalHere? s =
        some ("if (".toList ++ cond ++ ") ".toList ++ trim a ++ " else ".toList ++ trim b) ∧
      conditionalHere? (s ++ (e ++ '/' :: '/' :: note)) = some ("if (".toList ++ cond ++ ") ".toList ++
        trim a ++ " else ".toList ++ trim (b ++ (e ++ '/' :: '/' :: note))) := by
  obtain ⟨take, drop⟩ := takeWhile_stopped (f := isConditionChar) (s := s) fun c head =>
    stops_condition (tail.head c head)
  obtain ⟨h, blank, split, shown⟩ := trimStart_split (s.dropWhile isConditionChar)
  have whole := List.takeWhile_append_dropWhile (p := isConditionChar) (l := s)
  have condition : ∀ c ∈ s.takeWhile isConditionChar, isConditionChar c = true :=
    fun _ => List.mem_takeWhile_imp
  rw [conditionalHere?_eq, conditionalHere?_eq, take, drop]
  generalize s.takeWhile isConditionChar = cond at *
  generalize s.dropWhile isConditionChar = x at *
  by_cases some : cond = []
  · exact .inl ⟨if_pos (List.isEmpty_iff.mpr some), if_pos (List.isEmpty_iff.mpr some)⟩
  · have some' : ¬cond.isEmpty = true := fun none => some (List.isEmpty_iff.mp none)
    rw [if_neg some', if_neg some']
    cases left : trimStart x with
    | nil =>
      rw [left, List.append_nil] at split
      rw [tail.no_question (split ▸ blank)]
      exact .inl ⟨rfl, rfl⟩
    | cons c r =>
      rw [left] at split shown
      have start : trimStart (x ++ (e ++ '/' :: '/' :: note)) = c :: (r ++ (e ++ '/' :: '/' :: note)) := by
        rw [split, List.append_assoc, trimStart_append blank]
        · rfl
        · exact shown
      rw [start, dropSign?, dropSign?]
      by_cases question : c = '?'
      · subst question
        rw [if_pos (beq_self_eq_true _), if_pos (beq_self_eq_true _), Option.bind_some, Option.bind_some]
        rw [split] at whole
        have front : pre ++ s = pre ++ (cond ++ h) ++ '?' :: r := by
          rw [← whole]
          simp only [List.append_assoc]
        rw [front] at answered
        have plain : '\n' ∉ r := fun inside => unbroken (by rw [← whole]; simp [inside])
        rcases choice?_comment tail plain answered with ⟨here, there⟩ | ⟨a, b, rfl, visible, here, there⟩
        · rw [here, there]
          exact .inl ⟨rfl, rfl⟩
        · rw [here, there]
          exact .inr ⟨cond, h, a, b, whole.symm, some, condition, blank, visible, rfl, rfl⟩
      · have other : ¬(c == '?') = true := fun same => question (beq_iff_eq.mp same)
        rw [if_neg other, if_neg other]
        exact .inl ⟨rfl, rfl⟩

theorem conditionalHere?_stops (stop : stops c = true) : conditionalHere? (c :: s) = none := by
  have first : ¬isConditionChar c = true := by rw [stops_condition stop]; exact Bool.false_ne_true
  rw [conditionalHere?_eq, List.takeWhile_cons_of_neg first]
  rfl

theorem mem_withConditional (unbroken : '\n' ∉ s) (member : c ∈ withConditional s) :
    c ∈ s ∨ c ∈ "if () else ".toList := by
  induction s with
  | nil => exact .inl member
  | cons d s ih =>
    have inLine := List.mem_cons.not.mp unbroken
    rw [not_or] at inLine
    cases here : conditionalHere? (d :: s) with
    | none =>
      rw [withConditional_none here (Ne.symm inLine.1)] at member
      rcases List.mem_cons.mp member with rfl | later
      · exact .inl List.mem_cons_self
      · exact (ih inLine.2 later).imp_left (List.mem_cons_of_mem d)
    | some out =>
      obtain ⟨cond, h, a, b, split, -, -, -, rfl⟩ := conditionalHere?_split unbroken here
      rw [withConditional_some here] at member
      rw [split]
      simp only [List.mem_append] at member
      rcases member with ((((sign | inside) | sign) | yes) | sign) | no
      · exact .inr (by revert sign; simp; tauto)
      · exact .inl (by simp [inside])
      · exact .inr (by revert sign; simp; tauto)
      · exact .inl (by simp [mem_trim yes])
      · exact .inr (by revert sign; simp; tauto)
      · exact .inl (by simp [mem_trim no])

theorem Quiet.withConditional (h : Quiet s) : Quiet (withConditional s) := by
  have signs : ∀ c ∈ "if () else ".toList, Script.isQuote c = false ∧ divides c = false := by decide
  intro c member
  rcases mem_withConditional h.unbroken member with inside | sign
  · exact h c inside
  · exact signs c sign

theorem withConditional_comment (tail : IsTail e note) (unbroken : '\n' ∉ s) (pre : List Char)
    (answered : Answered note (pre ++ s)) :
    ∃ g note', Blank g ∧ '\n' ∉ g ∧ Quiet note' ∧
      withConditional (s ++ (e ++ '/' :: '/' :: note)) =
        withConditional s ++ (g ++ (e ++ '/' :: '/' :: note')) ∧
      Alike false s (withConditional s ++ g) := by
  -- From the left; `pre` has been passed without a conditional, and only tells which signs are in front.
  induction s generalizing pre with
  | nil =>
    refine ⟨[], withConditional note, List.forall_mem_nil _, by decide, tail.quiet.withConditional, ?_,
      .rfl' []⟩
    have skip : ∀ x : List Char, (∀ c ∈ x, stops c = true ∧ c ≠ '\n') →
        withConditional (x ++ note) = x ++ withConditional note := by
      intro x all
      induction x with
      | nil => rfl
      | cons c x ih =>
        obtain ⟨⟨stop, inLine⟩, later⟩ := List.forall_mem_cons.mp all
        rw [List.cons_append, withConditional_none (conditionalHere?_stops stop) inLine, ih later]
        rfl
    have skipped := skip (e ++ ['/', '/']) fun c member => ⟨stops_comment tail.idle c member, by
      rintro rfl
      rcases List.mem_append.mp member with inside | slash
      · exact tail.unbroken inside
      · exact absurd slash (by decide)⟩
    rw [List.append_assoc, List.append_assoc] at skipped
    exact skipped
  | cons c s ih =>
    have inLine := List.mem_cons.not.mp unbroken
    rw [not_or] at inLine
    rcases conditionalHere?_comment tail unbroken pre answered with
      ⟨here, there⟩ | ⟨cond, h, a, b, split, some, condition, blank, visible, here, there⟩
    · obtain ⟨g, note', blank, plain, quiet, same, alike⟩ := ih inLine.2 (pre ++ [c]) (by simpa using answered)
      refine ⟨g, note', blank, plain, quiet, ?_, ?_⟩
      · rw [List.cons_append] at there ⊢
        rw [withConditional_none there (Ne.symm inLine.1), withConditional_none here (Ne.symm inLine.1), same]
        rfl
      · rw [withConditional_none here (Ne.symm inLine.1)]
        exact (Alike.rfl' [c]).append alike
    · obtain ⟨g, blank', inside, ⟨g', blank'', -, ends⟩, trims⟩ := trim_comment visible
      have plain : '\n' ∉ h ++ '?' :: (a ++ ':' :: b) := fun member =>
        unbroken (split ▸ List.mem_append_right cond member)
      refine ⟨g, trimEnd note, blank', fun member => plain ?_, tail.quiet.trimEnd, ?_, ?_⟩
      · simp [inside _ member]
      · rw [List.cons_append] at there ⊢
        rw [withConditional_some there, withConditional_some here, trims]
        simp only [List.append_assoc]
      · rw [withConditional_some here, split]
        exact alike_conditional some condition blank plain blank'' ends

end Conditionals

end EmitterLogic.Tick
