import EmitterLogic.Proofs.Tick.Conditionals

namespace EmitterLogic.Tick

open Text

variable {asks : Bool} {c : Char} {a b e g g' k k' r s t x y note : List Char}

section Lines

variable {ms : List (Matcher (List Char))}

def rewritten (ms : List (Matcher (List Char))) (s : List Char) : List Char :=
  ms.foldl (fun s m => replaceAll m s) s

theorem Quiet.replaceFrom {m : Matcher (List Char)} (h : Quiet s) (gentle : Gentle m)
    (before : Option Char) : Quiet (replaceFrom m before 0 s) := by
  refine gentle.chars (fun c other => ⟨?_, ?_⟩) before h
  · rw [Script.isQuote, Bool.or_eq_false_iff, Bool.or_eq_false_iff]
    simp only [beq_eq_false_iff_ne]
    refine ⟨⟨?_, ?_⟩, ?_⟩ <;> rintro rfl <;> exact other (by decide)
  · rw [divides, Bool.or_eq_false_iff, Bool.or_eq_false_iff, Bool.or_eq_false_iff]
    simp only [beq_eq_false_iff_ne]
    refine ⟨⟨⟨?_, ?_⟩, ?_⟩, ?_⟩ <;> rintro rfl <;> exact other (by decide)

theorem not_mem_rewritten (mild : ∀ m ∈ ms, Mild m) (sign : c ∈ signs true) (none : c ∉ s) :
    c ∉ rewritten ms s := by
  induction ms generalizing s with
  | nil => exact none
  | cons m ms ih =>
    obtain ⟨first, rest⟩ := List.forall_mem_cons.mp mild
    exact ih rest (first.not_mem Option.none sign none)

theorem alike_rewritten (mild : ∀ m ∈ ms, Mild m) (unbroken : '\n' ∉ s) (asks : Bool) :
    Alike asks s (rewritten ms s) := by
  induction ms generalizing s with
  | nil => exact .rfl' s
  | cons m ms ih =>
    obtain ⟨first, rest⟩ := List.forall_mem_cons.mp mild
    exact (first.alike asks unbroken).trans (ih rest (first.not_mem none (by decide) unbroken))

theorem rewritten_comment (mild : ∀ m ∈ ms, Mild m) (tail : IsTail e note) (s : List Char) :
    ∃ note', IsTail e note' ∧ (':' ∉ note → ':' ∉ note') ∧
      rewritten ms (s ++ (e ++ '/' :: '/' :: note)) = rewritten ms s ++ (e ++ '/' :: '/' :: note') := by
  induction ms generalizing s note with
  | nil => exact ⟨note, tail, id, rfl⟩
  | cons m ms ih =>
    obtain ⟨first, rest⟩ := List.forall_mem_cons.mp mild
    have tail' : IsTail e (replaceFrom m (some '/') 0 note) :=
      ⟨tail.idle, tail.unbroken, tail.quiet.replaceFrom first.toGentle _⟩
    obtain ⟨note', tail'', colon, same⟩ := ih rest tail' (replaceAll m s)
    refine ⟨note', tail'', fun none => colon (first.not_mem _ (by decide) none), ?_⟩
    · show rewritten ms (replaceAll m (s ++ (e ++ '/' :: '/' :: note))) = _
      rw [replaceAll, first.replaceFrom_comment tail.idle]
      exact same

def renames : List (Matcher (List Char)) :=
  [afterWord ["const"] fun s => do
      let (name, rest) ← name? (← gap? s)
      return ("val".toList ++ ' ' :: name, rest),
    afterWord ["let"] fun s => do
      let (name, rest) ← name? (← gap? s)
      return ("var".toList ++ ' ' :: name, rest),
    afterWord ["function"] (namedHead "fun"),
    afterWord ["function"] fun s => do return ("fun(".toList, ← dropSign? '(' (trimStart s))]

theorem mild_renames : ∀ m ∈ renames, Mild m := by
  have isTarget : IsTarget "val" ∧ IsTarget "var" ∧ IsTarget "fun" := by
    unfold IsTarget IsLettered
    decide
  have letters : IsLettered "const" ∧ IsLettered "let" ∧ IsLettered "function" := by
    unfold IsLettered
    decide
  simp only [renames, List.forall_mem_cons]
  exact ⟨mild_keyword letters.1 isTarget.1, mild_keyword letters.2.1 isTarget.2.1,
    mild_namedHead letters.2.2 isTarget.2.2, mild_namelessHead letters.2.2 isTarget.2.2,
    List.forall_mem_nil _⟩

theorem kotlinLine_eq (s : List Char) :
    kotlinLine s = withConditional (spacedChoice (rewritten renames (withoutEnd s))) := rfl

theorem withoutEnd_split (s : List Char) : ∃ e, Idle e ∧ s = withoutEnd s ++ e := by
  obtain ⟨g, blank, first⟩ := trimEnd_split s
  obtain ⟨e, semicolons, second⟩ := dropEnd_split (· == ';') (trimEnd s)
  refine ⟨e ++ g, ?_, ?_⟩
  · refine List.forall_mem_append.mpr ⟨fun c member => ?_, idle_of_blank blank⟩
    rw [isIdle, semicolons c member, Bool.or_true]
  · rw [← List.append_assoc, withoutEnd, ← second]
    exact first

theorem withoutEnd_trimEnd (s : List Char) : withoutEnd (trimEnd s) = withoutEnd s := by
  have twice : trimEnd (trimEnd s) = trimEnd s := by
    rw [trimEnd, trimEnd, List.reverse_reverse]
    exact congrArg List.reverse (dropWhile_padded (List.forall_mem_nil _) dropWhile_head)
  rw [withoutEnd, withoutEnd, twice]

theorem withoutEnd_comment (quiet : Quiet note) (s : List Char) :
    withoutEnd (s ++ '/' :: '/' :: note) = s ++ '/' :: '/' :: trimEnd note := by
  have last : ∀ c ∈ (s ++ '/' :: '/' :: trimEnd note).reverse.head?, (c == ';') = false := by
    intro c head
    rw [List.head?_reverse, List.getLast?_append, List.getLast?_cons_cons, List.getLast?_cons,
      Option.some_or] at head
    obtain rfl := Option.some.inj head
    rw [beq_eq_false_iff_ne]
    intro same
    cases ends : (trimEnd note).getLast? with
    | none =>
      rw [ends] at same
      exact absurd same (by decide)
    | some d =>
      rw [ends] at same
      obtain rfl : d = ';' := same
      cases (quiet.trimEnd ';' (List.mem_of_getLast? ends)).2
  rw [withoutEnd, trimEnd_comment]
  cases reversed : (s ++ '/' :: '/' :: trimEnd note).reverse with
  | nil => exact absurd reversed (by simp)
  | cons c rest =>
    rw [reversed] at last
    have stays : ¬(c == ';') = true := by rw [last c rfl]; exact Bool.false_ne_true
    rw [List.dropWhile_cons_of_neg (p := (· == ';')) stays, ← reversed, List.reverse_reverse]

theorem Answered.of_append (h : Answered note (s ++ e)) (idle : Idle e) : Answered note s := by
  have pending := h.pending
  rw [phase_append, Phase.pending_behind _ idle] at pending
  refine ⟨pending, fun asked => h.asked ?_⟩
  rw [phase_append]
  refine Phase.asked_behind asked fun member => ?_
  cases idle _ member

theorem Answered.congr (h : Answered note s) (alike : Alike true s t) : Answered note t := by
  obtain ⟨pending, asked⟩ := h
  rw [alike.phase] at pending asked
  exact ⟨pending, asked⟩

theorem IsTail.append (h : IsTail e note) (blank : Blank g) (unbroken : '\n' ∉ g) (quiet : Quiet r) :
    IsTail (g ++ e) r where
  idle := List.forall_mem_append.mpr ⟨idle_of_blank blank, h.idle⟩
  unbroken := fun member => (List.mem_append.mp member).elim unbroken h.unbroken
  quiet := quiet

theorem not_mem_withoutEnd (none : c ∉ s) : c ∉ withoutEnd s := by
  obtain ⟨e, -, split⟩ := withoutEnd_split s
  rw [split] at none
  exact fun member => none (List.mem_append_left e member)

theorem unbroken_spacedChoice (unbroken : '\n' ∉ s) : '\n' ∉ spacedChoice s := fun member =>
  (mem_spacedChoice unbroken member).elim unbroken (by decide)

theorem unbroken_kotlinLine (unbroken : '\n' ∉ s) : '\n' ∉ kotlinLine s := by
  have renamed := not_mem_rewritten mild_renames (by decide) (not_mem_withoutEnd unbroken)
  have spaced := unbroken_spacedChoice renamed
  exact fun member => (mem_withConditional spaced member).elim spaced (by decide)

theorem exists_kotlinLine_alike (unbroken : '\n' ∉ s) :
    ∃ e, Idle e ∧ Alike false s (kotlinLine s ++ e) := by
  obtain ⟨e, idle, split⟩ := withoutEnd_split s
  have short := not_mem_withoutEnd unbroken
  have renamed := not_mem_rewritten mild_renames (by decide) short
  obtain ⟨g, blank, -, spaced⟩ := exists_spacedChoice_alike renamed
  obtain ⟨k, blank', -, conditional⟩ := exists_withConditional_alike (unbroken_spacedChoice renamed)
  refine ⟨k ++ (g ++ e), ?_, ?_⟩
  · exact List.forall_mem_append.mpr
      ⟨idle_of_blank blank', List.forall_mem_append.mpr ⟨idle_of_blank blank, idle⟩⟩
  · have whole := (((alike_rewritten mild_renames short false).trans (spaced false)).trans
      (conditional.append (.rfl' g))).append (.rfl' e)
    rw [← split] at whole
    rw [kotlinLine_eq]
    simpa only [List.append_assoc] using whole

theorem kotlinLine_comment (unbroken : '\n' ∉ s) (quiet : Quiet note) (answered : Answered note s) :
    ∃ e note', IsTail e note' ∧
      kotlinLine (s ++ '/' :: '/' :: note) = kotlinLine s ++ (e ++ '/' :: '/' :: note') ∧
      Alike false s (kotlinLine s ++ e) := by
  obtain ⟨e, idle, split⟩ := withoutEnd_split s
  have short := not_mem_withoutEnd unbroken
  have plain : '\n' ∉ e := fun member => unbroken (split ▸ List.mem_append_right _ member)
  have ends : withoutEnd (s ++ '/' :: '/' :: note) = withoutEnd s ++ (e ++ '/' :: '/' :: trimEnd note) := by
    rw [withoutEnd_comment quiet, ← List.append_assoc, ← split]
  have tail : IsTail e (trimEnd note) := ⟨idle, plain, quiet.trimEnd⟩
  have answered₀ : Answered (trimEnd note) (withoutEnd s) := by
    rw [split] at answered
    obtain ⟨pending, asked⟩ := answered.of_append idle
    exact ⟨pending, fun open' member => asked open' (mem_trimEnd member)⟩
  obtain ⟨note₁, tail₁, colon₁, same₁⟩ := rewritten_comment mild_renames tail (withoutEnd s)
  have answered₁ : Answered note₁ (rewritten renames (withoutEnd s)) := by
    obtain ⟨pending, asked⟩ := answered₀.congr (alike_rewritten mild_renames short true)
    exact ⟨pending, fun open' => colon₁ (asked open')⟩
  have renamed := not_mem_rewritten mild_renames (by decide) short
  obtain ⟨g, note₂, blank, plain', quiet₂, colon₂, same₂, spaced⟩ :=
    spacedChoice_comment tail₁ renamed [] answered₁
  have tail₂ := tail₁.append blank plain' quiet₂
  have answered₂ : Answered note₂ (spacedChoice (rewritten renames (withoutEnd s))) := by
    obtain ⟨pending, asked⟩ := (answered₁.congr (spaced true)).of_append (idle_of_blank blank)
    exact ⟨pending, fun open' => colon₂ (asked open')⟩
  obtain ⟨k, note₃, blank', plain'', quiet₃, same₃, conditional⟩ :=
    withConditional_comment tail₂ (unbroken_spacedChoice renamed) [] answered₂
  refine ⟨k ++ (g ++ e), note₃, tail₂.append blank' plain'' quiet₃, ?_, ?_⟩
  · rw [kotlinLine_eq, kotlinLine_eq, ends, same₁, same₂, ← List.append_assoc g, same₃]
    simp only [List.append_assoc]
  · have whole := (((alike_rewritten mild_renames short false).trans (spaced false)).trans
      (conditional.append (.rfl' g))).append (.rfl' e)
    rw [← split] at whole
    rw [kotlinLine_eq]
    simpa only [List.append_assoc] using whole

end Lines

section Fronts

variable {ms : List (Matcher (List Char))}

theorem faithful_spacedChoice : Faithful fun _ s out => out = spacedChoice s where
  letter {before s c r} made kind := by
    cases s with
    | nil => cases made
    | cons d t =>
      rw [spacedChoice] at made
      split at made
      · obtain ⟨rfl, -⟩ := List.cons.inj made
        exact absurd kind (by decide)
      · obtain ⟨rfl, rfl⟩ := List.cons.inj made
        exact ⟨t, rfl, rfl⟩
  head {s r} made _ := by
    subst made
    cases s with
    | nil => rfl
    | cons d t =>
      rw [spacedChoice]
      split
      · next ch found =>
        split at found
        · next question => rw [beq_iff_eq.mp question]; rfl
        · cases found
      · rfl

theorem faithful_withConditional : Faithful fun _ s out => '\n' ∉ s ∧ out = withConditional s where
  letter {before s c r} made kind := by
    obtain ⟨unbroken, made⟩ := made
    cases s with
    | nil => cases made
    | cons d t =>
      cases here : conditionalHere? (d :: t) with
      | none =>
        rw [List.mem_cons, not_or] at unbroken
        rw [withConditional_none here (Ne.symm unbroken.1)] at made
        obtain ⟨rfl, rfl⟩ := List.cons.inj made
        exact ⟨t, rfl, unbroken.2, rfl⟩
      | some out =>
        obtain ⟨cond, h, a, b, -, -, -, -, rfl⟩ := conditionalHere?_split unbroken here
        rw [withConditional_some here] at made
        obtain ⟨rfl, -⟩ := List.cons.inj made
        exact absurd kind (by decide)
  head {s r} made ends := by
    obtain ⟨unbroken, rfl⟩ := made
    cases s with
    | nil => rfl
    | cons d t =>
      cases here : conditionalHere? (d :: t) with
      | none =>
        rw [List.mem_cons, not_or] at unbroken
        rw [withConditional_none here (Ne.symm unbroken.1)]
        rfl
      | some out =>
        obtain ⟨cond, h, a, b, -, -, -, -, rfl⟩ := conditionalHere?_split unbroken here
        rw [withConditional_some here] at ends
        exact absurd (ends 'i' rfl) (by decide)

theorem beginsElse_rewritten (mild : ∀ m ∈ ms, Mild m) (begins : BeginsElse (rewritten ms s)) :
    BeginsElse s := by
  induction ms generalizing s with
  | nil => exact begins
  | cons m ms ih =>
    obtain ⟨first, rest⟩ := List.forall_mem_cons.mp mild
    exact first.faithful.beginsElse none rfl (ih rest begins)

theorem frontElse_rewritten (mild : ∀ m ∈ ms, Mild m) (front : FrontElse (rewritten ms s)) :
    FrontElse s := by
  induction ms generalizing s with
  | nil => exact front
  | cons m ms ih =>
    obtain ⟨first, rest⟩ := List.forall_mem_cons.mp mild
    exact first.faithful.frontElse none rfl (ih rest front)

theorem BeginsElse.append (h : BeginsElse s) (next : ∀ c ∈ t.head?, Script.isWordPart c = false) :
    BeginsElse (s ++ t) := by
  obtain ⟨rest, rfl, ends⟩ := h
  refine ⟨rest ++ t, rfl, fun c head => ?_⟩
  cases rest with
  | nil => exact next c head
  | cons d rest => exact ends c head

theorem FrontElse.append (h : FrontElse s) (next : ∀ c ∈ t.head?, Script.isWordPart c = false) :
    FrontElse (s ++ t) := by
  obtain ⟨e, x, rfl, idle, begins⟩ := h
  exact ⟨e, x ++ t, List.append_assoc .., idle, begins.append next⟩

theorem isWordPart_of_idle (h : isIdle c = true) : Script.isWordPart c = false :=
  isWordPart_of_stops (by rw [stops, h, Bool.true_or])

theorem FrontElse.of_idle (idle : Idle e) (h : FrontElse s) : FrontElse (e ++ s) := by
  obtain ⟨d, x, rfl, idle', begins⟩ := h
  exact ⟨e ++ d, x, (List.append_assoc ..).symm, List.forall_mem_append.mpr ⟨idle, idle'⟩, begins⟩

theorem frontElse_kotlinLine (unbroken : '\n' ∉ s) (front : FrontElse (kotlinLine s)) : FrontElse s := by
  have short := not_mem_withoutEnd unbroken
  have renamed := not_mem_rewritten mild_renames (by decide) short
  rw [kotlinLine_eq] at front
  have spaced := faithful_withConditional.frontElse none ⟨unbroken_spacedChoice renamed, rfl⟩ front
  have plain := frontElse_rewritten mild_renames (faithful_spacedChoice.frontElse none rfl spaced)
  obtain ⟨e, idle, split⟩ := withoutEnd_split s
  rw [split]
  exact plain.append fun c head => isWordPart_of_idle (idle c (List.mem_of_mem_head? head))

end Fronts

end EmitterLogic.Tick
