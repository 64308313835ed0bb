import EmitterLogic.Proofs.Tick.SignMatchers

namespace EmitterLogic.Tick

open Text

variable {asks : Bool} {c : Char} {a b e g g' k k' r s t x y note : List Char}

section Phases

theorem Phase.asked_behind {p : Phase} (open' : p.asked = true) (none : ':' ∉ s) :
    (p.behind true s).asked = true := by
  induction s generalizing p with
  | nil => exact open'
  | cons c s ih =>
    rw [List.mem_cons, not_or] at none
    refine ih ?_ none.2
    have other : (c == ':') = false := beq_eq_false_iff_ne.mpr (Ne.symm none.1)
    rw [after, other, open']
    rfl

theorem Phase.behind_idle {α : Type} {f : Phase → α}
    (stays : ∀ p c, isIdle c = true → f (p.after asks c) = f p) (p : Phase) (idle : Idle s) :
    f (p.behind asks s) = f p := by
  induction s generalizing p with
  | nil => rfl
  | cons c s ih =>
    obtain ⟨first, rest⟩ := List.forall_mem_cons.mp idle
    exact (ih (p.after asks c) rest).trans (stays p c first)

theorem Phase.pending_behind (p : Phase) (idle : Idle s) : (p.behind asks s).pending = p.pending := by
  refine p.behind_idle (fun p c idle => ?_) idle
  rw [after, idle]
  rfl

theorem Phase.after_sign {p : Phase} (marked : p.quoting.Marked) (sign : c = '?' ∨ c = ':') :
    p.after asks c = { p.settled [] with
      asked := if asks && c == ':' then false else p.asked || (asks && c == '?')
      pending := asks && c == ':' && p.asked } := by
  have basic : c ∉ signs false := by rcases sign with rfl | rfl <;> decide
  have none {d : Char} (inside : d ∈ signs false) : (c == d) = false :=
    beq_eq_false_iff_ne.mpr fun same => basic (same ▸ inside)
  have visible : isBlank c = false := by rcases sign with rfl | rfl <;> decide
  have whole : divides c = false := by
    rw [divides, none (by decide), none (by decide), none (by decide), none (by decide)]
    rfl
  have slash : (c == '/') = false := none (by decide)
  have semicolon : (c == ';') = false := none (by decide)
  have word : wordAfter p.word c = [] := by
    rw [wordAfter, visible]
    rcases sign with rfl | rfl <;> rfl
  have open' : (c == openBrace) = false := none (by decide)
  have close : (c == closeBrace) = false := none (by decide)
  rw [Phase.after, marked.after_ordinary basic, whole, isIdle, visible, slash, semicolon, open', close, word]
  simp [Phase.settled]

theorem Phase.behind_blank {p : Phase} (marked : p.quoting.Marked) (quoting : p.quoting.settled = p.quoting)
    (visible : p.visible = true) (slash : p.slash = false) (word : p.word = [])
    (ordinary : Ordinary asks k) (blank : Blank k) : p.behind asks k = p := by
  induction k with
  | nil => rfl
  | cons d k ih =>
    obtain ⟨first, rest⟩ := List.forall_mem_cons.mp ordinary
    obtain ⟨white, blank⟩ := List.forall_mem_cons.mp blank
    have still : p.after asks d = p := by
      have none : wordAfter p.word d = p.word := by
        rw [word]
        exact wordBehind_blank (List.forall_mem_singleton.mpr white)
      rw [after_ordinary marked first, quoting, none, visible, white, ← slash, Bool.true_or,
        Bool.true_and, ← visible, if_pos rfl]
    show (p.after asks d).behind asks k = p
    rw [still]
    exact ih rest blank

theorem Phase.behind_sign {p : Phase} (marked : p.quoting.Marked) (sign : c = '?' ∨ c = ':')
    (before : Ordinary asks g) (after' : Ordinary asks k) (blank : Blank k) :
    p.behind asks (g ++ c :: k) = p.after asks c := by
  obtain ⟨same, marked'⟩ := settled_behind marked before []
  have asked : (p.behind asks g).asked = p.asked := by
    show ((p.behind asks g).settled []).asked = (p.settled []).asked
    rw [same]
  have here : (p.behind asks g).after asks c = p.after asks c := by
    rw [after_sign marked' sign, after_sign marked sign, same, asked]
  rw [behind, List.foldl_append, List.foldl_cons]
  show ((p.behind asks g).after asks c).behind asks k = p.after asks c
  rw [here]
  have fields : p.after asks c = _ := after_sign marked sign
  refine behind_blank (marked_after marked c) ?_ ?_ ?_ ?_ after' blank
  · rw [fields]
    exact Quoting.settled_settled p.quoting
  · rw [fields]
    rfl
  · rw [fields]
    rfl
  · rw [fields]
    rfl

theorem Alike.sign (sign : c = '?' ∨ c = ':') (ahead : Blank g) (behind : Blank g')
    (ahead' : Blank k) (behind' : Blank k') (unbroken : '\n' ∉ g ++ (g' ++ (k ++ k'))) :
    Alike asks (g ++ c :: g') (k ++ c :: k') := by
  simp only [List.mem_append, not_or] at unbroken
  obtain ⟨one, two, three, four⟩ := unbroken
  intro s
  rw [phase_append, phase_append,
    Phase.behind_sign (phase_marked s) sign (ordinary_blank ahead one) (ordinary_blank behind two) behind,
    Phase.behind_sign (phase_marked s) sign (ordinary_blank ahead' three)
      (ordinary_blank behind' four) behind']

end Phases

section Choices

theorem lastLine?_unbroken (unbroken : '\n' ∉ s) :
    lastLine? s = if s = [] then none else some (trim s, []) := by
  have ends : (s.getLast? == some '\n') = false := by
    rw [beq_eq_false_iff_ne]
    exact fun last => unbroken (List.mem_of_getLast? last)
  by_cases none : s = []
  · subst none
    rfl
  · rw [if_neg none, lastLine?, ends]
    obtain ⟨g, blank, split, shown⟩ := trimStart_split s
    cases left : trimStart s with
    | nil =>
      have last : s.getLast?.any (· != '\n') = true := by
        obtain ⟨c, last⟩ := Option.ne_none_iff_exists'.mp (fun h => none (List.getLast?_eq_none_iff.mp h))
        rw [last, Option.any_some, bne_iff_ne]
        rintro rfl
        exact unbroken (List.mem_of_getLast? last)
      simp only [left, List.isEmpty_nil, if_true, last, Bool.false_eq_true, if_false]
      rw [trim, left]
      rfl
    | cons c rest =>
      have inside : (c :: rest).contains '\n' = false := by
        rw [Bool.eq_false_iff, ne_eq, List.contains_iff_mem, ← left]
        intro member
        exact unbroken (split ▸ List.mem_append_right g member)
      simp only [left, List.isEmpty_cons, Bool.false_eq_true, if_false, inside]
      rw [trim, left]

theorem takeWhile_colon (none : ':' ∉ a) : (a ++ ':' :: b).takeWhile (· != ':') = a ∧
    (a ++ ':' :: b).dropWhile (· != ':') = ':' :: b := by
  have all : ∀ c ∈ a, (c != ':') = true := fun c member => by
    simpa using fun same : c = ':' => none (same ▸ member)
  constructor
  · exact Script.takeWhile_append_stop all fun c head => by simpa using head.symm
  · rw [List.dropWhile_append_of_pos all]
    rfl

theorem choice?_of_colon (unbroken : '\n' ∉ b) (none : ':' ∉ a) : choice? (a ++ ':' :: b) =
    if a = [] ∨ b = [] then Option.none else some ⟨trim a, trim b, []⟩ := by
  obtain ⟨first, second⟩ := takeWhile_colon (b := b) none
  have colon : dropSign? ':' (':' :: b) = some b := rfl
  rw [choice?, first, second, colon]
  by_cases nothing : a = []
  · subst nothing
    rfl
  · have some' : a.isEmpty = false := by rw [List.isEmpty_eq_false_iff]; exact nothing
    simp only [some', nothing, false_or, Option.bind_eq_bind, Option.bind_some, Bool.false_eq_true,
      if_false, lastLine?_unbroken unbroken]
    by_cases last : b = []
    · rw [if_pos last, if_pos last]
      rfl
    · rw [if_neg last, if_neg last]
      rfl

theorem choice?_of_none (none : ':' ∉ s) : choice? s = Option.none := by
  have all : ∀ c ∈ s, (c != ':') = true := fun c member => by
    simpa using fun same : c = ':' => none (same ▸ member)
  have rest : s.dropWhile (· != ':') = [] := by
    rw [List.dropWhile_eq_nil_iff]
    exact all
  rw [choice?, rest]
  split
  · rfl
  · rfl

theorem colon_split (h : ':' ∈ s) : ∃ a b, s = a ++ ':' :: b ∧ ':' ∉ a := by
  obtain ⟨a, b, rfl, none⟩ := List.eq_append_cons_of_mem h
  exact ⟨a, b, rfl, none⟩

theorem choice?_split {ch : Choice} (unbroken : '\n' ∉ s) (found : choice? s = some ch) :
    ∃ a b, s = a ++ ':' :: b ∧ ch = ⟨trim a, trim b, []⟩ := by
  by_cases colon : ':' ∈ s
  · obtain ⟨a, b, rfl, none⟩ := colon_split colon
    have unbroken' : '\n' ∉ b := fun inside =>
      unbroken (List.mem_append_right a (List.mem_cons_of_mem _ inside))
    rw [choice?_of_colon unbroken' none] at found
    split at found
    · cases found
    · exact ⟨a, b, rfl, (Option.some.inj found).symm⟩
  · rw [choice?_of_none colon] at found
    cases found

theorem mem_trim (member : c ∈ trim s) : c ∈ s := by
  obtain ⟨g, g', -, -, split⟩ := trim_split s
  rw [split]
  exact List.mem_append_right g (List.mem_append_left g' member)

theorem dropEnd_split (f : Char → Bool) (s : List Char) :
    ∃ e, (∀ c ∈ e, f c = true) ∧ s = (s.reverse.dropWhile f).reverse ++ e := by
  refine ⟨(s.reverse.takeWhile f).reverse, fun c member => ?_, ?_⟩
  · exact List.mem_takeWhile_imp (List.mem_reverse.mp member)
  · rw [← List.reverse_append, List.takeWhile_append_dropWhile, List.reverse_reverse]

theorem trimEnd_split (s : List Char) : ∃ g, Blank g ∧ s = trimEnd s ++ g :=
  dropEnd_split isBlank s

theorem trimEnd_append (h : trimEnd t ≠ []) : trimEnd (s ++ t) = s ++ trimEnd t := by
  rw [trimEnd, ne_eq, List.reverse_eq_nil_iff] at h
  rw [trimEnd, List.reverse_append, List.dropWhile_append, if_neg (by simpa using h), List.reverse_append,
    List.reverse_reverse]
  rfl

theorem trimEnd_comment (s note : List Char) :
    trimEnd (s ++ '/' :: '/' :: note) = s ++ '/' :: '/' :: trimEnd note := by
  have visible : isBlank '/' = false := by decide
  have last : trimEnd ('/' :: '/' :: note) = '/' :: '/' :: trimEnd note := by
    rw [trimEnd_cons_of_not _ visible, trimEnd_cons_of_not _ visible]
  rw [trimEnd_append (by rw [last]; exact List.cons_ne_nil _ _), last]

theorem trim_comment (some : trim s ≠ []) : ∃ g, Blank g ∧ (∀ c ∈ g, c ∈ s) ∧
    (∃ g', Blank g' ∧ (∀ c ∈ g', c ∈ s) ∧ s = g' ++ (trim s ++ g)) ∧ ∀ t note,
    trim (s ++ (t ++ '/' :: '/' :: note)) = trim s ++ (g ++ (t ++ '/' :: '/' :: trimEnd note)) := by
  obtain ⟨g', g, blank', blank, split⟩ := trim_split s
  have inside : ∀ c ∈ g' ++ (trim s ++ g), c ∈ s := fun c member => split ▸ member
  simp only [List.forall_mem_append] at inside
  refine ⟨g, blank, inside.2.2, ⟨g', blank', inside.1, split⟩, fun t note => ?_⟩
  have shown : Shown (trim s ++ (g ++ (t ++ '/' :: '/' :: note))) := by
    intro c head
    rw [List.head?_append_of_ne_nil _ some] at head
    exact trim_first c head
  have front : s ++ (t ++ '/' :: '/' :: note) = g' ++ (trim s ++ (g ++ (t ++ '/' :: '/' :: note))) := by
    calc s ++ (t ++ '/' :: '/' :: note) = g' ++ (trim s ++ g) ++ (t ++ '/' :: '/' :: note) :=
          congrArg (· ++ _) split
      _ = _ := by simp only [List.append_assoc]
  rw [trim, front, trimStart_append blank' shown]
  have ends := trimEnd_comment (trim s ++ (g ++ t)) note
  simpa only [List.append_assoc] using ends

/-- What stands in no unit's way: no quotes and nothing at which a unit ends. -/
def Quiet (s : List Char) : Prop := ∀ c ∈ s, Script.isQuote c = false ∧ divides c = false

instance (s : List Char) : Decidable (Quiet s) :=
  inferInstanceAs (Decidable (∀ c ∈ s, Script.isQuote c = false ∧ divides c = false))

theorem Quiet.unbroken (h : Quiet s) : '\n' ∉ s := fun inside => by cases (h _ inside).2

theorem Quiet.mono (h : Quiet s) (part : ∀ c ∈ t, c ∈ s) : Quiet t := fun c member => h c (part c member)

structure Answered (note s : List Char) : Prop where
  pending : (phase true s).pending = false
  asked : (phase true s).asked = true → ':' ∉ note

theorem Answered.choice (h : Answered note (s ++ '?' :: r)) :
    (∃ a b, r = a ++ ':' :: b ∧ ':' ∉ a ∧ ¬Idle b) ∨ ':' ∉ r ∧ ':' ∉ note := by
  have question : ((phase true s).after true '?').asked = true := by
    rw [Phase.after]
    exact Bool.or_true _
  have whole (r : List Char) : phase true (s ++ '?' :: r) =
      ((phase true s).after true '?').behind true r := phase_append true s ('?' :: r)
  by_cases colon : ':' ∈ r
  · obtain ⟨a, b, rfl, none⟩ := colon_split colon
    refine .inl ⟨a, b, rfl, none, fun idle => ?_⟩
    have pending := h.pending
    rw [whole, Phase.behind, List.foldl_append, List.foldl_cons] at pending
    have still : (((((phase true s).after true '?').behind true a).after true ':').behind true b).pending =
        ((((phase true s).after true '?').behind true a).after true ':').pending :=
      Phase.pending_behind _ idle
    rw [Phase.behind] at still
    rw [Phase.behind] at still
    rw [still, Phase.after] at pending
    rw [show isIdle ':' = false by decide] at pending
    have open' := Phase.asked_behind question none
    rw [Phase.behind] at open'
    rw [open'] at pending
    cases pending
  · refine .inr ⟨colon, h.asked ?_⟩
    rw [whole]
    exact Phase.asked_behind question colon

theorem spacedChoice_skip (none : '?' ∉ s) : spacedChoice (s ++ t) = s ++ spacedChoice t := by
  induction s with
  | nil => rfl
  | cons c s ih =>
    rw [List.mem_cons, not_or] at none
    have other : ¬(c == '?') = true := fun same => none.1 (beq_iff_eq.mp same).symm
    rw [List.cons_append, spacedChoice, if_neg other]
    exact congrArg (c :: ·) (ih none.2)

theorem mem_spacedChoice (unbroken : '\n' ∉ s) (member : c ∈ spacedChoice s) :
    c ∈ s ∨ c ∈ ['?', ' ', ':'] := by
  induction s with
  | nil => exact .inl member
  | cons d s ih =>
    have later : '\n' ∉ s := fun inside => unbroken (List.mem_cons_of_mem d inside)
    rw [spacedChoice] at member
    split at member
    · next ch found =>
      split at found
      · obtain ⟨a, b, rfl, rfl⟩ := choice?_split later found
        simp only [List.mem_append] at member
        rcases member with (((sign | yes) | sign) | no) | none
        · exact .inr (by revert sign; simp; tauto)
        · exact .inl (by simp [mem_trim yes])
        · exact .inr (by revert sign; simp; tauto)
        · exact .inl (by simp [mem_trim no])
        · cases none
      · cases found
    · rcases List.mem_cons.mp member with rfl | inside
      · exact .inl List.mem_cons_self
      · exact (ih later inside).imp_left (List.mem_cons_of_mem d)

theorem Quiet.spacedChoice (h : Quiet s) : Quiet (spacedChoice s) := by
  intro c member
  rcases mem_spacedChoice h.unbroken member with inside | sign
  · exact h c inside
  · simp only [List.mem_cons, List.not_mem_nil, or_false] at sign
    rcases sign with rfl | rfl | rfl <;> decide

theorem alike_choice (unbroken : '\n' ∉ a ++ ':' :: b) (blank : Blank g) (split : b = g ++ (trim b ++ k))
    (asks : Bool) : Alike asks ('?' :: (a ++ ':' :: b))
      ("? ".toList ++ trim a ++ " : ".toList ++ trim b ++ k) := by
  obtain ⟨h, h', blank', blank'', split'⟩ := trim_split a
  have inside : ∀ c ∈ h ++ (trim a ++ h') ++ ':' :: (g ++ (trim b ++ k)), c ≠ '\n' := by
    rw [← split, ← split']
    exact fun c member same => unbroken (same ▸ member)
  simp only [List.forall_mem_append, List.forall_mem_cons] at inside
  obtain ⟨⟨one, -, two⟩, -, three, -⟩ := inside
  have question : Alike asks ('?' :: h) ['?', ' '] :=
    Alike.sign (g := []) (k := []) (.inl rfl) (List.forall_mem_nil _) blank' (List.forall_mem_nil _) blank_space
      fun member => one _ (by simpa using member) rfl
  have colon : Alike asks (h' ++ ':' :: g) [' ', ':', ' '] := by
    refine Alike.sign (k := [' ']) (.inr rfl) blank'' blank blank_space blank_space fun member => ?_
    rcases List.mem_append.mp member with inside | member
    · exact two _ inside rfl
    · rcases List.mem_append.mp member with inside | member
      · exact three _ inside rfl
      · exact absurd member (by decide)
  have whole : '?' :: (a ++ ':' :: b) = ('?' :: h) ++ (trim a ++ ((h' ++ ':' :: g) ++ (trim b ++ k))) := by
    calc '?' :: (a ++ ':' :: b) = '?' :: (h ++ (trim a ++ h') ++ ':' :: (g ++ (trim b ++ k))) := by
          rw [← split, ← split']
      _ = _ := by simp only [List.append_assoc, List.cons_append]
  rw [whole]
  have pieces : Alike asks _ ("? ".toList ++ (trim a ++ (" : ".toList ++ (trim b ++ k)))) :=
    question.append ((Alike.rfl' (trim a)).append (colon.append (.rfl' (trim b ++ k))))
  simpa only [List.append_assoc] using pieces

theorem exists_spacedChoice_alike (unbroken : '\n' ∉ s) :
    ∃ g, Blank g ∧ '\n' ∉ g ∧ ∀ asks, Alike asks s (spacedChoice s ++ g) := by
  induction s with
  | nil => exact ⟨[], List.forall_mem_nil _, by decide, fun _ => .rfl' []⟩
  | cons c s ih =>
    rw [List.mem_cons, not_or] at unbroken
    obtain ⟨g, blank, plain, alike⟩ := ih unbroken.2
    rw [spacedChoice]
    split
    · next ch found =>
      split at found
      · next question =>
        obtain ⟨a, b, rfl, rfl⟩ := choice?_split unbroken.2 found
        obtain rfl := beq_iff_eq.mp question
        obtain ⟨h, h', blank', blank'', split⟩ := trim_split b
        have ends : ∀ c ∈ h', c ∈ a ++ ':' :: b := fun c member => by
          rw [split]
          simp [member]
        refine ⟨h', blank'', fun inside => unbroken.2 (ends _ inside), fun asks => ?_⟩
        simpa only [List.append_nil] using alike_choice unbroken.2 blank' split asks
      · cases found
    · exact ⟨g, blank, plain, fun asks => (Alike.rfl' [c]).append (alike asks)⟩

theorem spacedChoice_of_colon (none : ':' ∉ s) : spacedChoice s = s := by
  induction s with
  | nil => rfl
  | cons c s ih =>
    rw [List.mem_cons, not_or] at none
    rw [spacedChoice, choice?_of_none none.2, ite_self, ih none.2]

theorem idle_of_blank (blank : Blank s) : Idle s := fun c member => by
  rw [isIdle, blank c member, Bool.true_or]

theorem trim_ne_nil (h : ¬Blank s) : trim s ≠ [] := by
  intro none
  obtain ⟨g, g', blank, blank', split⟩ := trim_split s
  rw [none, List.nil_append] at split
  exact h (split ▸ blank.append blank')

structure IsTail (e note : List Char) : Prop where
  idle : Idle e
  unbroken : '\n' ∉ e
  quiet : Quiet note

theorem IsTail.not_mem (h : IsTail e note) (sign : isIdle c = false) (slash : c ≠ '/') (none : c ∉ note) :
    c ∉ e ++ '/' :: '/' :: note := by
  simp only [List.mem_append, List.mem_cons, not_or]
  refine ⟨fun member => ?_, slash, slash, none⟩
  rw [h.idle c member] at sign
  cases sign

theorem IsTail.not_mem_newline (h : IsTail e note) (none : '\n' ∉ s) :
    '\n' ∉ s ++ (e ++ '/' :: '/' :: note) := by
  simp only [List.mem_append, List.mem_cons, not_or]
  exact ⟨none, h.unbroken, by decide, by decide, h.quiet.unbroken⟩

theorem mem_trimEnd (member : c ∈ trimEnd s) : c ∈ s := by
  rw [trimEnd, List.mem_reverse] at member
  exact List.mem_reverse.mp ((List.dropWhile_suffix _).subset member)

theorem Quiet.trimEnd (h : Quiet s) : Quiet (trimEnd s) := h.mono fun _ => mem_trimEnd

theorem choice?_comment (tail : IsTail e note) (unbroken : '\n' ∉ r) (answered : Answered note (s ++ '?' :: r)) :
    (choice? r = none ∧ choice? (r ++ (e ++ '/' :: '/' :: note)) = none) ∨
    ∃ a b, r = a ++ ':' :: b ∧ trim b ≠ [] ∧ choice? r = some ⟨trim a, trim b, []⟩ ∧
      choice? (r ++ (e ++ '/' :: '/' :: note)) =
        some ⟨trim a, trim (b ++ (e ++ '/' :: '/' :: note)), []⟩ := by
  rcases answered.choice with ⟨a, b, rfl, none, tells⟩ | ⟨none, none'⟩
  · have plain : '\n' ∉ b := fun inside => unbroken (by simp [inside])
    have visible : trim b ≠ [] := trim_ne_nil fun blank => tells (idle_of_blank blank)
    have front : a ++ ':' :: b ++ (e ++ '/' :: '/' :: note) =
        a ++ ':' :: (b ++ (e ++ '/' :: '/' :: note)) := by simp
    rw [front, choice?_of_colon plain none, choice?_of_colon (tail.not_mem_newline plain) none]
    by_cases nothing : a = []
    · exact .inl ⟨if_pos (.inl nothing), if_pos (.inl nothing)⟩
    · refine .inr ⟨a, b, rfl, visible, if_neg ?_, if_neg ?_⟩
      · rintro (none | none)
        · exact nothing none
        · subst none
          exact visible rfl
      · rintro (none | none)
        · exact nothing none
        · exact absurd none (by simp)
  · refine .inl ⟨choice?_of_none none, choice?_of_none fun member => ?_⟩
    exact (List.mem_append.mp member).elim none (tail.not_mem (by decide) (by decide) none')

theorem spacedChoice_comment (tail : IsTail e note) (unbroken : '\n' ∉ s)
    (pre : List Char) (answered : Answered note (pre ++ s)) :
    ∃ g note', Blank g ∧ '\n' ∉ g ∧ Quiet note' ∧ (':' ∉ note → ':' ∉ note') ∧
      spacedChoice (s ++ (e ++ '/' :: '/' :: note)) =
        spacedChoice s ++ (g ++ (e ++ '/' :: '/' :: note')) ∧
      ∀ asks, Alike asks s (spacedChoice s ++ g) := by
  induction s generalizing pre with
  | nil =>
    refine ⟨[], spacedChoice note, List.forall_mem_nil _, by decide, tail.quiet.spacedChoice,
      fun none => ?_, ?_, fun _ => .rfl' []⟩
    · rw [spacedChoice_of_colon none]
      exact none
    · have none : '?' ∉ e ++ ['/', '/'] := by
        simp only [List.mem_append, not_or]
        refine ⟨fun member => ?_, by decide⟩
        cases tail.idle _ member
      have skipped := spacedChoice_skip (t := note) none
      rw [List.append_assoc, List.append_assoc] at skipped
      exact skipped
  | cons c s ih =>
    rw [List.mem_cons, not_or] at unbroken
    have goes := ih unbroken.2 (pre ++ [c]) (by simpa using answered)
    -- Where no choice begins, the character stays, with and without the comment.
    have skip (here : (if c == '?' then choice? s else none) = none)
        (there : (if c == '?' then choice? (s ++ (e ++ '/' :: '/' :: note)) else none) = none) :
        ∃ g note', Blank g ∧ '\n' ∉ g ∧ Quiet note' ∧ (':' ∉ note → ':' ∉ note') ∧
          spacedChoice (c :: s ++ (e ++ '/' :: '/' :: note)) =
            spacedChoice (c :: s) ++ (g ++ (e ++ '/' :: '/' :: note')) ∧
          ∀ asks, Alike asks (c :: s) (spacedChoice (c :: s) ++ g) := by
      obtain ⟨g, note', blank, plain, quiet', colon, same, alike⟩ := goes
      refine ⟨g, note', blank, plain, quiet', colon, ?_, fun asks => ?_⟩
      · rw [List.cons_append, spacedChoice, there, spacedChoice, here, same]
        rfl
      · rw [spacedChoice, here]
        exact (Alike.rfl' [c]).append (alike asks)
    by_cases question : c = '?'
    · subst question
      rcases choice?_comment tail unbroken.2 answered with
        ⟨here, there⟩ | ⟨a, b, rfl, visible, here, there⟩
      · exact skip (by rw [here, ite_self]) (by rw [there, ite_self])
      · obtain ⟨g, blank, inside, ⟨g', blank', -, split⟩, ends⟩ := trim_comment visible
        rw [ends] at there
        refine ⟨g, trimEnd note, blank, fun member => unbroken.2 (by simp [inside _ member]),
          tail.quiet.trimEnd, fun colon member => colon (mem_trimEnd member), ?_, fun asks => ?_⟩
        · rw [List.cons_append, spacedChoice, spacedChoice, if_pos (beq_self_eq_true _),
            if_pos (beq_self_eq_true _), here, there]
          simp
        · rw [spacedChoice, if_pos (beq_self_eq_true _), here]
          simpa only [List.append_nil] using alike_choice unbroken.2 blank' split asks
    · have other : ¬(c == '?') = true := fun same => question (beq_iff_eq.mp same)
      exact skip (if_neg other) (if_neg other)

end Choices

end EmitterLogic.Tick
