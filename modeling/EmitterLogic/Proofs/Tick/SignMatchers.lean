import EmitterLogic.Proofs.Tick.WordMatchers

namespace EmitterLogic.Tick

open Text

section Matchers

variable {before : Option Char} {n : Nat} {s t v w out rest rest' : List Char} {c sign : Char}
  {word target : String}

theorem spacedWord_eq_some_iff : spacedWord before s = some (n, out) ↔
    before.any isWordChar = false ∧ ∃ w ∈ ["if", "for", "while", "when", "catch"],
      ∃ rest, s = w.toList ++ '(' :: rest ∧ n = w.toList.length + 1 ∧ out = w.toList ++ " (".toList := by
  have length (w : String) (rest : List Char) :
      (w.toList ++ '(' :: rest).length - rest.length = w.toList.length + 1 := by
    rw [List.length_append, List.length_cons]
    omega
  constructor
  · intro matched
    obtain ⟨w, member, matched⟩ := List.exists_of_findSome?_eq_some matched
    obtain ⟨free, w', member', t, rest, rfl, found, rfl⟩ := of_afterWord matched
    obtain rfl := List.mem_singleton.mp member'
    obtain ⟨rest', opened, found⟩ := Option.bind_eq_some_iff.mp found
    cases found
    obtain rfl := dropSign?_eq_some_iff.mp opened
    exact ⟨free, w', member, rest, rfl, length w' rest, rfl⟩
  · rintro ⟨free, w, member, rest, rfl, rfl, rfl⟩
    have only : PrefixFree ["if", "for", "while", "when", "catch"] := by
      unfold PrefixFree
      decide
    have each (w : String) : PrefixFree [w] := fun v member v' member' _ => by
      rw [List.mem_singleton.mp member, List.mem_singleton.mp member']
    refine findSome?_of_only member ?_ fun w' member' other => ?_
    · have found : (do return (w.toList ++ " (".toList, ← dropSign? '(' ('(' :: rest)) :
          Option (List Char × List Char)) = some (w.toList ++ " (".toList, rest) := rfl
      rw [afterWord_of (each w) free List.mem_cons_self found, length]
    · cases matched : afterWord [w'] (fun s => do
          return (w'.toList ++ " (".toList, ← dropSign? '(' s)) before (w.toList ++ '(' :: rest) with
      | none => rfl
      | some taken =>
        obtain ⟨k, out⟩ := taken
        obtain ⟨-, v, member'', t, rest', whole, -, -⟩ := of_afterWord matched
        obtain rfl := List.mem_singleton.mp member''
        rcases List.prefix_or_prefix_of_prefix (List.prefix_append w.toList ('(' :: rest))
          (whole ▸ List.prefix_append v.toList t) with first | second
        · exact absurd (only w member v member' (List.isPrefixOf_iff_prefix.mpr first)).symm other
        · exact absurd (only v member' w member (List.isPrefixOf_iff_prefix.mpr second)) other

theorem mild_spacedWord : Mild spacedWord := by
  have letters : ∀ w ∈ ["if", "for", "while", "when", "catch"], IsTarget w := by
    simp only [List.forall_mem_cons, IsTarget, IsLettered]
    decide
  refine .of_iff (F := fun before => before.any isWordChar = false)
    (T := fun v out => ∃ w ∈ ["if", "for", "while", "when", "catch"],
      v = w.toList ++ ['('] ∧ out = w.toList ++ " (".toList) (E := fun _ => True) ?_ ?_ ?_
    (fun _ _ _ _ => trivial) fun c other => iff_of_true other rfl
  · intro before s n out
    rw [spacedWord_eq_some_iff]
    refine and_congr_right fun _ => ?_
    constructor
    · rintro ⟨w, member, rest, rfl, rfl, rfl⟩
      exact ⟨w.toList ++ ['('], rest, by simp, by simp, ⟨w, member, rfl, rfl⟩, trivial⟩
    · rintro ⟨_, rest, rfl, rfl, ⟨w, member, rfl, rfl⟩, -⟩
      exact ⟨w, member, rest, by simp, by simp, rfl⟩
  · rintro before _ _ free ⟨w, member, rfl, rfl⟩
    have target := letters w member
    have follows : Follows ['('] (w.toList ++ " (".toList) :=
      ⟨⟨'(', rfl, by decide⟩, by decide, target.front,
        target.ordinary.append (show Ordinary true [' ', '('] by decide),
        fun v v' => by
          have spaced : w.toList ++ " (".toList = (w.toList ++ [' ']) ++ ['('] := by simp
          rw [spaced, wordBehind_last (by decide) (by decide)]
          exact wordBehind_last (by decide) (by decide) v []⟩
    exact follows.swap target.1 free
  · rintro _ _ ⟨w, -, rfl, -⟩ c last
    rw [List.getLast?_concat] at last
    exact Option.some.inj last ▸ (by decide)

theorem mild_text {part : String} (tells : ∀ c ∈ part.toList ++ target.toList, isIdle c = false)
    (ordinary : Ordinary true (part.toList ++ target.toList))
    (signs : ∀ c ∈ part.toList ++ target.toList, isWordChar c = false)
    (front : ∃ c v w, part.toList = c :: v ∧ target.toList = c :: w ∧ c ∉ ['e', 'l', 's']) :
    Mild fun _ s => (dropWord? part.toList s).map fun _ => (part.length, target.toList) := by
  refine .of_iff (F := fun _ => True) (T := fun w out => w = part.toList ∧ out = target.toList)
    (E := fun _ => True) ?_ ?_ ?_ (fun _ _ _ _ => trivial) fun _ _ => Iff.rfl
  · intro before s n out
    constructor
    · intro matched
      obtain ⟨rest, found, same⟩ := Option.map_eq_some_iff.mp matched
      cases same
      exact ⟨trivial, part.toList, rest, dropWord?_eq_some_iff.mp found, String.length_toList.symm,
        ⟨rfl, rfl⟩, trivial⟩
    · rintro ⟨-, _, rest, rfl, rfl, ⟨rfl, rfl⟩, -⟩
      rw [dropWord?_append, String.length_toList]
      rfl
  · rintro before _ _ - ⟨rfl, rfl⟩
    obtain ⟨c, v, w, same, same', other⟩ := front
    obtain ⟨taken, put⟩ := List.forall_mem_append.mp ordinary
    have first : isIdle c = false := tells c (List.mem_append_left _ (by rw [same]; exact List.mem_cons_self))
    have visible := visible_of_idle first
    refine .of_ordinary ⟨c, v, same, visible⟩ (fun d member => .inr (taken d member))
      ⟨c, w, same', first, other, fun _ => by rw [same]; rfl⟩ ?_ put fun x => ?_
    · rw [same']
      exact not_blank_of_head visible
    · obtain ⟨none, none'⟩ := List.forall_mem_append.mp signs
      rw [same] at none ⊢
      rw [same'] at none' ⊢
      obtain ⟨stop, none⟩ := List.forall_mem_cons.mp none
      rw [wordBehind_stop stop visible, wordBehind_stop stop visible, wordBehind_nil none,
        wordBehind_nil (List.forall_mem_cons.mp none').2]
  · rintro _ _ ⟨rfl, -⟩ c last
    exact visible_of_idle (tells c (List.mem_append_left _ (List.mem_of_mem_getLast? last)))

theorem mild_spacedPair {next : List Char → Option (List Char)} {v : List Char} {E : List Char → Prop}
    (shape : ∀ t rest, next t = some rest ↔ t = v ++ rest ∧ E rest)
    (ends : ∀ rest rest', E rest → (∀ c ∈ rest'.head?, rest.head? = some c ∨ stops c = true) → E rest')
    (swap : ∀ before g, Blank g → Swap before (sign :: (g ++ v)) target.toList)
    (last : ∃ c ∈ v.getLast?, isBlank c = false) (shown : ∀ rest, Shown (v ++ rest)) :
    Mild (spacedPair sign next target) := by
  refine .of_iff (F := fun _ => True) (T := fun w out => ∃ g, w = sign :: (g ++ v) ∧ Blank g ∧
    out = target.toList) (E := E) ?_ ?_ ?_ ends fun _ _ => Iff.rfl
  · intro before s n out
    constructor
    · intro matched
      obtain ⟨t, first, matched'⟩ := Option.bind_eq_some_iff.mp matched
      obtain ⟨rest, found, same⟩ := Option.bind_eq_some_iff.mp matched'
      cases same
      obtain rfl := dropSign?_eq_some_iff.mp first
      obtain ⟨g, blank, split, -⟩ := trimStart_split t
      obtain ⟨read, stop⟩ := (shape ..).mp found
      rw [read, ← List.append_assoc] at split
      refine ⟨trivial, sign :: (g ++ v), rest, by rw [split]; rfl, ?_, ⟨g, rfl, blank, rfl⟩, stop⟩
      rw [split, ← List.cons_append, List.length_append, Nat.add_sub_cancel]
    · rintro ⟨-, _, rest, rfl, rfl, ⟨g, rfl, blank, rfl⟩, stop⟩
      have first : dropSign? sign (sign :: (g ++ v) ++ rest) = some (g ++ (v ++ rest)) := by
        rw [dropSign?_eq_some_iff, List.cons_append, List.append_assoc]
      have found : next (v ++ rest) = some rest := (shape ..).mpr ⟨rfl, stop⟩
      simp only [spacedPair, first, trimStart_append blank (shown rest), found, Option.bind_eq_bind,
        Option.bind_some]
      rw [List.length_append, Nat.add_sub_cancel]
      rfl
  · rintro before _ _ - ⟨g, rfl, blank, rfl⟩
    exact swap before g blank
  · rintro _ _ ⟨g, rfl, -, -⟩ c last'
    obtain ⟨d, last, visible⟩ := last
    rw [← List.cons_append, List.getLast?_append, last, Option.some_or] at last'
    exact Option.some.inj last' ▸ visible

theorem mild_openingBrace : Mild (spacedPair ')' (dropSign? '\x7b') ") \x7b") := by
  refine mild_spacedPair (v := ['\x7b']) (E := fun _ => True) (fun t rest => ?_)
    (fun _ _ _ _ => trivial) (fun before g blank => ?_) ⟨_, rfl, by decide⟩ fun rest =>
      shown_sign (by decide)
  · rw [dropSign?_eq_some_iff]
    exact (and_iff_left trivial).symm
  · refine ⟨⟨')', g ++ ['\x7b'], rfl, by decide⟩, ?_, fun unbroken asks => ?_, ?_, ?_⟩
    · simp only [List.forall_mem_cons, List.forall_mem_append]
      refine ⟨by decide, fun c member => ?_, by decide⟩
      constructor <;> rintro rfl <;> cases blank _ member
    · have pair : Alike asks (')' :: g) [')', ' '] := by
        refine .of_ordinary (not_blank_of_head (c := ')') (by decide))
          (not_blank_of_head (c := ')') (by decide)) ?_ ?_ fun w => ?_
        · rw [List.mem_cons, List.mem_append] at unbroken
          have inner : Ordinary true g := ordinary_blank blank fun inside => unbroken (.inr (.inl inside))
          exact Ordinary.mono (List.forall_mem_cons.mpr ⟨by decide, inner⟩)
        · exact Ordinary.mono (by decide)
        · rw [wordBehind_stop (by decide) (by decide), wordBehind_blank blank]
          rfl
      exact pair.append (.rfl' ['\x7b'])
    · intro c member
      have known : c ∈ [')', ' ', '\x7b'] := member
      simp only [List.mem_cons, List.not_mem_nil, or_false] at known
      rcases known with rfl | rfl | rfl
      · exact .inl List.mem_cons_self
      · exact .inr (by decide)
      · exact .inl (by simp)
    · exact ⟨')', [' ', '\x7b'], rfl, by decide, by decide, fun _ => rfl⟩

theorem wholeWord?_eq_some_iff : wholeWord? "else" s = some rest ↔
    s = "else".toList ++ rest ∧ ∀ c ∈ rest.head?, isWordChar c = false := by
  constructor
  · intro found
    obtain ⟨t, word, found⟩ := Option.bind_eq_some_iff.mp found
    split at found
    · cases found
    · next ends =>
      cases found
      refine ⟨dropWord?_eq_some_iff.mp word, fun c head => ?_⟩
      rw [Option.mem_def.mp head] at ends
      exact Bool.not_eq_true _ ▸ ends
  · rintro ⟨rfl, ends⟩
    have word : dropWord? "else".toList ("else".toList ++ rest) = some rest := dropWord?_append ..
    have stop : ¬rest.head?.any isWordChar = true := by
      cases first : rest.head? with
      | none => exact Bool.false_ne_true
      | some c =>
        rw [Option.any_some, ends c first]
        exact Bool.false_ne_true
    simp only [wholeWord?, word, Option.bind_eq_bind, Option.bind_some]
    exact if_neg stop

theorem mild_closingBrace : Mild (spacedPair '\x7d' (wholeWord? "else") "\x7d else") := by
  refine mild_spacedPair (v := "else".toList) (E := fun rest => ∀ c ∈ rest.head?, isWordChar c = false)
    (fun t rest => wholeWord?_eq_some_iff) ?_ (fun before g blank => ?_) ⟨'e', by decide, by decide⟩
    fun rest => shown_sign (c := 'e') (by decide)
  · intro rest rest' ends next c head
    rcases next c head with same | stop
    · exact ends c same
    · exact isWordChar_of_stops stop
  · have word : Ordinary true "else".toList := by decide
    refine ⟨⟨'\x7d', g ++ "else".toList, rfl, by decide⟩, ?_, fun unbroken asks => ?_, ?_, ?_⟩
    · simp only [List.forall_mem_cons, List.forall_mem_append]
      refine ⟨by decide, fun c member => ?_, by decide⟩
      constructor <;> rintro rfl <;> cases blank _ member
    · rw [List.mem_cons, List.mem_append] at unbroken
      have inner : Ordinary true g := ordinary_blank blank fun inside => unbroken (.inr (.inl inside))
      -- Behind the brace there is no word that blanks or the other word could go on.
      have behind {h : List Char} (white : Blank h) (ordinary : Ordinary true (h ++ "else".toList))
          {p : Phase} (marked : p.quoting.Marked) : p.behind asks ('\x7d' :: (h ++ "else".toList)) =
            (p.after asks '\x7d').settled "else".toList := by
        have some : ¬Blank (h ++ "else".toList) := fun all => by
          cases all 'e' (List.mem_append_right h (by decide))
        have none : (p.after asks '\x7d').word = [] := rfl
        show (p.after asks '\x7d').behind asks (h ++ "else".toList) = _
        rw [Phase.behind_ordinary (Phase.marked_after marked '\x7d') some ordinary.mono, none,
          wordBehind_append, wordBehind_blank white]
        rfl
      intro s
      rw [phase_append, phase_append, behind blank (inner.append word) (phase_marked s)]
      exact (behind blank_space (List.forall_mem_cons.mpr ⟨by decide, word⟩) (phase_marked s)).symm
    · refine List.forall_mem_cons.mpr ⟨.inl List.mem_cons_self, fun c member => .inr ?_⟩
      exact List.forall_mem_cons.mpr ⟨by decide, word⟩ c member
    · exact ⟨'\x7d', " else".toList, rfl, by decide, by decide, fun _ => rfl⟩

abbrev spacedComma : Matcher (List Char) := spacedPair ',' some ", "

theorem spacedComma_eq_some_iff : spacedComma before s = some (n, out) ↔
    ∃ g rest, s = ',' :: (g ++ rest) ∧ n = g.length + 1 ∧ Blank g ∧ Shown rest ∧
      out = ", ".toList := by
  have length (g rest : List Char) : (',' :: (g ++ rest)).length - rest.length = g.length + 1 := by
    rw [← List.cons_append, List.length_append, Nat.add_sub_cancel]
    rfl
  constructor
  · intro matched
    obtain ⟨t, first, matched'⟩ := Option.bind_eq_some_iff.mp matched
    cases matched'
    obtain rfl := dropSign?_eq_some_iff.mp first
    obtain ⟨g, blank, split, shown⟩ := trimStart_split t
    refine ⟨g, trimStart t, by rw [← split], ?_, blank, shown, rfl⟩
    have count := length g (trimStart t)
    rw [← split] at count
    exact count
  · rintro ⟨g, rest, rfl, rfl, blank, shown, rfl⟩
    have first : dropSign? ',' (',' :: (g ++ rest)) = some (g ++ rest) := rfl
    simp only [spacedComma, spacedPair, first, trimStart_append blank shown, Option.bind_eq_bind,
      Option.bind_some, length]
    rfl

theorem spacedComma_eq_none_iff {c : Char} : spacedComma before (c :: s) = none ↔ c ≠ ',' := by
  constructor
  · rintro none rfl
    obtain ⟨g, blank, split, shown⟩ := trimStart_split s
    have found : spacedComma before (',' :: s) = some (g.length + 1, ", ".toList) :=
      spacedComma_eq_some_iff.mpr ⟨g, trimStart s, by rw [← split], rfl, blank, shown, rfl⟩
    rw [none] at found
    cases found
  · intro other
    cases found : spacedComma before (c :: s) with
    | none => rfl
    | some taken =>
      obtain ⟨g, rest, whole, -⟩ := spacedComma_eq_some_iff.mp found
      exact absurd (List.cons.inj whole).1 other

theorem alike_comma {g : List Char} (blank : Blank g) (unbroken : '\n' ∉ g) (asks : Bool) :
    Alike asks (',' :: g) [',', ' '] := by
  refine .of_ordinary (not_blank_of_head (c := ',') (by decide)) (not_blank_of_head (c := ',') (by decide))
    ?_ ?_ fun w => ?_
  · have comma : Ordinary asks [','] := Ordinary.mono (by decide)
    exact comma.append (ordinary_blank blank unbroken)
  · exact Ordinary.mono (by decide)
  · rw [wordBehind_stop (by decide) (by decide), wordBehind_blank blank]
    rfl

theorem gentle_spacedComma : Gentle spacedComma := by
  refine ⟨fun {before s n out} matched => ?_⟩
  obtain ⟨g, rest, rfl, rfl, blank, -, rfl⟩ := spacedComma_eq_some_iff.mp matched
  refine ⟨',' :: g, rest, rfl, rfl, ⟨',', g, rfl, by decide⟩, ?_, fun unbroken asks => ?_, ?_, ?_⟩
  · refine List.forall_mem_cons.mpr ⟨by decide, fun c member => ?_⟩
    constructor <;> rintro rfl <;> cases blank _ member
  · exact alike_comma blank (fun inside => unbroken (List.mem_cons_of_mem _ inside)) asks
  · exact fun c member => .inr ((show Ordinary true [',', ' '] by decide) c member)
  · exact ⟨',', [' '], rfl, by decide, by decide, fun _ => rfl⟩

theorem spacedComma_slashes {e : List Char} (before : Option Char) (stop : ∀ c ∈ e, stops c = true)
    (note : List Char) : replaceFrom spacedComma before 0 (e ++ '/' :: '/' :: note) =
      e ++ '/' :: '/' :: replaceFrom spacedComma (some '/') 0 note := by
  have both : ∀ c ∈ e ++ ['/', '/'], stops c = true := List.forall_mem_append.mpr ⟨stop, by decide⟩
  have all := gentle_spacedComma.replaceFrom_stops before both note
  rw [List.append_assoc, List.getLast?_append, List.append_assoc] at all
  exact all

theorem spacedComma_comment {e : List Char} (blank : Blank e) (plain : '\n' ∉ e) (before : Option Char)
    (s note : List Char) (unbroken : '\n' ∉ s) : ∃ e', Blank e' ∧ '\n' ∉ e' ∧
      replaceFrom spacedComma before 0 (s ++ (e ++ '/' :: '/' :: note)) =
        replaceFrom spacedComma before 0 s ++
          (e' ++ '/' :: '/' :: replaceFrom spacedComma (some '/') 0 note) ∧
      ∀ asks, Alike asks (s ++ e) (replaceFrom spacedComma before 0 s ++ e') := by
  have idle : ∀ c ∈ e, stops c = true := fun c member => by
    rw [stops, isIdle, blank c member]
    rfl
  -- Along the matches in `s`: only the last of them can reach the comment, and then it takes `e` too.
  refine (gentle_spacedComma.splits.induction (P := fun before s r => (s = [] → r = []) ∧ ('\n' ∉ s →
    ∃ e', Blank e' ∧ '\n' ∉ e' ∧ replaceFrom spacedComma before 0 (s ++ (e ++ '/' :: '/' :: note)) =
        r ++ (e' ++ '/' :: '/' :: replaceFrom spacedComma (some '/') 0 note) ∧
      ∀ asks, Alike asks (s ++ e) (r ++ e'))) ?_ ?_ ?_ before s).2 unbroken
  · intro before
    exact ⟨fun _ => rfl, fun _ =>
      ⟨e, blank, plain, spacedComma_slashes before idle note, fun _ => .rfl' e⟩⟩
  · intro before w rest out r some found later
    refine ⟨fun none => absurd (List.append_eq_nil_iff.mp none).1 some, fun unbroken => ?_⟩
    rw [List.mem_append, not_or] at unbroken
    obtain ⟨g, rest', whole, count, blank', shown, rfl⟩ := spacedComma_eq_some_iff.mp found
    obtain ⟨rfl, rfl⟩ : w = ',' :: g ∧ rest = rest' := List.append_inj whole count
    have inLine : '\n' ∉ g := fun inside => unbroken.1 (List.mem_cons_of_mem _ inside)
    cases rest with
    | nil =>
      obtain rfl := later.1 rfl
      have taken : spacedComma before ((',' :: (g ++ e)) ++ '/' :: '/' :: note) =
          Option.some ((',' :: (g ++ e)).length, ", ".toList) :=
        spacedComma_eq_some_iff.mpr
          ⟨g ++ e, '/' :: '/' :: note, rfl, rfl, blank'.append blank, shown_sign (by decide), rfl⟩
      refine ⟨[], List.forall_mem_nil _, by decide, ?_, fun asks => ?_⟩
      · have front :
            ',' :: g ++ [] ++ (e ++ '/' :: '/' :: note) = (',' :: (g ++ e)) ++ '/' :: '/' :: note := by
          simp
        rw [front, replaceFrom_matched (List.cons_ne_nil _ _) taken, List.append_assoc]
        exact congrArg (_ ++ ·) (spacedComma_slashes _ (List.forall_mem_nil _) note)
      · rw [List.append_nil, List.append_nil, List.append_nil, List.cons_append]
        exact alike_comma (blank'.append blank)
          (fun member => (List.mem_append.mp member).elim inLine plain) asks
    | cons c rest =>
      obtain ⟨e', blank'', plain', same, alike⟩ := later.2 unbroken.2
      have taken : spacedComma before ((',' :: g) ++ (c :: rest ++ (e ++ '/' :: '/' :: note))) =
          Option.some ((',' :: g).length, ", ".toList) :=
        spacedComma_eq_some_iff.mpr ⟨g, _, rfl, rfl, blank', shown, rfl⟩
      refine ⟨e', blank'', plain', ?_, fun asks => ?_⟩
      · rw [List.append_assoc, replaceFrom_matched some taken, same, List.append_assoc]
      · rw [List.append_assoc, List.append_assoc]
        exact (alike_comma blank' inLine asks).append (alike asks)
  · intro before c rest r none later
    refine ⟨fun empty => absurd empty (List.cons_ne_nil c rest), fun unbroken => ?_⟩
    obtain ⟨e', blank', plain', same, alike⟩ :=
      later.2 fun inside => unbroken (List.mem_cons_of_mem c inside)
    have none' : spacedComma before (c :: (rest ++ (e ++ '/' :: '/' :: note))) = Option.none :=
      spacedComma_eq_none_iff.mpr (spacedComma_eq_none_iff.mp none)
    refine ⟨e', blank', plain', ?_, fun asks => (Alike.rfl' [c]).append (alike asks)⟩
    rw [List.cons_append, replaceFrom, none']
    exact congrArg (c :: ·) same

end Matchers

end EmitterLogic.Tick
