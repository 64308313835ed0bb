import EmitterLogic.Predicate.Basic
import EmitterLogic.Proofs.Predicate.Written
import EmitterLogic.Proofs.Text.Search

namespace EmitterLogic

namespace Text

variable {m : Matcher (List Char)} {before : Option Char} {cs rest new w : List Char}

theorem dropWord?_none (equal : ∀ c ∈ w.tail, c = '=') (inner : ¬w <:+: cs)
    (stops : ∀ c ∈ cs.getLast?, c ∈ w → rest.head? ≠ some '=') {A B : List Char} {c : Char}
    (split : cs = A ++ c :: B) : dropWord? w (c :: (B ++ rest)) = none := by
  refine Option.eq_none_iff_forall_not_mem.mpr fun r found => ?_
  have whole : (c :: B) ++ rest = w ++ r := dropWord?_eq_some_iff.mp found
  have within (D : List Char) (same : c :: B = w ++ D) : False :=
    inner ⟨A, D, by rw [split, same, List.append_assoc]⟩
  rcases List.append_eq_append_iff.mp whole with ⟨D, same, after⟩ | ⟨D, same, _⟩
  · cases D with
    | nil => exact within [] (by rw [same, List.append_nil, List.append_nil])
    | cons d D =>
      -- The word goes on from the last of the characters with `d`.
      have goes : d = '=' := equal d (by rw [same]; simp)
      obtain ⟨e, last⟩ : ∃ e, (c :: B).getLast? = some e := ⟨_, List.getLast?_eq_some_getLast (by simp)⟩
      have member : e ∈ w := by
        rw [same]
        exact List.mem_append_left _ (List.mem_of_getLast? last)
      refine stops e ?_ member ?_
      · rw [split, List.getLast?_append, last]
        rfl
      · rw [after, goes]
        rfl
  · exact within D same

end Text

namespace Script.TokenKind

def isMark (m : Mark) : TokenKind → Bool
  | .mark n => n == m
  | _ => false

def isWord (w : String) : TokenKind → Bool
  | .word v => v == w
  | _ => false

def isFinish : TokenKind → Bool
  | .finish => true
  | _ => false

theorem isMark_iff {k : TokenKind} {m : Mark} : k.isMark m = true ↔ k = .mark m := by
  cases k <;> simp [isMark]

theorem isWord_iff {k : TokenKind} {w : String} : k.isWord w = true ↔ k = .word w := by
  cases k <;> simp [isWord]

theorem isFinish_iff {k : TokenKind} : k.isFinish = true ↔ k = .finish := by
  cases k <;> simp [isFinish]

instance {k : TokenKind} {m : Mark} : Decidable (k = .mark m) := decidable_of_iff _ isMark_iff

instance {k : TokenKind} {w : String} : Decidable (k = .word w) := decidable_of_iff _ isWord_iff

instance {k : TokenKind} : Decidable (k = .finish) := decidable_of_iff _ isFinish_iff

end Script.TokenKind

namespace Predicate

open Text Script

variable {kind : TokenKind} {cs rest : List Char} {head : Option Char} {ps qs : List Part}
  {p q : Part} {before : Option Char}

section Equality

variable {strict loose : Mark}

inductive Loosens : Mark → Mark → Prop where
  | ne : Loosens .strictNe .looseNe
  | eq : Loosens .strictEq .looseEq

def loosened (strict loose : Mark) (p : Part) : Part :=
  if p.kind.isMark strict then ⟨p.gap, .mark loose, loose.text.toList⟩ else p

def loosening (strict loose : Mark) : Matcher (List Char) :=
  fun _ s => (dropWord? strict.text.toList s).map fun _ => (strict.text.length, loose.text.toList)

theorem unmatched_of (loosens : Loosens strict loose) (inner : ¬strict.text.toList <:+: cs)
    (stops : ∀ c ∈ cs.getLast?, c ∈ ['=', '!'] → rest.head? ≠ some '=') :
    Unmatched (loosening strict loose) before cs rest := by
  intro A c B split
  have equal : ∀ c ∈ strict.text.toList.tail, c = '=' := by
    cases loosens <;> simp [Mark.text]
  have signs : ∀ c ∈ strict.text.toList, c ∈ ['=', '!'] := by
    cases loosens <;> simp [Mark.text]
  rw [loosening, dropWord?_none equal inner (fun c last member => stops c last (signs c member)) split]
  rfl

theorem blank_unmatched (loosens : Loosens strict loose) (blank : AllBlank cs) :
    Unmatched (loosening strict loose) before cs rest := by
  refine unmatched_of loosens ?_ ?_
  · intro inner
    obtain ⟨c, sign, other⟩ : ∃ c ∈ strict.text.toList, c ∉ blankChars := by
      cases loosens
      · exact ⟨'!', by decide, by decide⟩
      · exact ⟨'=', by decide, by decide⟩
    exact other (blank c (inner.subset sign))
  · intro c last sign
    have all : ∀ c ∈ blankChars, c ∉ ['=', '!'] := forall_mem_of_all (by decide)
    exact absurd sign (all c (blank c (List.mem_of_getLast? last)))

theorem Firm.unmatched (loosens : Loosens strict loose) (firm : Firm kind cs rest.head?)
    (other : kind.isMark strict = false) (apart : kind.endsEqual = true → rest.head? ≠ some '=') :
    Unmatched (loosening strict loose) before cs rest := by
  have plain {f : Char → Bool} (signs : f '=' = false ∧ f '!' = false) (all : ∀ c ∈ cs, f c = true) :
      Unmatched (loosening strict loose) before cs rest := by
    have none {c : Char} (sign : c ∈ ['=', '!']) : c ∉ cs := by
      intro member
      have held := all c member
      simp only [List.mem_cons, List.not_mem_nil, or_false] at sign
      rcases sign with rfl | rfl
      · rw [signs.1] at held
        cases held
      · rw [signs.2] at held
        cases held
    refine unmatched_of loosens (fun inner => ?_) fun c last sign =>
      absurd (List.mem_of_getLast? last) (none sign)
    have equal : '=' ∈ strict.text.toList := by cases loosens <;> decide
    exact none (by decide) (inner.subset equal)
  cases firm with
  | word ident => exact plain (f := isIdentPart) (by decide) (identParts ident)
  | number chars =>
    exact plain (f := numberChars.contains) (by decide) fun c member =>
      List.contains_iff_mem.mpr (chars c member)
  | @mark m _ stops =>
    refine unmatched_of loosens ?_ ?_
    · have all : ∀ m ∈ Mark.all, m ≠ strict → ¬strict.text.toList <:+: m.text.toList := by
        cases loosens <;> decide
      refine all m m.mem_all ?_
      rintro rfl
      rw [TokenKind.isMark, beq_self_eq_true] at other
      cases other
    · intro c last sign
      simp only [List.mem_cons, List.not_mem_nil, or_false] at sign
      rcases sign with rfl | rfl
      · refine apart ?_
        rw [TokenKind.endsEqual, Option.mem_def.mp last]
        rfl
      · have grows : '=' ∈ m.growths := by
          cases m <;> first | cases last; done | decide
        exact fun head => stops '=' head grows

theorem Firm.beginsEqual (firm : Firm kind cs head) (first : cs.head? = some '=') :
    kind.beginsEqual = true := by
  cases firm with
  | word ident =>
    have part := identParts ident _ (List.mem_of_head? first)
    cases part
  | number chars => exact absurd (chars _ (List.mem_of_head? first)) (by decide)
  | mark =>
    rw [TokenKind.beginsEqual, first]
    rfl

theorem Written.apart_head (h : Written rest ps) (blank : AllBlank rest)
    (apart : ∀ q ∈ ps.head?, kind.Apart q.kind) :
    kind.endsEqual = true → (joined rest ps).head? ≠ some '=' := by
  intro ends head
  cases h with
  | nil => exact absurd (blank _ (List.mem_of_head? head)) (by decide)
  | @cons q qs gap firm more =>
    cases empty : q.gap with
    | cons c g =>
      rw [joined, empty] at head
      cases head
      exact absurd (gap '=' (by rw [empty]; exact List.mem_cons_self)) (by decide)
    | nil =>
      rw [joined, empty, List.nil_append, List.head?_append_of_ne_nil _ firm.chars_ne_nil] at head
      have begins := firm.beginsEqual head
      rw [apart q rfl ends] at begins
      cases begins

theorem loosened_gap : (loosened strict loose p).gap = p.gap := by
  rw [loosened]
  split <;> rfl

theorem Firm.loosened_head (loosens : Loosens strict loose) (firm : Firm p.kind p.chars head) :
    (loosened strict loose p).chars.head? = p.chars.head? := by
  rw [loosened]
  split
  · next same =>
    rw [TokenKind.isMark_iff.mp same] at firm
    generalize p.chars = cs at firm
    cases firm
    cases loosens <;> rfl
  · rfl

theorem Written.loosened_head (loosens : Loosens strict loose) (h : Written rest ps) :
    (joined rest (ps.map (loosened strict loose))).head? = (joined rest ps).head? := by
  cases h with
  | nil => rfl
  | @cons p ps gap firm more =>
    obtain ⟨c, cs, chars⟩ := List.exists_cons_of_ne_nil firm.chars_ne_nil
    simp only [List.map_cons, joined, loosened_gap, List.head?_append, firm.loosened_head loosens, chars,
      List.head?_cons, Option.some_or]

theorem loosening_replaces (loosens : Loosens strict loose) (h : Written rest ps)
    (blank : AllBlank rest) (apart : ps.IsChain fun p q => p.kind.Apart q.kind) :
    replaceFrom (loosening strict loose) before 0 (joined rest ps) =
      joined rest (ps.map (loosened strict loose)) := by
  induction h generalizing before with
  | nil =>
    have none : Unmatched (loosening strict loose) before rest [] := blank_unmatched loosens blank
    have kept := replaceFrom_unmatched none
    rwa [replaceFrom, List.append_nil] at kept
  | @cons p ps gap firm more ih =>
    have next := @ih (p.chars.getLast?.or (p.gap.getLast?.or before)) apart.tail
    rw [List.isChain_cons] at apart
    rw [joined, replaceFrom_unmatched (blank_unmatched loosens gap), List.map_cons, joined,
      loosened_gap]
    refine congrArg (p.gap ++ ·) ?_
    rw [loosened]
    split
    · next same =>
      rw [TokenKind.isMark_iff.mp same] at firm
      generalize p.chars = cs at firm next
      cases firm
      have found : loosening strict loose (p.gap.getLast?.or before)
          (strict.text.toList ++ joined rest ps) =
          some (strict.text.toList.length, loose.text.toList) := by
        rw [loosening, dropWord?_append, String.length_toList]
        rfl
      rw [replaceFrom_matched (Mark.text_ne_nil strict) found, next]
    · next other =>
      have unmatched : Unmatched (loosening strict loose) (p.gap.getLast?.or before) p.chars
          (joined rest ps) :=
        firm.unmatched loosens (Bool.not_eq_true _ ▸ other) (more.apart_head blank apart.1)
      rw [replaceFrom_unmatched unmatched, next]

theorem Written.loosened (loosens : Loosens strict loose) (h : Written rest ps)
    (blank : AllBlank rest) (apart : ps.IsChain fun p q => p.kind.Apart q.kind) :
    Written rest (ps.map (loosened strict loose)) := by
  induction h with
  | nil => exact .nil
  | @cons p ps gap firm more ih =>
    refine .cons (by rwa [loosened_gap]) ?_ (ih apart.tail)
    rw [List.isChain_cons] at apart
    rw [more.loosened_head loosens, Predicate.loosened]
    split
    · next same =>
      have kind := TokenKind.isMark_iff.mp same
      have stops := more.apart_head blank apart.1
      rw [kind] at stops
      refine .mark (fun c head grows => ?_) ?_ ?_
      · have equal : c = '=' := by
          cases loosens <;> exact List.mem_singleton.mp grows
        subst equal
        exact stops (by cases loosens <;> decide) head
      · cases loosens <;> exact nofun
      · cases loosens <;> exact nofun
    · exact firm

theorem loosened_apart (loosens : Loosens strict loose)
    (apart : ps.IsChain fun p q => p.kind.Apart q.kind) :
    (ps.map (loosened strict loose)).IsChain fun p q => p.kind.Apart q.kind := by
  have ends (p : Part) : (loosened strict loose p).kind.endsEqual = p.kind.endsEqual := by
    rw [loosened]
    split
    · next same =>
      rw [TokenKind.isMark_iff.mp same]
      cases loosens <;> rfl
    · rfl
  have begins (p : Part) : (loosened strict loose p).kind.beginsEqual = p.kind.beginsEqual := by
    rw [loosened]
    split
    · next same =>
      rw [TokenKind.isMark_iff.mp same]
      cases loosens <;> rfl
    · rfl
  rw [List.isChain_map]
  refine apart.imp fun p q h => ?_
  rwa [TokenKind.Apart, ends, begins]

end Equality

section Words

variable {m : Matcher (List Char)}

structure TakesWords (m : Matcher (List Char)) : Prop where
  fresh : ∀ before s, before.any isWordChar = true → m before s = none
  first : ∀ before c s, m before (c :: s) ≠ none → isIdentStart c = true ∧ c ∉ numberChars

theorem TakesWords.unmatched_of (takes : TakesWords m)
    (other : ∀ c ∈ cs, isIdentStart c = true → c ∈ numberChars) : Unmatched m before cs rest := by
  rintro A c B rfl
  refine Classical.byContradiction fun matched => ?_
  obtain ⟨start, number⟩ := takes.first _ _ _ matched
  exact number (other c (by simp) start)

theorem TakesWords.blank (takes : TakesWords m) (blank : AllBlank cs) :
    Unmatched m before cs rest := by
  have all : ∀ c ∈ blankChars, ¬isIdentStart c = true := forall_mem_of_all (by decide)
  exact takes.unmatched_of fun c member start => absurd start (all c (blank c member))

theorem TakesWords.unmatched (takes : TakesWords m) (firm : Firm kind cs head)
    (here : ∀ w, kind = .word w → m before (cs ++ rest) = none) : Unmatched m before cs rest := by
  cases firm with
  | number chars => exact takes.unmatched_of fun c member _ => chars c member
  | @mark m' =>
    refine takes.unmatched_of fun c member start => ?_
    have all : (Mark.all.all fun m => m.text.toList.all fun c => !isIdentStart c) = true := by decide
    have other := List.all_eq_true.mp (List.all_eq_true.mp all m' m'.mem_all) c member
    rw [start] at other
    cases other
  | @word w _ ident =>
    intro A c B split
    cases A with
    | nil =>
      have found := here w rfl
      rw [split] at found
      exact found
    | cons a A =>
      -- Inside a word the character before is one of the word.
      obtain ⟨d, last⟩ : ∃ d, (a :: A).getLast? = some d :=
        ⟨_, List.getLast?_eq_some_getLast (List.cons_ne_nil a A)⟩
      refine takes.fresh _ _ ?_
      have member : d ∈ w.toList := by
        rw [split]
        exact List.mem_append_left _ (List.mem_of_getLast? last)
      rw [last, Option.some_or, Option.any_some]
      exact isWordChar_of_identPart (identParts ident d member)

theorem Firm.fresh (firm : Firm kind cs rest.head?) : Fresh (cs.getLast?.or before) rest := by
  cases firm with
  | word ident stops =>
    intro c first start
    have stop := stops c first
    rw [isWordPart_of_start start] at stop
    cases stop
  | @mark m stops =>
    obtain ⟨d, last⟩ : ∃ d, m.text.toList.getLast? = some d :=
      ⟨_, List.getLast?_eq_some_getLast (Mark.text_ne_nil m)⟩
    have other := Mark.last_not_wordChar m
    rw [last] at other ⊢
    exact .of_before other
  | number chars value stops =>
    intro c first start
    rw [stops c first] at start
    cases start

theorem Fresh.past_gap {g s : List Char} (h : Fresh before (g ++ s)) (gap : AllBlank g) :
    Fresh (g.getLast?.or before) s := by
  cases last : g.getLast? with
  | none =>
    rw [List.getLast?_eq_none_iff.mp last] at h
    exact h
  | some c =>
    have all : ∀ c ∈ blankChars, isWordChar c = false := forall_mem_of_all (by decide)
    exact .of_before (all c (gap c (List.mem_of_getLast? last)))

theorem TakesWords.passes (takes : TakesWords m) (gap : AllBlank p.gap)
    (firm : Firm p.kind p.chars (joined rest ps).head?)
    (here : ∀ w, p.kind = .word w →
      m (p.gap.getLast?.or before) (p.chars ++ joined rest ps) = none) :
    replaceFrom m before 0 (joined rest (p :: ps)) = p.gap ++ (p.chars ++
      replaceFrom m (p.chars.getLast?.or (p.gap.getLast?.or before)) 0 (joined rest ps)) := by
  rw [joined, replaceFrom_unmatched (takes.blank gap),
    replaceFrom_unmatched (takes.unmatched firm here)]

theorem TakesWords.ends (takes : TakesWords m) (blank : AllBlank rest) :
    replaceFrom m before 0 rest = rest := by
  have none : Unmatched m before rest [] := takes.blank blank
  have kept := replaceFrom_unmatched none
  rwa [replaceFrom, List.append_nil] at kept

end Words

section Names

variable {key : String} {t g : List Char}

def placed (g : List Char) : List Part → List Part
  | [] => []
  | p :: ps => ⟨g, p.kind, p.chars⟩ :: ps

def renamed (key : String) (qs : List Part) (p : Part) : List Part :=
  if p.kind.isWord key then placed p.gap qs else [p]

def replacing (key : String) (t : List Char) : Matcher (List Char) :=
  fun before s => (boundedWord key.toList before s).map fun (n, _) => (n, t)

structure SpelledBy (qs : List Part) (t : List Char) : Prop where
  text : joined [] qs = t
  front : ∃ q ∈ qs.head?, q.gap = []

theorem joined_eq_append : joined rest ps = joined [] ps ++ rest := by
  induction ps with
  | nil => rfl
  | cons p ps ih => rw [joined, ih, joined, List.append_assoc, List.append_assoc]

theorem SpelledBy.placed (h : SpelledBy qs t) : joined rest (placed g qs) = g ++ (t ++ rest) := by
  obtain ⟨q, head, gap⟩ := h.front
  cases qs with
  | nil => cases head
  | cons q' qs =>
    cases head
    rw [← h.text, ← joined_eq_append, Predicate.placed, joined, joined, gap, List.nil_append]

structure IsKey (key : String) : Prop where
  ident : isIdentChars key.toList = true
  first : ∀ c ∈ key.toList.head?, c ∉ numberChars

theorem IsKey.takesWords (h : IsKey key) : TakesWords (replacing key t) where
  fresh before s inside := by rw [replacing, boundedWord, inside, if_pos rfl, Option.map_none]
  first before c s matched := by
    cases chars : key.toList with
    | nil =>
      have ident := h.ident
      rw [chars] at ident
      cases ident
    | cons k ks =>
      have same : k = c := by
        refine Classical.byContradiction fun other => matched ?_
        have different : ¬(k == c) = true := by simpa using other
        rw [replacing, boundedWord, chars, dropWord?, if_neg different]
        split <;> rfl
      subst same
      have ident := h.ident
      rw [chars, isIdentChars, Bool.and_eq_true] at ident
      exact ⟨ident.1, h.first k (by rw [chars]; rfl)⟩

theorem boundedWord_other {w : String} (ident : isIdentChars w.toList = true)
    (ident' : isIdentChars key.toList = true) (stops : ∀ c ∈ rest.head?, isWordPart c = false)
    (other : w ≠ key) : boundedWord key.toList before (w.toList ++ rest) = none := by
  rw [boundedWord]
  split
  · rfl
  split
  · next r found =>
    have whole := dropWord?_eq_some_iff.mp found
    rcases List.append_eq_append_iff.mp whole with ⟨D, same, after⟩ | ⟨D, same, after⟩
    · cases D with
      | nil => exact absurd (String.toList_inj.mp (by rw [same, List.append_nil])) other
      | cons d D =>
        have part := identParts ident' d (by rw [same]; simp)
        have stop := stops d (by rw [after]; rfl)
        rw [isWordPart_of_ident part] at stop
        cases stop
    · cases D with
      | nil => exact absurd (String.toList_inj.mp (by rw [same, List.append_nil])) other
      | cons d D =>
        have part := identParts ident d (by rw [same]; simp)
        rw [after, List.cons_append, List.head?_cons, Option.any_some,
          if_pos (isWordChar_of_identPart part)]
  · rfl

theorem replacing_replaces (iskey : IsKey key) (spells : SpelledBy qs t) (h : Written rest ps)
    (blank : AllBlank rest) (fresh : Fresh before (joined rest ps)) :
    replaceFrom (replacing key t) before 0 (joined rest ps) =
      joined rest (ps.flatMap (renamed key qs)) := by
  -- Part by part: each is taken as a whole, or passed without a match inside.
  induction h generalizing before with
  | nil => exact iskey.takesWords.ends blank
  | @cons p ps gap firm more ih =>
    have next := @ih (p.chars.getLast?.or (p.gap.getLast?.or before)) firm.fresh
    have start := fresh.past_gap gap
    rw [List.flatMap_cons, renamed]
    split
    · next same =>
      have kind := TokenKind.isWord_iff.mp same
      rw [joined_append, spells.placed, ← next, joined,
        replaceFrom_unmatched (iskey.takesWords.blank gap)]
      refine congrArg (p.gap ++ ·) ?_
      have left := firm.chars_ne_nil
      rw [kind] at firm
      generalize p.chars = cs at firm start left
      cases firm with
      | word ident stops =>
        have outside : (p.gap.getLast?.or before).any isWordChar = false := by
          obtain ⟨c, cs, chars⟩ := List.exists_cons_of_ne_nil left
          rw [chars, isIdentChars, Bool.and_eq_true] at ident
          rw [chars] at start
          exact start c rfl (of_isIdentStart (by decide) ident.1)
        have closed : ∀ c ∈ (joined rest ps).head?, isWordChar c = false := fun c head =>
          Bool.eq_false_iff.mpr fun inside =>
            absurd ((isWordPart_of_wordChar inside).symm.trans (stops c head)) (by rintro ⟨⟩)
        refine replaceFrom_matched left ?_
        rw [replacing, boundedWord_here outside closed]
        rfl
    · next other =>
      rw [List.singleton_append, joined.eq_2 rest p (ps.flatMap _), ← next]
      refine iskey.takesWords.passes gap firm fun w word => ?_
      rw [word] at firm
      generalize p.chars = cs at firm
      cases firm with
      | word ident stops =>
        rw [replacing, boundedWord_other ident iskey.ident stops, Option.map_none]
        rintro rfl
        exact other (TokenKind.isWord_iff.mpr word)

end Names

end Predicate

end EmitterLogic
