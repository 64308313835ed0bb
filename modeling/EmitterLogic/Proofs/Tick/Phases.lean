import EmitterLogic.Proofs.Text.Search
import EmitterLogic.Proofs.Tick.Units
import EmitterLogic.Tick.Kotlin

namespace EmitterLogic.Tick

open Text

/-- Blanks and semicolons stand between the parts of a script. -/
def isIdle (c : Char) : Bool := isBlank c || c == ';'

def Idle (s : List Char) : Prop := ∀ c ∈ s, isIdle c = true

instance (s : List Char) : Decidable (Idle s) := inferInstanceAs (Decidable (∀ c ∈ s, isIdle c = true))

section Phases

/-- What shows of a text at its end: how it stands to its quotes, whether no unit ends within it, whether it
has more than blanks and semicolons, whether it ends in a slash, which brace is the last of it but for blanks
and semicolons, in which word it ends, whether a question mark in it still lacks its colon, and whether such a
colon still lacks what follows it. -/
structure Phase where
  quoting : Quoting := .plain
  whole : Bool := true
  visible : Bool := false
  slash : Bool := false
  brace : Option Char := none
  word : List Char := []
  asked : Bool := false
  pending : Bool := false

def wordAfter (w : List Char) (c : Char) : List Char :=
  if isWordChar c then if w.any isBlank then [c] else w ++ [c]
  else if isBlank c && (c != ' ' || w.any isBlank) && !w.isEmpty then w ++ [c] else []

def wordBehind (w s : List Char) : List Char := s.foldl wordAfter w

namespace Phase

def after (asks : Bool) (p : Phase) (c : Char) : Phase where
  quoting := p.quoting.after c
  whole := p.whole && !(p.quoting == .plain && divides c)
  visible := p.visible || !isIdle c
  slash := c == '/'
  brace := if isIdle c then p.brace else if c == openBrace || c == closeBrace then some c else none
  word := wordAfter p.word c
  asked := if asks && c == ':' then false else p.asked || (asks && c == '?')
  pending := if isIdle c then p.pending else asks && c == ':' && p.asked

def behind (asks : Bool) (p : Phase) (s : List Char) : Phase := s.foldl (after asks) p

end Phase

def phase (asks : Bool) (s : List Char) : Phase := Phase.behind asks {} s

variable {asks : Bool} {p : Phase} {c d : Char} {g s t v w x y : List Char}

theorem phase_append (asks : Bool) (s t : List Char) :
    phase asks (s ++ t) = (phase asks s).behind asks t := List.foldl_append

theorem Phase.quoting_behind (p : Phase) (s : List Char) :
    (p.behind asks s).quoting = p.quoting.behind s := by
  induction s generalizing p with
  | nil => rfl
  | cons c s ih => exact ih (p.after asks c)

variable (asks) in
theorem phase_quoting (s : List Char) : (phase asks s).quoting = Quoting.plain.behind s :=
  Phase.quoting_behind {} s

theorem Phase.word_behind (p : Phase) (s : List Char) :
    (p.behind asks s).word = wordBehind p.word s := by
  induction s generalizing p with
  | nil => rfl
  | cons c s ih => exact ih (p.after asks c)

variable (asks) in
theorem phase_word (s : List Char) : (phase asks s).word = wordBehind [] s := Phase.word_behind {} s

theorem wordBehind_append (w s t : List Char) :
    wordBehind w (s ++ t) = wordBehind (wordBehind w s) t := List.foldl_append

theorem wordBehind_stop (stop : isWordChar c = false) (visible : isBlank c = false) (w s : List Char) :
    wordBehind w (c :: s) = wordBehind [] s := by
  rw [wordBehind, List.foldl_cons, wordAfter, stop, visible]
  rfl

theorem not_wordChar_of_blank (blank : isBlank c = true) : isWordChar c = false := by
  rw [Bool.eq_false_iff]
  intro word
  rw [isBlank_of_wordPart (Predicate.isWordPart_of_wordChar word)] at blank
  cases blank

theorem wordBehind_nil (none : ∀ c ∈ s, isWordChar c = false) : wordBehind [] s = [] := by
  induction s with
  | nil => rfl
  | cons c s ih =>
    obtain ⟨first, rest⟩ := List.forall_mem_cons.mp none
    have still : wordAfter [] c = [] := by
      rw [wordAfter, first, List.isEmpty_nil, Bool.not_true, Bool.and_false]
      rfl
    rw [wordBehind, List.foldl_cons, still]
    exact ih rest

theorem wordBehind_blank (blank : Blank g) : wordBehind [] g = [] :=
  wordBehind_nil fun c member => not_wordChar_of_blank (blank c member)

theorem wordBehind_last (stop : isWordChar c = false) (visible : isBlank c = false) (w s : List Char) :
    wordBehind w (s ++ [c]) = [] := by
  rw [wordBehind_append, wordBehind_stop stop visible]
  rfl

theorem wordBehind_fresh (blank : Blank g) (wide : g ≠ []) (visible : isBlank c = false)
    (w s : List Char) : wordBehind w (g ++ c :: s) = wordBehind [] (c :: s) := by
  obtain ⟨g, d, rfl⟩ := (List.eq_nil_or_concat g).resolve_left wide
  rw [List.concat_eq_append] at blank ⊢
  have white := blank d (List.mem_append_right g List.mem_cons_self)
  have before : ∃ v, wordBehind w (g ++ [d]) = v ∧ (v = [] ∨ v.any isBlank = true) := by
    refine ⟨_, rfl, ?_⟩
    rw [wordBehind_append]
    show wordAfter (wordBehind w g) d = [] ∨ (wordAfter (wordBehind w g) d).any isBlank = true
    rw [wordAfter, if_neg (by rw [not_wordChar_of_blank white]; exact Bool.false_ne_true)]
    split
    · right
      rw [List.any_append, List.any_cons, white, Bool.true_or, Bool.or_true]
    · exact .inl rfl
  obtain ⟨v, same, ends⟩ := before
  rw [wordBehind_append, same, wordBehind, wordBehind, List.foldl_cons, List.foldl_cons]
  congr 1
  rcases ends with rfl | ends
  · rfl
  · rw [wordAfter, wordAfter, ends, visible]
    rfl

theorem Phase.whole_behind (p : Phase) (s : List Char) :
    (p.behind asks s).whole = true ↔ p.whole = true ∧ Undivided p.quoting s := by
  induction s generalizing p with
  | nil => exact (and_iff_left trivial).symm
  | cons c s ih =>
    rw [Undivided, ← and_assoc]
    refine (ih (p.after asks c)).trans (and_congr_left fun _ => ?_)
    rw [Phase.after, Bool.and_eq_true, Bool.not_eq_true', Bool.and_eq_false_iff, beq_eq_false_iff_ne]
    refine and_congr_right fun _ => ?_
    rw [imp_iff_not_or]

variable (asks) in
theorem phase_whole : (phase asks s).whole = true ↔ Undivided .plain s := by
  rw [phase, Phase.whole_behind]
  exact and_iff_right rfl

theorem Phase.visible_behind (p : Phase) (s : List Char) :
    (p.behind asks s).visible = false ↔ p.visible = false ∧ Idle s := by
  induction s generalizing p with
  | nil => exact (and_iff_left (List.forall_mem_nil _)).symm
  | cons c s ih =>
    rw [Idle, List.forall_mem_cons, ← and_assoc]
    refine (ih (p.after asks c)).trans (and_congr_left fun _ => ?_)
    rw [Phase.after, Bool.or_eq_false_iff, Bool.not_eq_false']

variable (asks) in
theorem phase_visible : (phase asks s).visible = false ↔ Idle s := by
  rw [phase, Phase.visible_behind]
  exact and_iff_right rfl

variable (asks) in
theorem phase_slash : (phase asks s).slash = true ↔ s.getLast? = some '/' := by
  rcases List.eq_nil_or_concat s with rfl | ⟨s, c, rfl⟩
  · exact iff_of_false Bool.false_ne_true nofun
  · rw [List.concat_eq_append, phase_append, List.getLast?_concat, Option.some_inj]
    exact beq_iff_eq

def signs (asks : Bool) : List Char :=
  ['"', '\'', '\x60', '\\', '/', openBrace, closeBrace, ';', '\n'] ++ if asks then ['?', ':'] else []

def Ordinary (asks : Bool) (s : List Char) : Prop := ∀ c ∈ s, c ∉ signs asks

instance (asks : Bool) (s : List Char) : Decidable (Ordinary asks s) :=
  inferInstanceAs (Decidable (∀ c ∈ s, c ∉ signs asks))

theorem ordinary_of {f : Char → Bool} (h : ((signs true).all fun d => !f d) = true)
    (parts : ∀ c ∈ s, f c = true) : Ordinary asks s := by
  intro c member sign
  have inside : c ∈ signs true := by
    cases asks with
    | true => exact sign
    | false => exact List.mem_append_left _ (by simpa [signs] using sign)
  have none := List.all_eq_true.mp h c inside
  rw [parts c member] at none
  cases none

theorem Ordinary.mono (h : Ordinary true s) : Ordinary asks s := by
  intro c member sign
  cases asks with
  | true => exact h c member sign
  | false => exact h c member (List.mem_append_left _ (by simpa [signs] using sign))

theorem Ordinary.append (h : Ordinary asks s) (h' : Ordinary asks t) : Ordinary asks (s ++ t) :=
  fun c member => (List.mem_append.mp member).elim (h c) (h' c)

theorem ordinary_blank (blank : Blank g) (unbroken : '\n' ∉ g) : Ordinary asks g := by
  have shown : ((signs true).all fun d => !(isBlank d && d != '\n')) = true := by decide
  refine ordinary_of shown fun c member => ?_
  rw [blank c member, Bool.true_and, bne_iff_ne]
  rintro rfl
  exact unbroken member

def Quoting.settled : Quoting → Quoting
  | plain => plain
  | within quote => within quote
  | escaped quote => within quote

theorem Quoting.Marked.after_ordinary {q : Quoting} (h : q.Marked) (other : c ∉ signs asks) :
    q.after c = q.settled := by
  have quote : Script.isQuote c = false := by
    rw [Bool.eq_false_iff]
    intro quote
    rw [Script.isQuote, Bool.or_eq_true, Bool.or_eq_true, beq_iff_eq, beq_iff_eq, beq_iff_eq] at quote
    refine other (List.mem_append_left _ ?_)
    rcases quote with (rfl | rfl) | rfl <;> decide
  cases q with
  | plain => rw [Quoting.after, quote]; rfl
  | escaped q => rfl
  | within q =>
    have slash : (c == '\\') = false := by
      rw [beq_eq_false_iff_ne]
      rintro rfl
      exact other (List.mem_append_left _ (by decide))
    have same : (c == q) = false := by
      rw [beq_eq_false_iff_ne]
      rintro rfl
      rw [Marked, quote] at h
      cases h
    rw [Quoting.after, slash, same]
    rfl

def Phase.settled (p : Phase) (word : List Char) : Phase :=
  { p with
    quoting := p.quoting.settled
    visible := true
    slash := false
    brace := none
    word
    pending := false }

theorem Phase.after_ordinary (marked : p.quoting.Marked) (other : c ∉ signs asks) :
    p.after asks c = { p with
      quoting := p.quoting.settled
      visible := p.visible || !isBlank c
      slash := false
      brace := if isBlank c then p.brace else none
      word := wordAfter p.word c
      pending := isBlank c && p.pending } := by
  have none {d : Char} (sign : d ∈ signs asks) : (c == d) = false :=
    beq_eq_false_iff_ne.mpr fun same => other (same ▸ sign)
  have basic {d : Char} (sign : d ∈ signs false) : (c == d) = false :=
    none (List.mem_append_left _ (by simpa [signs] using sign))
  have divides' : divides c = false := by
    rw [divides, basic (by decide), basic (by decide), basic (by decide), basic (by decide)]
    rfl
  have idle : isIdle c = isBlank c := by rw [isIdle, basic (by decide), Bool.or_false]
  have question : (asks && c == '?') = false := by
    cases asks with
    | false => rfl
    | true => exact none (by decide)
  have colon : (asks && c == ':') = false := by
    cases asks with
    | false => rfl
    | true => exact none (by decide)
  rw [after, marked.after_ordinary other, divides', idle, question, colon, basic (d := '/') (by decide),
    basic (d := openBrace) (by decide), basic (d := closeBrace) (by decide)]
  simp

theorem Quoting.Marked.settled {q : Quoting} (h : q.Marked) : q.settled.Marked := by
  cases q with
  | plain => exact h
  | within q => exact h
  | escaped q => exact h

theorem Quoting.settled_settled (q : Quoting) : q.settled.settled = q.settled := by
  cases q <;> rfl

theorem Phase.settled_after (marked : p.quoting.Marked) (other : c ∉ signs asks) (w : List Char) :
    (p.after asks c).settled w = p.settled w := by
  rw [after_ordinary marked other]
  simp [Phase.settled, Quoting.settled_settled]

theorem Phase.marked_after (marked : p.quoting.Marked) (c : Char) : (p.after asks c).quoting.Marked :=
  marked.after c

theorem Phase.settled_behind (marked : p.quoting.Marked) (ordinary : Ordinary asks s) (w : List Char) :
    (p.behind asks s).settled w = p.settled w ∧ (p.behind asks s).quoting.Marked := by
  induction s generalizing p with
  | nil => exact ⟨rfl, marked⟩
  | cons c s ih =>
    obtain ⟨first, rest⟩ := List.forall_mem_cons.mp ordinary
    obtain ⟨same, marked'⟩ := ih (marked_after marked c) rest
    exact ⟨same.trans (settled_after marked first w), marked'⟩

theorem Phase.behind_visible (marked : p.quoting.Marked) (visible : isBlank c = false)
    (ordinary : Ordinary asks (c :: s)) :
    p.behind asks (c :: s) = p.settled (wordBehind p.word (c :: s)) := by
  obtain ⟨first, rest⟩ := List.forall_mem_cons.mp ordinary
  have start : p.after asks c = p.settled (wordAfter p.word c) := by
    rw [after_ordinary marked first, visible]
    simp [Phase.settled]
  show (p.after asks c).behind asks s = p.settled (wordBehind (wordAfter p.word c) s)
  rw [start]
  generalize wordAfter p.word c = w
  clear start first ordinary
  induction s generalizing w with
  | nil => rfl
  | cons d s ih =>
    obtain ⟨here, later⟩ := List.forall_mem_cons.mp rest
    have goes : (p.settled w).after asks d = p.settled (wordAfter w d) := by
      rw [after_ordinary (p := p.settled w) marked.settled here]
      simp [Phase.settled, Quoting.settled_settled]
    show ((p.settled w).after asks d).behind asks s = p.settled (wordBehind (wordAfter w d) s)
    rw [goes]
    exact ih later (wordAfter w d)

theorem Phase.behind_ordinary (marked : p.quoting.Marked) (visible : ¬Blank s)
    (ordinary : Ordinary asks s) : p.behind asks s = p.settled (wordBehind p.word s) := by
  obtain ⟨g, blank, split, shown⟩ := trimStart_split s
  cases left : trimStart s with
  | nil =>
    rw [left, List.append_nil] at split
    exact absurd (split ▸ blank) visible
  | cons c v =>
    rw [left] at split shown
    rw [split] at ordinary ⊢
    obtain ⟨before, rest⟩ := List.forall_mem_append.mp ordinary
    obtain ⟨same, marked'⟩ := settled_behind marked before (wordBehind p.word (g ++ c :: v))
    rw [behind, List.foldl_append]
    refine (behind_visible marked' (shown c rfl) rest).trans ?_
    rw [word_behind, ← wordBehind_append]
    exact same

theorem phase_marked (s : List Char) : (phase asks s).quoting.Marked := by
  rw [phase_quoting]
  exact Quoting.marked_behind s

def Alike (asks : Bool) (x y : List Char) : Prop := ∀ s, phase asks (s ++ x) = phase asks (s ++ y)

namespace Alike

theorem rfl' (x : List Char) : Alike asks x x := fun _ => rfl

theorem trans (h : Alike asks x y) (h' : Alike asks y w) : Alike asks x w :=
  fun s => (h s).trans (h' s)

theorem append (h : Alike asks x y) (h' : Alike asks v w) : Alike asks (x ++ v) (y ++ w) := by
  intro s
  rw [← List.append_assoc, phase_append, h s, ← phase_append, h' (s ++ y), List.append_assoc]

theorem phase (h : Alike asks x y) : Tick.phase asks x = Tick.phase asks y := h []

theorem of_ordinary (visible : ¬Blank x) (visible' : ¬Blank y) (ordinary : Ordinary asks x)
    (ordinary' : Ordinary asks y) (words : ∀ w, wordBehind w x = wordBehind w y) : Alike asks x y := by
  intro s
  have marked : (Tick.phase asks s).quoting.Marked := phase_marked s
  rw [phase_append, phase_append, Phase.behind_ordinary marked visible ordinary,
    Phase.behind_ordinary marked visible' ordinary', words]

end Alike

end Phases

end EmitterLogic.Tick
