import EmitterLogic.Proofs.Condition.Grouped
import EmitterLogic.Proofs.Predicate.Renamed

namespace EmitterLogic

namespace Predicate

open Kotlin Text Script

/-- The tokens of a text up to the end. -/
def kindsOf (text : String) : List TokenKind :=
  match tokens text with
  | .ok ts => (ts.map Token.kind).dropLast
  | .error _ => []

/-- The tokens that stand for a token: those of its target if it is a name with one. -/
def replacement (names : List (String × String)) (k : TokenKind) : List TokenKind :=
  match names.find? fun n => k.isWord n.1 with
  | some n => kindsOf n.2
  | none => [k]

/-- The sign that stands for a sign of strict equality. -/
def loosenedKind : TokenKind → TokenKind
  | .mark .strictNe => .mark .looseNe
  | .mark .strictEq => .mark .looseEq
  | k => k

/-- Do tokens begin with a call of the magnitude function? -/
def beginsMagnitude : List TokenKind → Bool
  | a :: b :: c :: d :: _ =>
    a.isWord "Math" && b.isMark .dot && c.isWord "abs" && d.isMark .leftParen
  | _ => false

/-- A call of the magnitude function in generated code, up to its parenthesis. -/
def magnitudeKinds : List TokenKind :=
  [.word "kotlin", .mark .dot, .word "math", .mark .dot, .word "abs", .mark .leftParen]

/-- Each token replaced once, but for the names of members; `skip` tokens belong to a call that has been
replaced. -/
def substitutedFrom (names : List (String × String)) :
    Nat → Bool → List TokenKind → List TokenKind
  | _, _, [] => []
  | skip + 1, _, _ :: rest => substitutedFrom names skip false rest
  | 0, isMember, k :: rest =>
    if beginsMagnitude (k :: rest) then magnitudeKinds ++ substitutedFrom names 3 false rest
    else (if isMember then [loosenedKind k] else replacement names (loosenedKind k)) ++
      substitutedFrom names 0 (k.isMark .dot) rest

def substituted (names : List (String × String)) (ks : List TokenKind) : List TokenKind :=
  substitutedFrom names 0 false ks

/-- The names of the context that are replaced, with their targets. -/
def replacedNames (map : NameMap) : List (String × String) :=
  contextKeys.filterMap fun (key, otherName) =>
    let target := map.firstOf (key :: otherName.toList)
    if target.isEmpty || target == key then none else some (key, target)

/-- Does the name of the magnitude function stand at the front without blanks? -/
def frontsMagnitude : List Token → Bool
  | t :: u :: v :: _ => u.position == t.position + 4 && v.position == u.position + 1
  | _ => false

/-- Is the name of the magnitude function written without blanks in each call of it? -/
def closelyWritten : List Token → Bool
  | [] => true
  | t :: rest =>
    (!beginsMagnitude ((t :: rest).map Token.kind) || frontsMagnitude (t :: rest)) &&
      closelyWritten rest

/-- A text that the passes do not get wrong: calls of the magnitude function are closely written, tokens
sit well beside the targets, and no target holds a name that is replaced in a later pass. -/
structure Substitutable (names : List (String × String)) (ts : List Token) : Prop where
  closely : closelyWritten ts = true
  sits : ts.IsChain fun t u => Sits names t.kind u.kind (u.position = t.position + 1)
  later : names.Pairwise fun n m => ∀ k ∈ kindsOf n.2, k ≠ .word m.1

variable {names : List (String × String)} {map : NameMap} {rest : List Char} {ps qs : List Part}
  {p : Part} {kind : TokenKind} {cs : List Char} {before : Option Char} {head : Option Char}

section Magnitude

def magnitudeParts (g : List Char) : List Part :=
  [⟨g, .word "kotlin", "kotlin".toList⟩, ⟨[], .mark .dot, ['.']⟩, ⟨[], .word "math", "math".toList⟩,
    ⟨[], .mark .dot, ['.']⟩, ⟨[], .word "abs", "abs".toList⟩, ⟨[], .mark .leftParen, ['(']⟩]

inductive Magnified : List Part → List Part → Prop where
  | nil : Magnified [] []
  | keep {p : Part} {ps qs : List Part} (other : beginsMagnitude ((p :: ps).map Part.kind) = false)
    (more : Magnified ps qs) : Magnified (p :: ps) (p :: qs)
  | call {a b c d : Part} {ps qs : List Part}
    (begins : beginsMagnitude ([a, b, c, d].map Part.kind) = true) (near : b.gap = [] ∧ c.gap = [])
    (more : Magnified ps qs) : Magnified (a :: b :: c :: d :: ps) (magnitudeParts a.gap ++ qs)

theorem magnitudeCall_takesWords : TakesWords magnitudeCall where
  fresh before s inside := by rw [magnitudeCall, if_pos inside]
  first before c s matched := by
    have same : 'M' = c := by
      refine Classical.byContradiction fun other => matched ?_
      have chars : "Math.abs".toList = 'M' :: "ath.abs".toList := by decide
      have different : ¬('M' == c) = true := by simpa using other
      rw [magnitudeCall, chars, dropWord?, if_neg different]
      split <;> rfl
    subst same
    decide

theorem Written.of_blank (h : Written rest ps) (blank : AllBlank rest) {c : Char}
    (member : c ∈ joined rest ps) (isblank : isBlank c = true) : c ∈ blankChars := by
  induction h with
  | nil => exact blank c member
  | @cons p ps gap firm more ih =>
    rw [joined, List.mem_append, List.mem_append] at member
    rcases member with before | inside | after
    · exact gap c before
    · have shown := firm.all_chars (f := fun c => !isBlank c) (by decide) (by decide) (by decide)
        c inside
      rw [isblank] at shown
      cases shown
    · exact ih after

theorem firm_leftParen : Firm (.mark .leftParen) ['('] head :=
  .mark (m := .leftParen) nofun nofun nofun

theorem Written.beginsMagnitude (h : Written rest (p :: ps)) (blank : AllBlank rest)
    (matched : magnitudeCall before (p.chars ++ joined rest ps) ≠ none) :
    beginsMagnitude ((p :: ps).map Part.kind) = true := by
  have found : ∃ r left, dropWord? "Math.abs".toList (p.chars ++ joined rest ps) = some r ∧
      trimStart r = '(' :: left := by
    rw [magnitudeCall] at matched
    split at matched
    · exact absurd rfl matched
    split at matched
    · exact absurd rfl matched
    · next r rest' =>
      split at matched
      · next left opening => exact ⟨_, left, rest', opening⟩
      · exact absurd rfl matched
  obtain ⟨r, left, front, opening⟩ := found
  have whole := dropWord?_eq_some_iff.mp front
  obtain ⟨g, visible, split, _⟩ := trimStart_split r
  rw [opening] at split
  obtain ⟨gap₀, kind, chars⟩ := p
  cases h with
  | cons gap firm more =>
  have written : Written rest (⟨[], kind, chars⟩ :: ps) := .cons allBlank_nil firm more
  have gap' : AllBlank g := fun c member => by
    refine written.of_blank blank ?_ (visible c member)
    rw [joined, whole, split]
    simp [member]
  have stops : ∀ c ∈ r.head?, isWordPart c = false := by
    intro c first
    rw [split] at first
    cases g with
    | nil =>
      cases first
      decide
    | cons b g =>
      cases first
      have all : ∀ c ∈ blankChars, isWordPart c = false := forall_mem_of_all (by decide)
      exact all c (gap' c List.mem_cons_self)
  have math : "Math.abs".toList = "Math".toList ++ ('.' :: "abs".toList) := by decide
  rw [math] at whole
  have dot : Firm (.mark .dot) ['.'] ("abs".toList ++ r).head? :=
    .mark (m := .dot) (fun _ _ => List.not_mem_nil) (by rintro ⟨⟩) (by rintro _ _ ⟨⟩; decide)
  have word : Firm (.word "Math") "Math".toList ('.' :: ("abs".toList ++ r)).head? :=
    .word (by decide) (by rintro _ ⟨⟩; decide)
  have text : joined rest (⟨[], kind, chars⟩ :: ps) =
      [] ++ ("Math".toList ++ ('.' :: ("abs".toList ++ r))) := by
    rw [joined, whole]
    simp
  obtain ⟨qs, same, more₁, after⟩ := written.uncons blank allBlank_nil word text
  cases same
  have text : joined rest ps = [] ++ (['.'] ++ ("abs".toList ++ r)) := after
  obtain ⟨qs, rfl, more₂, after⟩ := more₁.uncons blank allBlank_nil dot text
  have text : joined rest qs = [] ++ ("abs".toList ++ r) := after
  obtain ⟨qs, rfl, more₃, after⟩ := more₂.uncons blank allBlank_nil (.word (by decide) stops) text
  have text : joined rest qs = g ++ (['('] ++ left) := after.trans split
  obtain ⟨qs, rfl, _, _⟩ := more₃.uncons blank gap' firm_leftParen text
  rfl

theorem of_beginsMagnitude {k : TokenKind} {ks : List TokenKind}
    (h : Predicate.beginsMagnitude (k :: ks) = true) :
    k = .word "Math" ∧ ∃ rest, ks = .mark .dot :: .word "abs" :: .mark .leftParen :: rest := by
  rw [Predicate.beginsMagnitude.eq_def] at h
  split at h
  · next a b c d rest same =>
    cases same
    simp only [Bool.and_eq_true, TokenKind.isWord_iff, TokenKind.isMark_iff] at h
    obtain ⟨⟨⟨rfl, rfl⟩, rfl⟩, rfl⟩ := h
    exact ⟨rfl, rest, rfl⟩
  · cases h

theorem Firm.word_chars {w : String} (firm : Firm (.word w) cs head) : cs = w.toList := by
  cases firm
  rfl

theorem Firm.mark_chars {m : Mark} (firm : Firm (.mark m) cs head) : cs = m.text.toList := by
  cases firm
  rfl

theorem magnitudeCall_here {g s : List Char} (outside : before.any isWordChar = false)
    (gap : AllBlank g) : magnitudeCall before ("Math.abs".toList ++ (g ++ '(' :: s)) =
      some (("Math.abs".toList ++ (g ++ ['('])).length, "kotlin.math.abs(".toList) := by
  have blank : Blank g := fun c member => by
    have all : ∀ c ∈ blankChars, isBlank c = true := forall_mem_of_all (by decide)
    exact all c (gap c member)
  have trim : trimStart (g ++ '(' :: s) = '(' :: s := by
    refine trimStart_append blank ?_
    rintro _ ⟨⟩
    decide
  have inside : ¬before.any isWordChar = true := by rw [outside]; exact Bool.false_ne_true
  rw [magnitudeCall, if_neg inside, dropWord?_append]
  simp only [trim]
  have length : ("Math.abs".toList ++ (g ++ '(' :: s)).length - s.length =
      ("Math.abs".toList ++ (g ++ ['('])).length := by
    simp only [List.length_append, List.length_cons, List.length_nil]
    omega
  rw [length]

theorem Written.call {a b c d : Part} (h : Written rest (a :: b :: c :: d :: ps))
    (begins : Predicate.beginsMagnitude ([a, b, c, d].map Part.kind) = true)
    (near : b.gap = [] ∧ c.gap = []) : AllBlank a.gap ∧ AllBlank d.gap ∧ Written rest ps ∧
      joined rest (a :: b :: c :: d :: ps) =
        a.gap ++ ("Math.abs".toList ++ (d.gap ++ '(' :: joined rest ps)) := by
  obtain ⟨first, _, same⟩ := of_beginsMagnitude begins
  simp only [List.map_cons, List.map_nil, List.cons.injEq] at same
  obtain ⟨second, third, fourth, _⟩ := same
  cases h with
  | cons gap firma h =>
  cases h with
  | cons _ firmb h =>
  cases h with
  | cons _ firmc h =>
  cases h with
  | cons gap' firmd h =>
  rw [first] at firma
  rw [second] at firmb
  rw [third] at firmc
  rw [fourth] at firmd
  refine ⟨gap, gap', h, ?_⟩
  have chars : "Math.abs".toList = "Math".toList ++ ('.' :: "abs".toList) := by decide
  simp only [joined, near.1, near.2, firma.word_chars, firmb.mark_chars, firmc.word_chars,
    firmd.mark_chars, chars, List.append_assoc, List.nil_append, List.cons_append]
  rfl

theorem magnitudeCall_replaces (h : Magnified ps qs) (written : Written rest ps)
    (blank : AllBlank rest) (fresh : Fresh before (joined rest ps)) :
    replaceFrom magnitudeCall before 0 (joined rest ps) = joined rest qs := by
  -- Part by part; only at the head of a call does the matcher take anything, and then four parts at once.
  induction h generalizing before with
  | nil => exact magnitudeCall_takesWords.ends blank
  | @keep p ps qs other more ih =>
    have whole := written
    cases written with
    | cons gap firm left =>
      rw [magnitudeCall_takesWords.passes gap firm fun w word => ?_, ih left firm.fresh]
      · rfl
      · refine Classical.byContradiction fun matched => ?_
        rw [whole.beginsMagnitude blank matched] at other
        cases other
  | @call a b c d ps qs begins near more ih =>
    obtain ⟨gap, gap', left, text⟩ := written.call begins near
    rw [text] at fresh ⊢
    have outside : (a.gap.getLast?.or before).any isWordChar = false :=
      fresh.past_gap gap 'M' rfl (by decide)
    have found := magnitudeCall_here (s := joined rest ps) outside gap'
    have split : "Math.abs".toList ++ (d.gap ++ '(' :: joined rest ps) =
        "Math.abs".toList ++ (d.gap ++ ['(']) ++ joined rest ps := by simp
    have last : ("Math.abs".toList ++ (d.gap ++ ['('])).getLast? = some '(' := by
      rw [← List.append_assoc, List.getLast?_concat]
    have after : Fresh (some '(') (joined rest ps) := .of_before (by decide)
    rw [split] at found
    rw [replaceFrom_unmatched (magnitudeCall_takesWords.blank gap), split,
      replaceFrom_matched (by simp) found, last, Option.some_or, ih left after, joined_append]
    rfl

theorem exists_magnified (near : ∀ a b c d, [a, b, c, d] <:+: ps →
    Predicate.beginsMagnitude ([a, b, c, d].map Part.kind) = true → b.gap = [] ∧ c.gap = []) :
    ∃ qs, Magnified ps qs := by
  -- What holds of all neighbours holds of those further on.
  induction length : ps.length using Nat.strong_induction_on generalizing ps with
  | _ n ih =>
    have further (qs : List Part) (shorter : qs.length < n) (inside : qs <:+ ps) :
        ∃ qs', Magnified qs qs' :=
      ih qs.length shorter (fun a b c d h => near a b c d (h.trans inside.isInfix)) rfl
    cases ps with
    | nil => exact ⟨[], .nil⟩
    | cons a ps =>
      cases begins : Predicate.beginsMagnitude ((a :: ps).map Part.kind) with
      | false =>
        obtain ⟨qs, more⟩ := further ps (by simp [← length]) (List.suffix_cons a ps)
        exact ⟨a :: qs, .keep begins more⟩
      | true =>
        obtain ⟨_, left, same⟩ := of_beginsMagnitude begins
        rcases ps with _ | ⟨b, _ | ⟨c, _ | ⟨d, ps⟩⟩⟩
        · simp at same
        · simp at same
        · simp at same
        · obtain ⟨qs, more⟩ := further ps (by simp [← length]; omega) ⟨[a, b, c, d], rfl⟩
          exact ⟨magnitudeParts a.gap ++ qs,
            .call begins (near a b c d ⟨[], ps, rfl⟩ begins) more⟩

theorem Magnified.front (h : Magnified ps qs) (written : Written rest ps) :
    (joined rest qs).head? = (joined rest ps).head? ∨
      ((joined rest ps).head? = some 'M' ∧ (joined rest qs).head? = some 'k') := by
  cases h with
  | nil => exact .inl rfl
  | @keep p ps qs other more =>
    cases written with
    | cons gap firm left =>
      obtain ⟨c, cs, chars⟩ := List.exists_cons_of_ne_nil firm.chars_ne_nil
      refine .inl ?_
      simp only [joined, chars, List.head?_append, List.head?_cons, Option.some_or]
  | @call a b c d ps qs begins near more =>
    obtain ⟨_, _, _, text⟩ := written.call begins near
    rw [text, joined_append]
    cases gap : a.gap with
    | nil => exact .inr ⟨rfl, rfl⟩
    | cons e g => exact .inl rfl

theorem Firm.magnified (firm : Firm kind cs (some 'M')) : Firm kind cs (some 'k') := by
  cases firm with
  | word ident stops => exact absurd (stops 'M' rfl) (by decide)
  | number chars value stops => exact absurd (stops 'M' rfl) (by decide)
  | @mark m =>
    refine .mark ?_ ?_ ?_
    · rintro _ ⟨⟩
      have all : ∀ m ∈ Mark.all, 'k' ∉ m.growths := by decide
      exact all m m.mem_all
    · rintro _ _ ⟨⟩
      decide
    · rintro _ _ ⟨⟩
      decide

theorem firm_dot {c : Char} (other : isDigitMark c = false) : Firm (.mark .dot) ['.'] (some c) := by
  refine .mark (m := .dot) nofun nofun ?_
  rintro _ _ ⟨⟩
  exact other

theorem firm_word {w : String} {c : Char} (ident : isIdentChars w.toList = true)
    (stops : isWordPart c = false) : Firm (.word w) w.toList (some c) := by
  refine .word ident ?_
  rintro _ ⟨⟩
  exact stops

theorem magnitudeParts_written {g : List Char} (gap : AllBlank g) :
    Written rest (magnitudeParts g) := by
  refine .cons gap (firm_word (by decide) (by decide)) ?_
  refine .cons nofun (firm_dot (by decide)) ?_
  refine .cons nofun (firm_word (by decide) (by decide)) ?_
  refine .cons nofun (firm_dot (by decide)) ?_
  refine .cons nofun (firm_word (by decide) (by decide)) ?_
  exact .cons nofun firm_leftParen .nil

theorem Magnified.written (h : Magnified ps qs) (written : Written rest ps) : Written rest qs := by
  induction h with
  | nil => exact .nil
  | @keep p ps qs other more ih =>
    cases written with
    | cons gap firm left =>
      refine .cons gap ?_ (ih left)
      rcases more.front left with same | ⟨first, first'⟩
      · rwa [same]
      · rw [first] at firm
        rw [first']
        exact firm.magnified
  | @call a b c d ps qs begins near more ih =>
    obtain ⟨gap, _, left, _⟩ := written.call begins near
    exact .append (magnitudeParts_written gap) (ih left)

def SparesMagnitude (names : List (String × String)) : Prop :=
  ∀ n ∈ names, ∀ w ∈ ["kotlin", "math", "abs"], n.1 ≠ w

theorem SparesMagnitude.other (h : SparesMagnitude names) {g : List Char} {q : Part}
    (member : q ∈ magnitudeParts g) : ∀ n ∈ names, q.kind ≠ .word n.1 := by
  intro n listed same
  have kinds : ∀ k ∈ (magnitudeParts g).map Part.kind, ∀ w, k = .word w →
      w ∈ ["kotlin", "math", "abs"] := by
    intro k inside w word
    subst word
    simpa [magnitudeParts] using inside
  exact h n listed n.1 (kinds _ (List.mem_map_of_mem member) n.1 same) rfl

theorem Magnified.sits (h : Magnified ps qs) (spares : SparesMagnitude names)
    (sits : ps.IsChain (Part.Sits names)) : qs.IsChain (Part.Sits names) := by
  induction h with
  | nil => exact .nil
  | @keep p ps qs other more ih =>
    rw [List.isChain_cons] at sits ⊢
    refine ⟨?_, ih sits.2⟩
    intro q head
    cases more with
    | nil => cases head
    | @keep q' ps qs =>
      cases head
      exact sits.1 q rfl
    | @call a b c d ps qs begins near more =>
      cases head
      have beside : Predicate.Sits names p.kind a.kind (a.gap = []) := sits.1 a rfl
      have second (n) (listed : n ∈ names) := spares.other (g := a.gap) List.mem_cons_self n listed
      refine ⟨fun _ => second, fun n listed numeric same => ?_, fun _ _ n listed _ => second n listed⟩
      have word := (of_beginsMagnitude begins).1
      rcases beside.number n listed numeric same with finish | ⟨m, _, mark⟩
      · cases word.symm.trans finish
      · cases word.symm.trans mark
  | @call a b c d ps qs begins near more ih =>
    rw [List.isChain_append]
    refine ⟨?_, ih sits.tail.tail.tail.tail, ?_⟩
    · exact List.Pairwise.isChain (List.pairwise_of_forall_mem_list fun q first q' second =>
        .of_other (spares.other first) (spares.other second))
    · rintro x last y head
      cases last
      exact ⟨nofun, fun _ _ _ => nofun, nofun⟩

end Magnitude

end Predicate

end EmitterLogic
