import EmitterLogic.Proofs.Script.Tagging.Statements
import EmitterLogic.Proofs.Tick.Layout

namespace EmitterLogic.Tick

open Text Script Parser

structure Piece extends Tagged where
  gap : List Char
  chars : List Char

namespace Piece

def text (p : Piece) : List Char := p.gap ++ p.chars

def sites (p : Piece) : List Site := roleSites p.token p.role

def isText (p : Piece) : Bool :=
  match p.token.kind with
  | .text _ => true
  | _ => false

end Piece

def span (ps : List Piece) : List Char := ps.flatMap Piece.text

@[simp] theorem span_nil : span [] = [] := rfl

@[simp] theorem span_cons (p : Piece) (ps : List Piece) :
    span (p :: ps) = p.gap ++ (p.chars ++ span ps) := by
  rw [span, List.flatMap_cons, Piece.text, List.append_assoc]
  rfl

@[simp] theorem span_append (ps qs : List Piece) : span (ps ++ qs) = span ps ++ span qs :=
  List.flatMap_append

/-- A piece fits between others: `tail` and `rest` are what is left of the text and of the tokens after
the last of them, `past` are the tokens before the first of them. -/
structure Fits (past : List Tagged) (place : Nat) (a : List Piece) (p : Piece) (z : List Piece)
    (tail : List Char) (rest : List Token) : Prop where
  blank : Blank p.gap
  place : p.token.position = place + (span a).length + p.gap.length
  spelled : Spelled p.token.kind p.chars (span z ++ tail)
  suits : Suits (a.reverse.map Piece.toTagged ++ past) p.token (z.map (·.token) ++ rest) p.role

theorem pieces_of_passage {past past' : List Tagged} {ts rest : List Token} {s : List Site}
    {place : Nat} {b : List Char} (h : Passage past ts s past' rest) (layout : Layout place b ts)
    (left : rest ≠ []) : ∃ ps tail, b = span ps ++ tail ∧ s = ps.flatMap Piece.sites ∧
      ts = ps.map (·.token) ++ rest ∧ (∃ place', Layout place' tail rest) ∧
        ∀ a p z, ps = a ++ p :: z → Fits past place a p z tail rest := by
  -- Along the passage; each token takes its blanks and its characters off the text.
  induction h generalizing place b with
  | here =>
    refine ⟨[], b, rfl, rfl, rfl, ⟨place, layout⟩, fun a p z whole => ?_⟩
    cases a <;> cases whole
  | @step past past' t ts rest role sites suits more ih =>
    cases layout with
    | finish blank =>
      cases more
      exact absurd rfl left
    | @token _ gap cs b' kind broken ts blank spelled layout =>
      obtain ⟨ps, tail, rfl, rfl, rfl, layout', fits⟩ := ih layout left
      refine ⟨⟨⟨⟨kind, place + gap.length, broken⟩, role⟩, gap, cs⟩ :: ps, tail, ?_, rfl, rfl,
        layout', fun a p z whole => ?_⟩
      · rw [span_cons, List.append_assoc, List.append_assoc]
      · cases a with
        | nil =>
          cases whole
          exact ⟨blank, rfl, spelled, suits⟩
        | cons q a =>
          cases whole
          obtain ⟨blank', place', spelled', suits'⟩ := fits a p z rfl
          refine ⟨blank', ?_, spelled', ?_⟩
          · simp only [place', span_cons, List.length_append]
            omega
          · rw [List.reverse_cons, List.map_append, List.append_assoc]
            exact suits'

structure Composed (b : List Char) (ps : List Piece) (tail : List Char) (fin : Token) : Prop where
  text : b = span ps ++ tail
  blank : Blank tail
  finish : fin.isFinish = true
  fits : ∀ a p z, ps = a ++ p :: z → Fits [] 0 a p z tail [fin]

theorem Layout.ended {place : Nat} {b : List Char} {ts : List Token} (h : Layout place b ts) :
    Ended ts := by
  induction h with
  | finish _ => exact ⟨_, rfl, rfl⟩
  | token _ _ _ ih =>
    obtain ⟨t, last, finish⟩ := ih
    exact ⟨t, by rw [List.getLast?_cons, last]; rfl, finish⟩

theorem tokens_of_parse {source : String} {program : Program}
    (parsed : parseProgram source = .ok program) :
    ∃ ts rest, tokens source = .ok ts ∧ Script.program ts = .ok (program, rest) := by
  rw [parseProgram, parseWith] at parsed
  cases read : tokens source with
  | error e =>
    rw [read] at parsed
    cases parsed
  | ok ts =>
    rw [read] at parsed
    have unfolded : (Except.ok ts >>= fun ts => (Script.program : Parser Program).run ts) =
        Script.program ts := rfl
    rw [unfolded] at parsed
    cases run : Script.program ts with
    | error e =>
      rw [run] at parsed
      cases parsed
    | ok result =>
      rw [run] at parsed
      cases parsed
      exact ⟨ts, result.2, rfl, run⟩

theorem exists_composed {source : String} {program : Program}
    (parsed : parseProgram source = .ok program) (unquoted : Unquoted source.toList) :
    ∃ ps tail fin, Composed (blanked source.toList) ps tail fin ∧
      program.sites = ps.flatMap Piece.sites ∧
        tokens source = .ok (ps.map (·.token) ++ [fin]) := by
  obtain ⟨ts, rest, read, run⟩ := tokens_of_parse parsed
  have layout := layout_of_tokens read unquoted
  obtain ⟨past, passage, ended, finish⟩ := program_passage layout.ended run
  obtain ⟨ps, tail, text, sites, rfl, ⟨place, last⟩, fits⟩ :=
    pieces_of_passage passage layout ended.ne_nil
  cases last with
  | finish blank => exact ⟨ps, tail, _, ⟨text, blank, rfl, fits⟩, sites, read⟩
  | token _ spelled _ =>
    cases spelled <;> cases finish

section Characters

variable {past : List Tagged} {place : Nat} {a z : List Piece} {p : Piece} {tail : List Char}
  {rest : List Token} {c : Char} {u v : List Char}

theorem number_visible {whole fraction exponent : List Char}
    (h : Reading.IsUnsigned isDecimal whole fraction exponent) :
    ∀ c ∈ whole ++ (fraction ++ exponent), isBlank c = false := by
  intro c member
  rcases h.chars c member with digit | sign
  · exact isDecimal_not_blank digit
  · have all : (Reading.numberSigns.all fun c => !isBlank c) = true := by decide
    simpa using List.all_eq_true.mp all c sign

theorem mark_visible (m : Mark) : ∀ c ∈ m.text.toList, isBlank c = false := by
  have all : (m.text.toList.all fun c => !isBlank c) = true := by cases m <;> decide
  intro c member
  simpa using List.all_eq_true.mp all c member

theorem mark_wordless (m : Mark) : ∀ c ∈ m.text.toList, isWordPart c = false := by
  have all : (m.text.toList.all fun c => !isWordPart c) = true := by cases m <;> decide
  intro c member
  simpa using List.all_eq_true.mp all c member

namespace Fits

variable (h : Fits past place a p z tail rest)
include h

theorem number {x : Float} (kind : p.token.kind = .number x) :
    ∀ c ∈ (span z ++ tail).head?, isWordStart c = false := by
  have spelled := h.spelled
  rw [kind] at spelled
  generalize p.chars = cs at spelled
  cases spelled with
  | number _ stops => exact stops

theorem word {w : String} (kind : p.token.kind = .word w) : p.chars = w.toList ∧
    isWord w = true ∧ ∀ c ∈ (span z ++ tail).head?, isWordPart c = false := by
  have spelled := h.spelled
  rw [kind] at spelled
  generalize p.chars = cs at spelled
  cases spelled with
  | word parts stops => exact ⟨rfl, parts, stops⟩

theorem mark {m : Mark} (kind : p.token.isMark m = true) : p.chars = m.text.toList := by
  have spelled := h.spelled
  rw [kind_of_isMark kind] at spelled
  generalize p.chars = cs at spelled
  cases spelled
  rfl

theorem visible (shown : p.isText = false) : ∀ c ∈ p.chars, isBlank c = false := by
  have spelled := h.spelled
  rw [Piece.isText] at shown
  generalize p.chars = cs at spelled
  generalize p.token.kind = kind at spelled shown
  cases spelled with
  | number spells _ => exact number_visible spells
  | text => cases shown
  | word parts _ => exact fun c member => isBlank_of_wordPart (isWordPart_of_isWord parts c member)
  | mark _ _ => exact mark_visible _

theorem veiled (text : p.isText = true) : Blank p.chars := by
  have spelled := h.spelled
  rw [Piece.isText] at text
  generalize p.chars = cs at spelled
  generalize p.token.kind = kind at spelled text
  cases spelled with
  | text => exact blank_replicate
  | _ => cases text

theorem chars_ne_nil : p.chars ≠ [] := by
  have spelled := h.spelled
  generalize p.chars = cs at spelled
  generalize p.token.kind = kind at spelled
  cases spelled with
  | number spells _ =>
    obtain ⟨c, cs, whole, _⟩ := spells.first
    rw [whole]
    exact List.cons_ne_nil c cs
  | text => exact List.cons_ne_nil _ _
  | @word w _ parts _ =>
    intro none
    rw [isWord, none] at parts
    cases parts
  | @mark m _ _ _ => cases m <;> decide

theorem shown (shown : p.isText = false) (s : List Char) : Shown (p.chars ++ s) := by
  intro c head
  rw [List.head?_append_of_ne_nil _ h.chars_ne_nil] at head
  exact h.visible shown c (List.mem_of_mem_head? head)

theorem mark_of_char (member : c ∈ p.chars) (shown : isBlank c = false)
    (word : isWordPart c = false) (number : isDecimal c = false ∧ c ∉ Reading.numberSigns) :
    ∃ m, p.token.kind = .mark m ∧ c ∈ m.text.toList := by
  have spelled := h.spelled
  generalize p.chars = cs at spelled member
  generalize p.token.kind = kind at spelled
  cases spelled with
  | number spells _ =>
    rcases spells.chars c member with digit | sign
    · rw [number.1] at digit
      cases digit
    · exact absurd sign number.2
  | text =>
    rw [List.eq_of_mem_replicate member] at shown
    cases shown
  | word parts _ =>
    rw [isWordPart_of_isWord parts c member] at word
    cases word
  | @mark m _ _ _ => exact ⟨m, rfl, member⟩

theorem operand_of_part (member : c ∈ p.chars) (part : isWordPart c = true) :
    (∃ x, p.token.kind = .number x) ∨ ∃ w, p.token.kind = .word w := by
  have spelled := h.spelled
  generalize p.chars = cs at spelled member
  generalize p.token.kind = kind at spelled
  cases spelled with
  | number _ _ => exact .inl ⟨_, rfl⟩
  | text =>
    rw [List.eq_of_mem_replicate member] at part
    exact absurd part (by decide)
  | word _ _ => exact .inr ⟨_, rfl⟩
  | @mark m _ _ _ =>
    rw [mark_wordless m c member] at part
    cases part

theorem word_of_char (member : c ∈ p.chars) (part : isWordPart c = true)
    (number : isDecimal c = false ∧ c ∉ Reading.numberSigns) : ∃ w, p.token.kind = .word w := by
  refine (h.operand_of_part member part).resolve_left fun ⟨x, kind⟩ => ?_
  have spelled := h.spelled
  rw [kind] at spelled
  generalize p.chars = cs at spelled member
  cases spelled with
  | number spells _ =>
    rcases spells.chars c member with digit | sign
    · rw [number.1] at digit
      cases digit
    · exact absurd sign number.2

end Fits

end Characters

section Places

variable {b : List Char} {ps a z : List Piece} {p : Piece} {tail : List Char} {fin : Token} {c : Char}

theorem locate_in {A B : List Char} (gaps : ∀ p ∈ ps, Blank p.gap) (blank : Blank tail)
    (text : span ps ++ tail = A ++ c :: B) (shown : isBlank c = false) :
    ∃ a p z u v, ps = a ++ p :: z ∧ p.chars = u ++ c :: v ∧ A = span a ++ (p.gap ++ u) ∧
      B = v ++ (span z ++ tail) := by
  have visible {g : List Char} (blank : Blank g) : c ∉ g := fun member => by
    rw [blank c member] at shown
    cases shown
  induction ps generalizing A with
  | nil =>
    rw [span_nil, List.nil_append] at text
    exact absurd (text ▸ List.mem_append_right A List.mem_cons_self) (visible blank)
  | cons p ps ih =>
    rw [span_cons, List.append_assoc, List.append_assoc] at text
    -- The place is not in the blanks before the piece.
    obtain ⟨A', rfl, there⟩ : ∃ A', A = p.gap ++ A' ∧
        p.chars ++ (span ps ++ tail) = A' ++ c :: B := by
      rcases List.append_eq_append_iff.mp text with ⟨A', same, rest⟩ | ⟨C, first, second⟩
      · exact ⟨A', same, rest⟩
      · cases C with
        | nil => exact ⟨[], by rw [first, List.append_nil, List.append_nil], second.symm⟩
        | cons d C =>
          obtain rfl : c = d := (List.cons.inj second).1
          exact absurd (first ▸ List.mem_append_right A List.mem_cons_self)
            (visible (gaps p List.mem_cons_self))
    have later {A'' : List Char} (text : span ps ++ tail = A'' ++ c :: B) :
        ∃ a q z u v, p :: ps = a ++ q :: z ∧ q.chars = u ++ c :: v ∧
          p.gap ++ (p.chars ++ A'') = span a ++ (q.gap ++ u) ∧ B = v ++ (span z ++ tail) := by
      obtain ⟨a, q, z, u, v, rfl, chars, rfl, rest⟩ :=
        ih (fun q member => gaps q (List.mem_cons_of_mem p member)) text
      exact ⟨p :: a, q, z, u, v, rfl, chars, by simp, rest⟩
    rcases List.append_eq_append_iff.mp there with ⟨A'', rfl, beyond⟩ | ⟨C, first, second⟩
    · exact later beyond
    · cases C with
      | nil =>
        rw [List.append_nil] at first
        subst first
        have found := later (List.nil_append (span ps ++ tail) ▸ second.symm : span ps ++ tail = [] ++ c :: B)
        rwa [List.append_nil] at found
      | cons d C =>
        obtain ⟨rfl, rest⟩ := List.cons.inj second
        exact ⟨[], p, ps, A', C, rfl, first, rfl, rest⟩

namespace Composed

variable (h : Composed b ps tail fin)
include h

theorem split (whole : ps = a ++ p :: z) :
    b = (span a ++ p.gap) ++ (p.chars ++ (span z ++ tail)) := by
  rw [h.text, whole, span_append, span_cons]
  simp only [List.append_assoc]

theorem suits (whole : ps = a ++ p :: z) :
    Suits (a.reverse.map Piece.toTagged) p.token (z.map (·.token) ++ [fin]) p.role := by
  have suits := (h.fits a p z whole).suits
  rwa [List.append_nil] at suits

theorem suits_after {d : Piece} (whole : ps = a ++ d :: p :: z) :
    Suits (d.toTagged :: a.reverse.map Piece.toTagged) p.token (z.map (·.token) ++ [fin])
      p.role := by
  have suits := h.suits (a := a ++ [d]) (by rw [whole, List.append_assoc]; rfl)
  rwa [List.reverse_append, List.map_append] at suits

theorem gaps : ∀ p ∈ ps, Blank p.gap := by
  intro p member
  obtain ⟨a, z, whole⟩ := List.append_of_mem member
  exact (h.fits a p z whole).blank

theorem locate {A B : List Char} (text : b = A ++ c :: B) (shown : isBlank c = false) :
    ∃ a p z u v, ps = a ++ p :: z ∧ p.chars = u ++ c :: v ∧ A = span a ++ (p.gap ++ u) ∧
      B = v ++ (span z ++ tail) :=
  locate_in h.gaps h.blank (h.text.symm.trans text) shown

theorem following {g s : List Char} (whole : ps = a ++ z) (text : span z ++ tail = g ++ s)
    (blank : Blank g) (shown : Shown s) (left : s ≠ [])
    (noText : ∀ q ∈ z.head?, q.isText = false) :
    ∃ q z', z = q :: z' ∧ g = q.gap ∧ s = q.chars ++ (span z' ++ tail) := by
  cases z with
  | nil =>
    have none : tail = g ++ s := text
    obtain ⟨c, s, rfl⟩ := List.exists_cons_of_ne_nil left
    have visible := shown c rfl
    rw [h.blank c (by rw [none]; exact List.mem_append_right g List.mem_cons_self)] at visible
    cases visible
  | cons q z =>
    have fits := h.fits a q z whole
    rw [span_cons, List.append_assoc, List.append_assoc] at text
    obtain ⟨gap, rest⟩ := blanks_unique text fits.blank blank
      (fits.shown (noText q rfl) _) shown
    exact ⟨q, z, rfl, gap.symm, rest.symm⟩

theorem before_word {w : String} (whole : ps = a ++ p :: z) (kind : p.token.kind = .word w) :
    ∀ c ∈ (span a ++ p.gap).getLast?, isWordPart c = false := by
  have fits := h.fits a p z whole
  obtain ⟨chars, word, _⟩ := fits.word kind
  have blank {c : Char} (blank : isBlank c = true) : isWordPart c = false := by
    rw [Bool.eq_false_iff]
    intro part
    rw [isBlank_of_wordPart part] at blank
    cases blank
  intro c last
  rcases List.eq_nil_or_concat p.gap with none | ⟨g, d, wide⟩
  · rcases List.eq_nil_or_concat a with rfl | ⟨a, q, rfl⟩
    · rw [none] at last
      cases last
    · -- The character is the last one of the piece before, which ends where the word begins.
      rw [List.concat_eq_append] at whole last
      rw [List.append_assoc] at whole
      have fits' := h.fits a q (p :: z) whole
      have last : c ∈ q.chars.getLast? := by
        rw [none, span_append, span_cons, span_nil, List.append_nil, List.append_nil,
          List.getLast?_append, List.getLast?_append] at last
        cases found : q.chars.getLast? with
        | none => exact absurd (List.getLast?_eq_none_iff.mp found) fits'.chars_ne_nil
        | some d =>
          rw [found] at last
          simpa using last
      obtain ⟨d, ds, spell, start⟩ := exists_first_of_isWord word
      have head : d ∈ (span (p :: z) ++ tail).head? := by
        rw [span_cons, none, List.nil_append, chars, spell]
        rfl
      rw [Bool.eq_false_iff]
      intro part
      rcases fits'.operand_of_part (List.mem_of_getLast? last) part with ⟨x, number⟩ | ⟨v, kind'⟩
      · have stop := fits'.number number d head
        rw [start] at stop
        cases stop
      · have stop := (fits'.word kind').2.2 d head
        rw [Predicate.isWordPart_of_start start] at stop
        cases stop
  · rw [List.concat_eq_append] at wide
    rw [wide, ← List.append_assoc, List.getLast?_append] at last
    have same : d = c := by simpa using last
    subst same
    exact blank (fits.blank d (by rw [wide]; exact List.mem_append_right g List.mem_cons_self))

end Composed

end Places

end EmitterLogic.Tick
