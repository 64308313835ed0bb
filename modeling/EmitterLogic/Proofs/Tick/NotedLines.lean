import Mathlib.Data.List.Infix
import EmitterLogic.Proofs.Script.Stretches
import EmitterLogic.Script.Parser
import EmitterLogic.Proofs.Tick.CommentedText

namespace EmitterLogic.Script.Stretch

/-- Is a stretch a comment up to the end of its line? -/
def isNote (p : Stretch) : Bool :=
  match p.lexeme with
  | .gap _ => "//".toList.isPrefixOf p.chars
  | .token _ => false

/-- Is a stretch a comment between marks? -/
def isBlock (p : Stretch) : Bool :=
  match p.lexeme with
  | .gap _ => "/*".toList.isPrefixOf p.chars
  | .token _ => false

/-- Is a stretch a quoted text that goes on in another line? -/
def isBroken (p : Stretch) : Bool :=
  match p.lexeme with
  | .token (.text _) => p.chars.contains '\n'
  | _ => false

end EmitterLogic.Script.Stretch

namespace EmitterLogic.Tick

open Text Script Stretch

variable {c : Char} {rest s chars : List Char} {n : Nat} {l : Lexeme}

section Stretches

/-- A part of a script in front of a text: a line break, a comment to the end of its line, or code within a
line, of which none begins a comment together with what follows it. -/
inductive Reads (p : Stretch) (after : List Char) : Prop where
  | newline (chars : p.chars = ['\n']) (plain : p.isNote = false)
  | note (note : List Char) (chars : p.chars = '/' :: '/' :: note) (marked : p.isNote = true)
    (inLine : '\n' ∉ note) (ends : ∀ d ∈ after.head?, d = '\n')
  | code (plain : p.isNote = false) (inLine : '\n' ∉ p.chars) (visible : p.chars ≠ [])
    (closed : Quoting.plain.behind p.chars = .plain)
    (alone : p.chars.getLast? = some '/' → ∀ d ∈ after.head?, d ≠ '/')

theorem behind_of_unquoted (none : ∀ c ∈ s, isQuote c = false) : Quoting.plain.behind s = .plain := by
  induction s with
  | nil => rfl
  | cons c s ih =>
    obtain ⟨first, rest⟩ := List.forall_mem_cons.mp none
    have still : Quoting.plain.after c = .plain := by
      rw [Quoting.after, first]
      rfl
    rw [Quoting.behind, List.foldl_cons, still]
    exact ih rest

theorem Reads.of_chars {p : Stretch} {after : List Char} {f : Char → Bool} (plain : p.isNote = false)
    (visible : p.chars ≠ []) (h : (['"', '\'', '\x60', '\n', '/'].all fun d => !f d) = true)
    (parts : ∀ d ∈ p.chars, f d = true) : Reads p after := by
  have none {d : Char} (inside : d ∈ ['"', '\'', '\x60', '\n', '/']) : d ∉ p.chars := fun member => by
    have other := List.all_eq_true.mp h d inside
    rw [parts d member] at other
    cases other
  refine .code plain (none (by decide)) visible (behind_of_unquoted fun d member => ?_) fun last => ?_
  · rw [Bool.eq_false_iff]
    intro quote
    rw [isQuote, Bool.or_eq_true, Bool.or_eq_true, beq_iff_eq, beq_iff_eq, beq_iff_eq] at quote
    rcases quote with (rfl | rfl) | rfl <;> exact none (by decide) member
  · exact absurd (List.mem_of_getLast? last) (none (by decide))

theorem behind_decodes {quote : Char} {body cs : List Char} (h : Decodes quote body cs) :
    (Quoting.within quote).behind body = .within quote := by
  induction h with
  | nil => rfl
  | @plain c body cs other unescaped inLine more ih =>
    have still : (Quoting.within quote).after c = .within quote := by
      rw [Quoting.after, beq_eq_false_iff_ne.mpr unescaped, beq_eq_false_iff_ne.mpr other]
      rfl
    rw [Quoting.behind, List.foldl_cons, still]
    exact ih
  | escape more ih => exact ih

theorem reads_text {t : String} (lexed : lexemeAt (c :: rest) = .ok (n, .token (.text t)))
    (whole : (⟨(c :: rest).take n, .token (.text t)⟩ : Stretch).isBroken = false) :
    Reads ⟨(c :: rest).take n, .token (.text t)⟩ ((c :: rest).drop n) := by
  obtain ⟨quote, slash, k, cs, body, rfl⟩ := of_lexemeAt_text lexed
  obtain ⟨inner, more, rfl, rfl, decodes⟩ := quotedBody_decodes body
  have taken : (c :: (inner ++ c :: more)).take (inner.length + 1 + 1) = c :: (inner ++ [c]) := by
    have split : inner ++ c :: more = (inner ++ [c]) ++ more := by simp
    rw [List.take_succ_cons, split, List.take_left' (by simp)]
  have backslash : (c == '\\') = false := by
    rw [beq_eq_false_iff_ne]
    rintro rfl
    cases quote
  have unbroken : '\n' ∉ c :: (inner ++ [c]) := by
    rw [isBroken, taken] at whole
    simpa using whole
  refine .code rfl ?_ ?_ ?_ ?_
  · rw [taken]
    exact unbroken
  · rw [taken]
    exact List.cons_ne_nil _ _
  · show Quoting.plain.behind ((c :: (inner ++ c :: more)).take (inner.length + 1 + 1)) = .plain
    have opens : Quoting.plain.after c = .within c := by
      rw [Quoting.after, quote]
      rfl
    rw [taken, Quoting.behind, List.foldl_cons, opens]
    show (Quoting.within c).behind (inner ++ [c]) = .plain
    rw [Quoting.behind_append, behind_decodes decodes, Quoting.behind, List.foldl_cons, List.foldl_nil,
      Quoting.after, backslash, beq_self_eq_true]
    rfl
  · intro last
    exfalso
    rw [taken, ← List.cons_append, List.getLast?_concat] at last
    exact slash (Option.some.inj last)

theorem reads_stretch (lexed : lexemeAt (c :: rest) = .ok (n, l))
    (line : (⟨(c :: rest).take n, l⟩ : Stretch).isBlock = false)
    (whole : (⟨(c :: rest).take n, l⟩ : Stretch).isBroken = false) :
    Reads ⟨(c :: rest).take n, l⟩ ((c :: rest).drop n) := by
  cases lexed' : lexemeAt_lexed lexed with
  | newline => exact .newline rfl rfl
  | blank h =>
    by_cases newline : c = '\n'
    · subst newline
      exact .newline rfl rfl
    · have plain : (⟨[c], .gap false⟩ : Stretch).isNote = false := Bool.and_false _
      refine .of_chars (f := fun d => isBlank d && d != '\n') plain (List.cons_ne_nil _ _) (by decide) ?_
      intro d member
      obtain rfl := List.mem_singleton.mp member
      rw [h, Bool.true_and, bne_iff_ne]
      exact newline
  | @line rest first =>
    obtain ⟨more, rfl⟩ : ∃ more, rest = '/' :: more := List.head?_eq_some_iff.mp first
    have count : (('/' :: '/' :: more).takeWhile (· != '\n')).length =
        (more.takeWhile (· != '\n')).length + 1 + 1 := by simp
    have taken : ('/' :: '/' :: more).take ((more.takeWhile (· != '\n')).length + 1 + 1) =
        '/' :: '/' :: more.takeWhile (· != '\n') := by
      rw [List.take_succ_cons, List.take_succ_cons, ← List.prefix_iff_eq_take.mp (List.takeWhile_prefix _)]
    have left : ('/' :: '/' :: more).drop ((more.takeWhile (· != '\n')).length + 1 + 1) =
        more.dropWhile (· != '\n') := by
      rw [List.drop_succ_cons, List.drop_succ_cons]
      conv_lhs => rw [← List.takeWhile_append_dropWhile (p := (· != '\n')) (l := more)]
      rw [List.drop_left' (by simp)]
    rw [count, taken, left]
    refine .note (more.takeWhile (· != '\n')) rfl rfl (fun member => ?_) fun d head => ?_
    · simpa using List.mem_takeWhile_imp member
    · simpa using dropWhile_head d head
  | @comment k rest broken closed => cases line
  | number x starts stops =>
    obtain ⟨whole, fraction, exponent, span, spells⟩ := numberLength_spells starts
    refine .of_chars (f := fun c => isDigitMark c || Reading.numberSigns.contains c) rfl ?_ (by decide) ?_
    · obtain ⟨k, more⟩ := Nat.exists_eq_add_of_lt (lexemeAt_pos lexed)
      rw [more]
      exact List.cons_ne_nil _ _
    · show ∀ d ∈ (c :: rest).take (numberLength (c :: rest)), _
      rw [span]
      intro d member
      rw [Bool.or_eq_true, List.contains_iff_mem]
      exact spells.chars d member
  | text t quote => exact reads_text lexed whole
  | word start =>
    rw [take_word]
    refine .of_chars (f := isWordPart) rfl (List.cons_ne_nil _ _) (by decide) ?_
    exact List.forall_mem_cons.mpr
      ⟨Predicate.isWordPart_of_start start, fun _ => List.mem_takeWhile_imp⟩
  | @mark m _ found =>
    have front := List.find?_some found
    obtain ⟨more, text⟩ := List.isPrefixOf_iff_prefix.mp front
    have signs : m.text.toList ≠ [] ∧ '\n' ∉ m.text.toList ∧ (∀ c ∈ m.text.toList, isQuote c = false) ∧
        (m.text.toList.getLast? = some '/' → m = .slash) := by
      cases m <;> decide
    obtain ⟨visible, inLine, unquoted, slash⟩ := signs
    rw [← text, ← String.length_toList, List.take_left, List.drop_left]
    refine .code rfl inLine visible (behind_of_unquoted unquoted) fun last d head => ?_
    obtain rfl := slash last
    obtain ⟨rfl, rfl⟩ := List.cons.inj text
    exact (slash_alone lexed d head).1

end Stretches

/-- The code of a script: what the scanner reads but for the comments to the end of a line. -/
def bare (ps : List Stretch) : List Char := (ps.filter (!·.isNote)).flatMap Stretch.chars

/-- A comment of a script, between the code in front of it and behind it. -/
structure Remark where
  before : List Char
  note : List Char
  after : List Char

def remarksFrom : List Char → List Stretch → List Remark
  | _, [] => []
  | before, p :: ps =>
    if p.isNote then ⟨before, p.chars.drop 2, bare ps⟩ :: remarksFrom before ps
    else remarksFrom (before ++ p.chars) ps

/-- The comments of a script that the scanner reads up to the end of their lines. -/
def remarks (source : String) : List Remark := remarksFrom [] (stretches source)

/-- A script without its comments to the end of a line. -/
def uncommented (source : String) : String := String.ofList (bare (stretches source))

section Lines

open Tick.Line

variable {p : Stretch} {ps : List Stretch} {l : Line} {ls A B : List Line} {before note : List Char}

def Line.put (p : Stretch) : List Line → List Line
  | [] => []
  | l :: ls =>
    if p.isNote then ⟨[], some (p.chars.drop 2)⟩ :: ls
    else if p.chars = ['\n'] then ⟨[], none⟩ :: l :: ls
    else ⟨p.chars ++ l.code, l.note?⟩ :: ls

def linesOf (ps : List Stretch) : List Line := ps.foldr Line.put [⟨[], none⟩]

def Readable : List Stretch → Prop
  | [] => True
  | p :: ps => Reads p (ps.flatMap Stretch.chars) ∧ Readable ps

theorem readable_of_stretched {s : List Char} (h : Stretched s ps) (line : ∀ p ∈ ps, p.isBlock = false)
    (whole : ∀ p ∈ ps, p.isBroken = false) : Readable ps := by
  induction h with
  | nil => trivial
  | @cons c rest n lexeme more lexed later ih =>
    obtain ⟨here, others⟩ := List.forall_mem_cons.mp line
    obtain ⟨here', others'⟩ := List.forall_mem_cons.mp whole
    refine ⟨?_, ih others others'⟩
    rw [later.chars]
    exact reads_stretch lexed here here'

theorem linesOf_note (marked : p.isNote = true) (rest : linesOf ps = l :: ls) :
    linesOf (p :: ps) = ⟨[], some (p.chars.drop 2)⟩ :: ls := by
  rw [linesOf, List.foldr_cons, ← linesOf, rest, Line.put, if_pos marked]

theorem linesOf_newline (plain : p.isNote = false) (chars : p.chars = ['\n']) (rest : linesOf ps = l :: ls) :
    linesOf (p :: ps) = ⟨[], none⟩ :: l :: ls := by
  rw [linesOf, List.foldr_cons, ← linesOf, rest, Line.put, plain, if_neg Bool.false_ne_true, if_pos chars]

theorem linesOf_code (plain : p.isNote = false) (inLine : '\n' ∉ p.chars) (rest : linesOf ps = l :: ls) :
    linesOf (p :: ps) = ⟨p.chars ++ l.code, l.note?⟩ :: ls := by
  have other : p.chars ≠ ['\n'] := fun same => inLine (same ▸ List.mem_cons_self)
  rw [linesOf, List.foldr_cons, ← linesOf, rest, Line.put, plain, if_neg Bool.false_ne_true, if_neg other]

theorem exists_linesOf (ps : List Stretch) : ∃ l ls, linesOf ps = l :: ls := by
  induction ps with
  | nil => exact ⟨_, _, rfl⟩
  | cons p ps ih =>
    obtain ⟨l, ls, found⟩ := ih
    rw [linesOf, List.foldr_cons, ← linesOf, found, Line.put]
    split
    · exact ⟨_, _, rfl⟩
    · split
      · exact ⟨_, _, rfl⟩
      · exact ⟨_, _, rfl⟩

theorem linesOf_ends (h : Readable ps) (found : linesOf ps = l :: ls)
    (ends : ∀ d ∈ (ps.flatMap Stretch.chars).head?, d = '\n') : l.code = [] := by
  cases ps with
  | nil =>
    obtain ⟨rfl, -⟩ := List.cons.inj found
    rfl
  | cons p ps =>
    obtain ⟨l', ls', rest⟩ := exists_linesOf ps
    cases h.1 with
    | newline chars plain =>
      rw [linesOf_newline plain chars rest] at found
      obtain ⟨rfl, -⟩ := List.cons.inj found
      rfl
    | note note chars marked inLine ends =>
      rw [linesOf_note marked rest] at found
      obtain ⟨rfl, -⟩ := List.cons.inj found
      rfl
    | code plain inLine visible closed alone =>
      exfalso
      obtain ⟨c, more, chars⟩ := List.exists_cons_of_ne_nil visible
      have newline := ends c (by rw [List.flatMap_cons, chars]; rfl)
      rw [chars, newline] at inLine
      exact inLine List.mem_cons_self

theorem linesOf_slash (h : Readable ps) (found : linesOf ps = l :: ls) (none : l.code = [])
    (noted : l.note?.isSome = true) : (ps.flatMap Stretch.chars).head? = some '/' := by
  cases ps with
  | nil =>
    obtain ⟨rfl, -⟩ := List.cons.inj found
    cases noted
  | cons p ps =>
    obtain ⟨l', ls', rest⟩ := exists_linesOf ps
    cases h.1 with
    | newline chars plain =>
      rw [linesOf_newline plain chars rest] at found
      obtain ⟨rfl, -⟩ := List.cons.inj found
      cases noted
    | note note chars marked inLine ends =>
      rw [List.flatMap_cons, chars]
      rfl
    | code plain inLine visible closed alone =>
      rw [linesOf_code plain inLine rest] at found
      obtain ⟨rfl, -⟩ := List.cons.inj found
      exact absurd (List.append_eq_nil_iff.mp none).1 visible

theorem cut_front {w s t : List Char} {ts : List (List Char)} (inLine : '\n' ∉ w)
    (found : cut '\n' s = t :: ts) : cut '\n' (w ++ s) = (w ++ t) :: ts := by
  induction w with
  | nil => exact found
  | cons c w ih =>
    rw [List.mem_cons, not_or] at inLine
    exact cut_cons (Ne.symm inLine.1) (ih inLine.2)

theorem bare_cons (plain : p.isNote = false) : bare (p :: ps) = p.chars ++ bare ps := by
  rw [bare, List.filter_cons, plain]
  rfl

theorem bare_note (marked : p.isNote = true) : bare (p :: ps) = bare ps := by
  rw [bare, List.filter_cons, marked]
  rfl

theorem cut_linesOf (h : Readable ps) : cut '\n' (ps.flatMap Stretch.chars) = (linesOf ps).map Line.text ∧
    cut '\n' (bare ps) = (linesOf ps).map Line.code := by
  -- Both texts are cut at once: a stretch ends a line, or goes on in the first of them.
  induction ps with
  | nil => exact ⟨rfl, rfl⟩
  | cons p ps ih =>
    obtain ⟨texts, codes⟩ := ih h.2
    obtain ⟨l, ls, rest⟩ := exists_linesOf ps
    rw [rest, List.map_cons] at texts codes
    rw [List.flatMap_cons]
    cases h.1 with
    | newline chars plain =>
      rw [linesOf_newline plain chars rest, bare_cons plain, chars, List.singleton_append,
        List.singleton_append, cut_break, cut_break, texts, codes]
      exact ⟨rfl, rfl⟩
    | note note chars marked inLine ends =>
      have none := linesOf_ends h.2 rest ends
      have nothing : l.text = [] := by
        cases noted : l.note? with
        | none => rw [Line.text, noted, none]; rfl
        | some other =>
          have slash := linesOf_slash h.2 rest none (by rw [noted]; rfl)
          exact absurd (ends '/' slash) (by decide)
      have plain : '\n' ∉ '/' :: '/' :: note := by
        rw [List.mem_cons, List.mem_cons, not_or, not_or]
        exact ⟨by decide, by decide, inLine⟩
      rw [linesOf_note marked rest, bare_note marked, chars, cut_front plain texts, codes, nothing, none]
      exact ⟨by rw [List.append_nil]; rfl, rfl⟩
    | code plain inLine visible closed alone =>
      rw [linesOf_code plain inLine rest, bare_cons plain, cut_front inLine texts, cut_front inLine codes]
      refine ⟨?_, rfl⟩
      rw [List.map_cons, Line.text, Line.text, List.append_assoc]

theorem linesOf_whole (h : Readable ps) : ∀ l ∈ linesOf ps, '\n' ∉ l.code ∧
    Quoting.plain.behind l.code = .plain ∧ (l.note?.isSome = true → l.code.getLast? ≠ some '/') := by
  induction ps with
  | nil =>
    refine List.forall_mem_singleton.mpr ⟨List.not_mem_nil, rfl, nofun⟩
  | cons p ps ih =>
    have later := ih h.2
    obtain ⟨l, ls, rest⟩ := exists_linesOf ps
    rw [rest] at later
    obtain ⟨⟨unbroken, closed', single⟩, others⟩ := List.forall_mem_cons.mp later
    cases h.1 with
    | newline chars plain =>
      rw [linesOf_newline plain chars rest]
      exact List.forall_mem_cons.mpr ⟨⟨List.not_mem_nil, rfl, nofun⟩, later⟩
    | note note chars marked inLine ends =>
      rw [linesOf_note marked rest]
      exact List.forall_mem_cons.mpr ⟨⟨List.not_mem_nil, rfl, nofun⟩, others⟩
    | code plain inLine visible closed alone =>
      rw [linesOf_code plain inLine rest]
      refine List.forall_mem_cons.mpr ⟨⟨?_, ?_, fun noted => ?_⟩, others⟩
      · exact fun member => (List.mem_append.mp member).elim inLine unbroken
      · rw [Quoting.behind_append, closed, closed']
      · by_cases none : l.code = []
        · rw [none, List.append_nil]
          exact fun last => alone last '/' (linesOf_slash h.2 rest none noted) rfl
        · rw [List.getLast?_append_of_ne_nil _ none]
          exact single noted

theorem codes_linesOf (h : Readable ps) : codes (linesOf ps) = bare ps ++ ['\n'] := by
  induction ps with
  | nil => rfl
  | cons p ps ih =>
    have later := ih h.2
    obtain ⟨l, ls, rest⟩ := exists_linesOf ps
    rw [rest, codes_cons] at later
    cases h.1 with
    | newline chars plain =>
      rw [linesOf_newline plain chars rest, codes_cons, codes_cons, later, bare_cons plain, chars]
      rfl
    | note note chars marked inLine ends =>
      have none := linesOf_ends h.2 rest ends
      rw [none] at later
      rw [linesOf_note marked rest, codes_cons, bare_note marked, ← later]
    | code plain inLine visible closed alone =>
      rw [linesOf_code plain inLine rest, codes_cons, List.append_assoc, later, bare_cons plain,
        List.append_assoc]

theorem exists_remark (before : List Char) (A : List Line) (h : Readable ps)
    (whole : linesOf ps = A ++ l :: B) (noted : l.note? = some note) :
    ∃ r ∈ remarksFrom before ps, r.note = note ∧ r.before = before ++ (codes A ++ l.code) ∧
      r.after ++ ['\n'] = '\n' :: codes B := by
  -- Along the stretches: what is passed goes into `before`, but for other comments.
  induction ps generalizing before A l with
  | nil =>
    cases A with
    | nil =>
      obtain ⟨rfl, -⟩ := List.cons.inj whole
      cases noted
    | cons a A => exact absurd (List.cons.inj whole).2 (by simp)
  | cons p ps ih =>
    obtain ⟨m, ls, rest⟩ := exists_linesOf ps
    cases h.1 with
    | newline chars plain =>
      rw [linesOf_newline plain chars rest] at whole
      rw [remarksFrom, plain, if_neg Bool.false_ne_true]
      cases A with
      | nil =>
        obtain ⟨rfl, -⟩ := List.cons.inj whole
        cases noted
      | cons a A =>
        obtain ⟨rfl, same⟩ := List.cons.inj whole
        obtain ⟨r, member, note', front, back⟩ := ih (before ++ p.chars) A h.2 (rest.trans same) noted
        refine ⟨r, member, note', ?_, back⟩
        rw [front, codes_cons, chars]
        simp only [List.append_assoc, List.cons_append, List.nil_append]
    | note note' chars marked inLine ends =>
      have none := linesOf_ends h.2 rest ends
      rw [linesOf_note marked rest] at whole
      rw [remarksFrom, marked, if_pos rfl]
      cases A with
      | nil =>
        obtain ⟨rfl, rfl⟩ := List.cons.inj whole
        refine ⟨_, List.mem_cons_self, Option.some.inj noted, (List.append_nil before).symm, ?_⟩
        have all := codes_linesOf h.2
        rw [rest, codes_cons, none] at all
        exact all.symm
      | cons a A =>
        obtain ⟨rfl, rfl⟩ := List.cons.inj whole
        obtain ⟨r, member, note', front, back⟩ := ih before (m :: A) h.2 rest noted
        refine ⟨r, List.mem_cons_of_mem _ member, note', ?_, back⟩
        rw [front, codes_cons, codes_cons, none]
    | code plain inLine visible closed alone =>
      rw [linesOf_code plain inLine rest] at whole
      rw [remarksFrom, plain, if_neg Bool.false_ne_true]
      cases A with
      | nil =>
        obtain ⟨rfl, rfl⟩ := List.cons.inj whole
        obtain ⟨r, member, note', front, back⟩ := ih (before ++ p.chars) [] h.2 rest noted
        refine ⟨r, member, note', ?_, back⟩
        rw [front]
        exact List.append_assoc ..
      | cons a A =>
        obtain ⟨rfl, rfl⟩ := List.cons.inj whole
        obtain ⟨r, member, note', front, back⟩ :=
          ih (before ++ p.chars) (m :: A) h.2 rest noted
        refine ⟨r, member, note', ?_, back⟩
        rw [front, codes_cons, codes_cons]
        simp only [List.append_assoc]

end Lines

end EmitterLogic.Tick
