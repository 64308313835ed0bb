import EmitterLogic.Proofs.Tick.Heads

namespace EmitterLogic.Tick

open Text Script Parser

theorem assign_marks (m : Mark) (h : '=' ∈ m.text.toList) : ∀ c ∈ m.text.toList,
    isBlank c = false ∧ isNamePart c = false ∧ c ≠ ')' := by
  have all : (Mark.all.all fun m => !m.text.toList.contains '=' ||
    m.text.toList.all fun c => !isBlank c && !isNamePart c && c != ')') = true := by decide
  have one := List.all_eq_true.mp all m (mem_all m)
  simpa [h, and_assoc] using one

theorem marks_of_assign (m : Mark) (h : m.text.toList.head? = some '=') :
    m = .assign ∨ m = .arrow ∨ m.text.toList.tail.head? = some '=' := by
  cases m <;> simp_all [Mark.text]

section Arrows

variable {b A B s t tail : List Char} {ps a z : List Piece} {p d o q : Piece} {fin : Token} {n : Nat}
  {v : List Char}

theorem Composed.arrow_at (h : Composed b ps tail fin) (text : b = A ++ '=' :: '>' :: t)
    (apart : ∀ c ∈ A.getLast?, isBlank c = true ∨ isNamePart c = true ∨ c = ')') :
    ∃ a q z, ps = a ++ q :: z ∧ q.token.isMark .arrow = true ∧ A = span a ++ q.gap ∧
      t = span z ++ tail := by
  obtain ⟨a, q, z, m, u, w, whole, kind, spell, before, after⟩ :=
    h.locate_mark text (by decide) (by decide) (by decide)
  have none : u = [] := by
    rcases List.eq_nil_or_concat u with rfl | ⟨u, c, rfl⟩
    · rfl
    · rw [List.concat_eq_append] at spell before
      have found := assign_marks m (by rw [spell]; simp) c (by rw [spell]; simp)
      have last := apart c (by rw [before, ← List.append_assoc, List.getLast?_concat]; rfl)
      rw [found.1, found.2.1] at last
      simp [found.2.2] at last
  rw [none, List.append_nil] at before
  rw [none, List.nil_append] at spell
  have mark := isMark_of_kind kind
  rcases marks_of_assign m (by rw [spell]; rfl) with rfl | rfl | second
  · have spelled := (h.fits a q z whole).spelled
    rw [kind] at spelled
    generalize q.chars = cs at spelled
    cases spelled with
    | mark assign _ =>
      obtain rfl : [] = w := (List.cons.inj spell).2
      exact absurd (by rw [← List.nil_append (span z ++ tail), ← after]; rfl) (assign rfl)
  · obtain rfl : ['>'] = w := (List.cons.inj spell).2
    exact ⟨a, q, z, whole, mark, before, (List.cons.inj after).2⟩
  · rw [spell, List.tail_cons] at second
    cases w with
    | nil => cases second
    | cons c w =>
      rw [(Option.some.inj second : c = '=')] at after
      exact absurd (List.cons.inj after).1 (by decide)

theorem Regular.inList (r : Regular ps) (whole : ps = a ++ z) {arrow : Bool}
    (inList : InList arrow (a.reverse.map Piece.toTagged)) :
    ∃ a' o inner, a = a' ++ o :: inner ∧ o.role = .list arrow ∧
      ∀ q ∈ inner, isParen q.token = false := by
  obtain ⟨passed, l, outer, split, role, first⟩ := inList
  obtain ⟨x, y, back, rfl, rest⟩ := List.map_eq_append_iff.mp split
  obtain ⟨o, y, rfl, rfl, rfl⟩ := List.map_eq_cons_iff.mp rest
  have forth : a = y.reverse ++ o :: x.reverse := by
    rw [← List.reverse_reverse a, back]
    simp only [List.reverse_append, List.reverse_cons, List.append_assoc, List.singleton_append]
  have role : o.role = .list arrow := role
  refine ⟨y.reverse, o, x.reverse, forth, role, ?_⟩
  obtain ⟨inner, c, more, after, plain, closes, _⟩ := r.lists (a := y.reverse) (o := o)
    (z := x.reverse ++ z) (by rw [whole, forth, List.append_assoc]; rfl) role
  -- The list is not closed before the place, which the first parenthesis after it would do.
  rcases List.append_eq_append_iff.mp after with ⟨w, rfl, _⟩ | ⟨w, same, beyond⟩
  · exact fun q member => plain q (List.mem_append_left w member)
  · cases w with
    | nil =>
      rw [same, List.append_nil]
      exact plain
    | cons e w =>
      obtain ⟨rfl, _⟩ := List.cons.inj beyond
      have none : (c.toTagged).token.isMark .rightParen = false := by
        refine first c.toTagged ?_
        rw [← List.map_reverse, same, List.map_append, List.map_cons, List.find?_append,
          List.find?_eq_none.mpr]
        · rw [List.find?_cons, isParen, show c.toTagged.token.isMark .rightParen = true from closes,
            Bool.or_true]
          rfl
        · intro d member
          obtain ⟨q, there, rfl⟩ := List.mem_map.mp member
          exact Bool.eq_false_iff.mp (plain q there)
      rw [closes] at none
      cases none

theorem Regular.unnested (r : Regular ps) (h : Composed b ps tail fin) {C : List Char}
    (whole : ps = a ++ o :: z) (role : o.role = .list true)
    (before : span a ++ o.gap = A ++ '(' :: C) (none : ')' ∉ C) : False := by
  have text : b = A ++ '(' :: (C ++ (o.chars ++ (span z ++ tail))) := by
    rw [h.split whole, before]
    simp only [List.append_assoc, List.cons_append]
  obtain ⟨a', p, z', u, w, whole', chars, before', after⟩ := h.locate text (by decide)
  have opening := h.sign (c := '(') (m := .leftParen) (by decide) whole' (by rw [chars]; simp)
  have single : p.chars = ['('] := (h.fits a' p z' whole').mark opening
  rw [single] at chars
  obtain ⟨rfl, rfl⟩ : u = [] ∧ w = [] := by
    cases u with
    | nil => exact ⟨rfl, (List.cons.inj chars).2.symm⟩
    | cons c u =>
      have rest := (List.cons.inj chars).2
      cases u <;> cases rest
  have shorter : (span a' ++ p.gap).length < (span a ++ o.gap).length := by
    rw [before, before', List.append_nil]
    simp
  obtain ⟨m, rfl, _⟩ : ∃ m, a = a' ++ p :: m ∧ z' = m ++ o :: z := by
    rcases split_cases (whole.symm.trans whole') with there | ⟨rfl, rfl, _⟩ | ⟨m, rfl, _⟩
    · exact there
    · exact absurd shorter (Nat.lt_irrefl _)
    · rw [List.length_append, List.length_append, length_span_append_cons] at shorter
      omega
  have inside : C = span m ++ o.gap := by
    rw [before', span_append, span_cons, single] at before
    simpa using before.symm
  have unclosed : ∀ q ∈ m, q.token.isMark .rightParen = false := by
    intro q member
    rw [Bool.eq_false_iff]
    intro closes
    refine none ?_
    obtain ⟨x, y, rfl⟩ := List.append_of_mem member
    have closed : q.chars = [')'] := (h.fits (a' ++ p :: x) q (y ++ o :: z) (by
      rw [whole]
      simp only [List.append_assoc, List.cons_append])).mark closes
    rw [inside, span_append, span_cons, closed]
    simp
  have last := r.outer whole role
  rw [List.reverse_append, List.reverse_cons, List.append_assoc, List.find?_append] at last
  cases found : m.reverse.find? fun d => isParen d.token with
  | some d =>
    rw [found, Option.some_or] at last
    have paren := List.find?_some found
    have other := last d rfl
    rw [isParen, other, unclosed d (List.mem_reverse.mp (List.mem_of_find?_eq_some found))] at paren
    cases paren
  | none =>
    rw [found, Option.none_or, List.singleton_append, List.find?_cons, isParen, opening] at last
    have other := last p rfl
    rw [opening] at other
    cases other

theorem arrow_after {g y : List Char} {c : Char} (h : g ++ '=' :: '>' :: t = y ++ c :: s)
    (blank : Blank g) (other : isBlank c = false ∧ c ≠ '=' ∧ c ≠ '>') : g.length + 2 ≤ y.length := by
  rcases List.append_eq_append_iff.mp h with ⟨w, rfl, after⟩ | ⟨w, rfl, after⟩
  · rw [List.length_append]
    cases w with
    | nil => exact absurd (List.cons.inj after).1.symm other.2.1
    | cons d w =>
      cases w with
      | nil => exact absurd (List.cons.inj (List.cons.inj after).2).1.symm other.2.2
      | cons e w =>
        simp only [List.length_cons]
        omega
  · cases w with
    | nil => exact absurd (List.cons.inj after).1 other.2.1
    | cons d w =>
      have same := (List.cons.inj after).1
      have blank' := blank d (by simp)
      rw [← same, other.1] at blank'
      cases blank'

theorem arrowName_found (r : Regular ps) (h : Composed b ps tail fin) {w : String}
    (whole : ps = a ++ p :: q :: z) (kind : p.token.kind = .word w)
    (arrow : q.token.isMark .arrow = true) :
    ((span a ++ p.gap).length, w.toList.length + q.gap.length + 2, w.toList) ∈
      findAll arrowName b := by
  obtain ⟨name, dollar⟩ := r.bare whole kind arrow
  have fits := h.fits a p (q :: z) whole
  have fits' := h.fits (a ++ [p]) q z (by rw [whole, List.append_assoc]; rfl)
  have chars := (fits.word kind).1
  have chars' : q.chars = ['=', '>'] := fits'.mark arrow
  obtain ⟨c, cs, spell, start⟩ := head_of_nameChars name
  have part : isWordPart c = true := isWordPart_of_namePart (isNamePart_of_start start)
  have first : isWordChar c = true := by
    rw [isNameStart, Bool.or_eq_true, beq_iff_eq] at start
    refine isWordChar_of_identStart (start.resolve_right fun same => dollar ?_)
    rw [spell, same]
    rfl
  have after : p.chars ++ (span (q :: z) ++ tail) =
      w.toList ++ (q.gap ++ '=' :: '>' :: (span z ++ tail)) := by simp [chars, chars']
  have boundary : isBoundary (span a ++ p.gap).getLast?
      (w.toList ++ (q.gap ++ '=' :: '>' :: (span z ++ tail))).head? = true := by
    rw [isBoundary, h.fresh whole kind, spell, List.cons_append, List.head?_cons, Option.any_some,
      first]
    rfl
  have found : arrowName (span a ++ p.gap).getLast? (p.chars ++ (span (q :: z) ++ tail)) =
      some (w.toList.length + q.gap.length + 2, w.toList) := by
    rw [after]
    exact arrowName_eq_some_iff.mpr ⟨boundary, q.gap, _, rfl, fits'.blank, name, rfl⟩
  refine h.finds whole found fun A' C n v before left _ matched => ?_
  obtain ⟨_, g, t, text, blank, named, rfl⟩ := arrowName_eq_some_iff.mp matched
  have unlike : ∀ d ∈ C.getLast?, isNamePart d = false := by
    intro d last
    refine not_namePart (h.before_word whole kind d ?_)
    rw [before, List.getLast?_append, Option.mem_def.mp last]
    rfl
  -- The earlier name ends before the later one begins, and so do the blanks and the arrow after it.
  rcases List.append_eq_append_iff.mp text with ⟨y, rfl, _⟩ | ⟨y, rfl, rest⟩
  · have last := unlike _ (Option.mem_def.mpr (List.getLast?_eq_some_getLast left))
    rw [mem_isNameChars named _ (List.mem_append_left y (List.getLast_mem left))] at last
    cases last
  · rw [after, spell, List.cons_append] at rest
    have signs : (['=', '>'].all fun d => !isWordPart d) = true := by decide
    have other (d : Char) (member : d ∈ ['=', '>']) : c ≠ d := by
      rintro rfl
      have none := List.all_eq_true.mp signs c member
      rw [part] at none
      cases none
    have beyond := arrow_after rest blank
      ⟨isBlank_of_wordPart part, other '=' (by simp), other '>' (by simp)⟩
    rw [List.length_append]
    omega

theorem Composed.before_arrow (h : Composed b ps tail fin) {X g : List Char}
    (text : b = X ++ (g ++ '=' :: '>' :: t)) (blank : Blank g)
    (shown : ∃ c ∈ X.getLast?, isNamePart c = true ∨ c = ')') :
    ∃ a d q z, ps = a ++ d :: q :: z ∧ q.token.isMark .arrow = true ∧
      X = (span a ++ d.gap) ++ d.chars ∧ g = q.gap ∧ t = span z ++ tail ∧
        ((d.role = .binder .parameter ∧ ∃ w, d.token.kind = .word w) ∨
          d.token.isMark .rightParen = true ∧ InList true (a.reverse.map Piece.toTagged)) := by
  obtain ⟨c, last, visible⟩ := shown
  obtain ⟨a, q, z, whole, arrow, before, after⟩ := h.arrow_at (A := X ++ g) (t := t)
    (by rw [text, List.append_assoc]) fun e last' => by
      rcases List.eq_nil_or_concat g with rfl | ⟨g', d, rfl⟩
      · rw [List.append_nil, Option.mem_def.mp last] at last'
        obtain rfl : c = e := Option.some.inj last'
        exact .inr visible
      · rw [List.concat_eq_append, ← List.append_assoc, List.getLast?_concat] at last'
        obtain rfl : d = e := Option.some.inj last'
        exact .inl (blank d (by simp))
  obtain ⟨e, earlier, same, what⟩ := (h.suits whole).arrow arrow
  obtain ⟨a', d, rfl, rfl, rfl⟩ : ∃ a' d, a = a' ++ [d] ∧ d.toTagged = e ∧
      a'.reverse.map Piece.toTagged = earlier := by
    rcases List.eq_nil_or_concat a with rfl | ⟨a', d, rfl⟩
    · cases same
    · rw [List.concat_eq_append, List.reverse_append, List.reverse_singleton, List.singleton_append,
        List.map_cons] at same
      obtain ⟨rfl, rfl⟩ := List.cons.inj same
      exact ⟨a', d, List.concat_eq_append, rfl, rfl⟩
  have whole' : ps = a' ++ d :: q :: z := by rw [whole, List.append_assoc]; rfl
  have fits := h.fits a' d (q :: z) whole'
  have what' : (d.role = .binder .parameter ∧ ∃ w, d.token.kind = .word w) ∨
      d.token.isMark .rightParen = true ∧ InList true (a'.reverse.map Piece.toTagged) := by
    refine what.imp_left fun role => ?_
    have role : d.role = .binder .parameter := role
    have suits := h.suits whole'
    rw [role] at suits
    exact ⟨role, word_of_free suits.1⟩
  have unveiled : d.isText = false := by
    rw [Piece.isText]
    rcases what' with ⟨_, w, kind⟩ | ⟨closes, _⟩
    · rw [kind]
    · rw [kind_of_isMark closes]
  have split : X ++ g = ((span a' ++ d.gap) ++ d.chars) ++ q.gap := by
    rw [before, span_append, span_cons, span_nil]
    simp only [List.append_nil, List.append_assoc]
  obtain ⟨rfl, rfl⟩ := blanks_unique_end split blank (h.gaps q (by rw [whole]; simp))
    (fun e last' => by
      rw [Option.mem_def.mp last] at last'
      obtain rfl : c = e := Option.some.inj last'
      rcases visible with part | rfl
      · exact isBlank_of_wordPart (isWordPart_of_namePart part)
      · decide)
    (fun e last' => by
      rw [List.getLast?_append_of_ne_nil _ fits.chars_ne_nil] at last'
      exact fits.visible unveiled e (List.mem_of_getLast? last'))
  exact ⟨a', d, q, z, whole', arrow, rfl, rfl, after, what'⟩

theorem arrowName_reads (r : Regular ps) (h : Composed b ps tail fin) (text : b = A ++ B)
    (found : arrowName A.getLast? B = some (n, v))
    (member : (A.length, n, v) ∈ findAll arrowName b) :
    ∃ p ∈ ps, ∃ w, p.role = .binder .parameter ∧ p.token.kind = .word w ∧ v = w.toList := by
  obtain ⟨_, g, t, rfl, blank, name, rfl⟩ := arrowName_eq_some_iff.mp found
  have full := ne_nil_of_isNameChars name
  have part (c : Char) (last : c ∈ (A ++ v).getLast?) : isNamePart c = true := by
    rw [List.getLast?_append_of_ne_nil _ full] at last
    exact mem_isNameChars name c (List.mem_of_getLast? last)
  have last : (A ++ v).getLast? = some ((A ++ v).getLast (by simp [full])) :=
    List.getLast?_eq_some_getLast _
  obtain ⟨a, d, q, z, whole, arrow, before, rfl, rfl, what⟩ := h.before_arrow
    (by rw [text, List.append_assoc]) blank ⟨_, last, .inl (part _ last)⟩
  have fits := h.fits a d (q :: z) whole
  rcases what with ⟨role, w, kind⟩ | ⟨closes, _⟩
  · refine ⟨d, by rw [whole]; simp, w, role, kind, ?_⟩
    have chars := (fits.word kind).1
    rw [chars] at before
    rcases List.append_eq_append_iff.mp before with ⟨y, there, same⟩ | ⟨y, there, same⟩
    · rcases List.eq_nil_or_concat y with rfl | ⟨y', c, rfl⟩
      · exact same
      · rw [List.concat_eq_append] at there same
        have stop := h.before_word whole kind c (by
          rw [there, ← List.append_assoc, List.getLast?_concat]
          rfl)
        have goes := mem_isNameChars name c (by rw [same]; simp)
        rw [not_namePart stop] at goes
        cases goes
    · -- The parameter is found, so that no match begins in the middle of it.
      cases y with
      | nil => exact same.symm
      | cons c y =>
        have count := congrArg List.length there
        have inner := congrArg List.length same
        rw [List.length_append, List.length_cons] at count inner
        have apart := findFrom_apart (arrowName_found r h whole kind arrow) member (by omega)
        omega
  · have single : d.chars = [')'] := fits.mark closes
    rw [single] at before
    have paren := part ')' (by rw [before, List.getLast?_concat]; rfl)
    exact absurd paren (by decide)

structure ArrowPieces (ps a : List Piece) (o : Piece) (inner : List Piece) (c q : Piece)
    (z : List Piece) : Prop where
  whole : ps = a ++ o :: (inner ++ c :: q :: z)
  role : o.role = .list true
  opens : o.token.isMark .leftParen = true
  plain : ∀ p ∈ inner, isParen p.token = false
  closes : c.token.isMark .rightParen = true
  arrow : q.token.isMark .arrow = true

theorem Regular.arrowPieces (r : Regular ps) (h : Composed b ps tail fin) (whole : ps = a ++ o :: z)
    (role : o.role = .list true) : ∃ inner c q z', ArrowPieces ps a o inner c q z' ∧
      z = inner ++ c :: q :: z' := by
  obtain ⟨inner, c, more, rfl, plain, closes, follows⟩ := r.lists whole role
  obtain ⟨q, z', rfl, arrow⟩ := follows rfl
  have suits := h.suits whole
  rw [role] at suits
  exact ⟨inner, c, q, z', ⟨whole, role, suits.1, plain, closes, arrow⟩, rfl⟩

theorem ArrowPieces.read {inner : List Piece} {c : Piece} (F : ArrowPieces ps a o inner c q z)
    (r : Regular ps) (h : Composed b ps tail fin) : span inner ++ c.gap ∈ readings arrowHead b := by
  have inside : ps = (a ++ [o]) ++ (inner ++ c :: q :: z) := by
    rw [F.whole, List.append_assoc]
    rfl
  have none := h.noClose inside F.plain
  have opened : o.chars = ['('] := (h.fits a o _ F.whole).mark F.opens
  have closed : c.chars = [')'] := (h.fits (a ++ o :: inner) c (q :: z) (by
    rw [F.whole, List.append_assoc]
    rfl)).mark F.closes
  have pointed : q.chars = ['=', '>'] := (h.fits (a ++ o :: (inner ++ [c])) q z (by
    rw [F.whole]
    simp only [List.append_assoc, List.cons_append, List.nil_append])).mark F.arrow
  have after : o.chars ++ (span (inner ++ c :: q :: z) ++ tail) = '(' :: ((span inner ++ c.gap) ++
      ')' :: (q.gap ++ '=' :: '>' :: (span z ++ tail))) := by simp [opened, closed, pointed]
  have found : arrowHead (span a ++ o.gap).getLast?
      (o.chars ++ (span (inner ++ c :: q :: z) ++ tail)) =
        some ((span inner ++ c.gap).length + q.gap.length + 4, span inner ++ c.gap) := by
    rw [after]
    exact arrowHead_eq_some_iff.mpr ⟨q.gap, _, rfl, h.gaps q (by rw [F.whole]; simp), none, rfl⟩
  refine mem_readings (h.finds F.whole found fun A' C n v before left _ matched => ?_)
  obtain ⟨g, t, text, blank, noClose, rfl⟩ := arrowHead_eq_some_iff.mp matched
  obtain ⟨e, C, rfl⟩ := List.exists_cons_of_ne_nil left
  rw [after] at text
  obtain ⟨rfl, inner⟩ := List.cons.inj text
  -- The parenthesis at the piece does not stand in the earlier list.
  rcases List.append_eq_append_iff.mp (show C ++ _ = _ from inner) with ⟨y, rfl, _⟩ | ⟨y, rfl, rest⟩
  · exact (r.unnested h F.whole F.role before
      fun member => noClose (List.mem_append_left y member)).elim
  · cases y with
    | nil => exact absurd (List.cons.inj rest).1 (by decide)
    | cons d y =>
      have beyond := arrow_after (List.cons.inj rest).2 blank (by decide)
      simp only [List.length_cons, List.length_append]
      omega

theorem arrowHead_reads (r : Regular ps) (h : Composed b ps tail fin) (text : b = A ++ B)
    (found : arrowHead A.getLast? B = some (n, v)) :
    ∃ a o inner c q z, ArrowPieces ps a o inner c q z ∧ v = span inner ++ c.gap := by
  obtain ⟨g, t, rfl, blank, noClose, rfl⟩ := arrowHead_eq_some_iff.mp found
  obtain ⟨a, d, q, z, whole, arrow, before, rfl, rfl, what⟩ :=
    h.before_arrow (X := A ++ '(' :: (v ++ [')'])) (t := t) (g := g)
      (by rw [text]; simp only [List.append_assoc, List.cons_append, List.nil_append]) blank
      ⟨')', by rw [← List.cons_append, ← List.append_assoc, List.getLast?_concat]; rfl, .inr rfl⟩
  have fits := h.fits a d (q :: z) whole
  have ends : d.chars.getLast? = some ')' := by
    rw [← List.getLast?_append_of_ne_nil (span a ++ d.gap) fits.chars_ne_nil, ← before,
      ← List.cons_append, ← List.append_assoc, List.getLast?_concat]
  rcases what with ⟨_, w, kind⟩ | ⟨closes, inList⟩
  · have parts := isWordPart_of_isWord (fits.word kind).2.1
    have part := parts ')' (by
      rw [← (fits.word kind).1]
      exact List.mem_of_getLast? ends)
    exact absurd part (by decide)
  · obtain ⟨a', o, inner, rfl, role, plain⟩ := r.inList whole inList
    have whole' : ps = a' ++ o :: (inner ++ d :: q :: z) := by rw [whole, List.append_assoc]; rfl
    have suits := h.suits whole'
    rw [role] at suits
    have opened : o.chars = ['('] := (h.fits a' o _ whole').mark suits.1
    have closed : d.chars = [')'] := fits.mark closes
    refine ⟨a', o, inner, d, q, z, ⟨whole', role, suits.1, plain, closes, arrow⟩, ?_⟩
    have same : A ++ '(' :: v = (span a' ++ o.gap) ++ '(' :: (span inner ++ d.gap) := by
      refine List.append_cancel_right (show (A ++ '(' :: v) ++ [')'] =
        ((span a' ++ o.gap) ++ '(' :: (span inner ++ d.gap)) ++ [')'] from ?_)
      rw [List.append_assoc, List.cons_append, before, closed, span_append, span_cons, opened]
      simp only [List.append_assoc, List.cons_append, List.nil_append]
    rcases List.append_eq_append_iff.mp same with ⟨y, there, rest⟩ | ⟨y, there, rest⟩
    · cases y with
      | nil => exact (List.cons.inj rest).2
      | cons e y =>
        obtain ⟨rfl, inside⟩ := List.cons.inj rest
        refine (r.unnested h whole' role there fun member => noClose ?_).elim
        rw [show v = y ++ _ from inside]
        exact List.mem_append_left _ member
    · cases y with
      | nil => exact (List.cons.inj rest).2.symm
      | cons e y =>
        -- The parenthesis that is read would stand in the list.
        have open' : '(' ∉ span inner ++ d.gap := by
          have inside : ps = (a' ++ [o]) ++ (inner ++ d :: q :: z) := by
            rw [whole', List.append_assoc]
            rfl
          exact h.noSign (m := .leftParen) (by decide) inside
            fun p member => (not_paren_iff.mp (plain p member)).1
        refine absurd ?_ open'
        rw [show span inner ++ d.gap = y ++ _ from (List.cons.inj rest).2]
        exact List.mem_append_right y List.mem_cons_self

end Arrows

end EmitterLogic.Tick
