import EmitterLogic.Proofs.Tick.CommentedUnit

namespace EmitterLogic.Tick

open Text

variable {c : Char} {e g k s t u v x y note : List Char} {q : Quoting}

section Listings

variable {l l' : Listing} {lines : List (List Char)} {indent line unit : List Char}

namespace Listing

def deep (l : Listing) (unit : List Char) : Nat :=
  if unit.head? == some closeBrace then l.depth - 1 else l.depth

def lead (indent : List Char) (l : Listing) (unit : List Char) : List Char :=
  indent ++ List.replicate (4 * l.deep unit) ' '

def closes (l : Listing) : Bool := l.lines.head?.any isClose

theorem add_eq (visible : unit ≠ []) : l.add indent unit = {
    lines := (joined? l.lines unit).getD ((l.lead indent unit ++ unit) :: l.lines)
    depth := if unit.getLast? == some openBrace then l.deep unit + 1 else l.deep unit } := by
  rw [add, if_neg (fun none => visible (List.isEmpty_iff.mp none))]
  rfl

theorem joined?_of_else (goesOn : isElse unit = true) (line : List Char) (lines : List (List Char)) :
    joined? (line :: lines) unit =
      if isClose line then some ((line ++ ' ' :: unit) :: lines) else none := by
  rw [joined?, goesOn, Bool.true_and]
  rfl

theorem joined?_of_not (fresh : isElse unit = true → l.closes = false) : joined? l.lines unit = none := by
  cases lines : l.lines with
  | nil => rfl
  | cons line rest =>
    cases goesOn : isElse unit with
    | false => rw [joined?, goesOn]; rfl
    | true =>
      have open' := fresh goesOn
      rw [closes, lines] at open'
      have other : ¬isClose line = true := by
        rw [show isClose line = false from open']
        exact Bool.false_ne_true
      rw [joined?_of_else goesOn, if_neg other]

theorem blank_lead (blank : Blank indent) : Blank (l.lead indent unit) :=
  blank.append fun c member => by rw [(List.mem_replicate.mp member).2]; decide

theorem unbroken_lead (l : Listing) (unit : List Char) (unbroken : '\n' ∉ indent) :
    '\n' ∉ l.lead indent unit := by
  rw [lead, List.mem_append, List.mem_replicate, not_or]
  exact ⟨unbroken, fun both => absurd both.2 (by decide)⟩

end Listing

theorem codeLines_cons (line : List Char) (lines : List (List Char)) :
    codeLines (line :: lines) = codeLines [line] ++ codeLines lines := by
  rw [codeLines, codeLines, codeLines, List.map_cons, List.map_cons, ← List.filter_append]
  rfl

theorem codeLines_of_codeOf (same : codeOf x = codeOf y) : codeLines [x] = codeLines [y] := by
  rw [codeLines, codeLines, List.map_singleton, List.map_singleton, same]

theorem codeLines_of_nil (none : codeOf x = []) : codeLines [x] = [] := by
  rw [codeLines, List.map_singleton, none]
  rfl

structure Matches (l l' : Listing) : Prop where
  depth : l.depth = l'.depth
  codes : codeLines l.lines = codeLines l'.lines
  unbroken : ∀ line ∈ l.lines ++ l'.lines, '\n' ∉ line

def Agree (l l' : Listing) : Prop := l.closes = true ∨ l'.closes = true →
  ∃ line r r', l.lines = line :: r ∧ l'.lines = line :: r'

structure Paired (y x : List Char) : Prop where
  visible : y ≠ [] ∧ x ≠ []
  head : y.head? = x.head?
  opens : (y.getLast? == some openBrace) = (x.getLast? == some openBrace)
  isElse : Listing.isElse y = Listing.isElse x
  code : ∀ g, Quoting.plain.behind g = .plain → codeOf (g ++ y) = codeOf (g ++ x)
  unbroken : '\n' ∉ y ∧ '\n' ∉ x

theorem closed_of_isClose (close : isClose line = true) : Quoting.plain.behind line = .plain := by
  obtain ⟨g, g', front, back, split⟩ := trim_split line
  rw [isClose_iff.mp close] at split
  rw [split, Quoting.behind_append, Quoting.behind_of_blank front, Quoting.behind_append]
  exact Quoting.behind_of_blank back

theorem exists_add_lines (h : Matches l l') (pair : Paired y x)
    (agree : Listing.isElse x = true → Agree l l') (blank : Blank indent) (inLine : '\n' ∉ indent) :
    ∃ g r r', (l.add indent y).lines = (g ++ y) :: r ∧ (l'.add indent x).lines = (g ++ x) :: r' ∧
      Quoting.plain.behind g = .plain ∧ '\n' ∉ g ∧ codeLines r = codeLines r' ∧
      (∀ line ∈ r ++ r', '\n' ∉ line) ∧ (Blank g ∨ Listing.isElse x = true) := by
  have deep : l.deep y = l'.deep x := by
    rw [Listing.deep, Listing.deep, pair.head, h.depth]
  rw [Listing.add_eq pair.visible.1, Listing.add_eq pair.visible.2]
  by_cases joins : Listing.isElse x = true ∧ (l.closes = true ∨ l'.closes = true)
  · obtain ⟨goesOn, closes⟩ := joins
    obtain ⟨line, r, r', first, second⟩ := agree goesOn closes
    have close : isClose line = true := by
      rw [Listing.closes, Listing.closes, first, second] at closes
      exact closes.elim id id
    have both := h.unbroken
    rw [first, second, List.forall_mem_append, List.forall_mem_cons, List.forall_mem_cons] at both
    have codes := h.codes
    rw [first, second, codeLines_cons line r, codeLines_cons line r', List.append_cancel_left_eq] at codes
    refine ⟨line ++ [' '], r, r', ?_, ?_, ?_, ?_, codes, ?_, .inr goesOn⟩
    · rw [first, Listing.joined?_of_else (pair.isElse.trans goesOn), if_pos close, List.append_assoc]
      rfl
    · rw [second, Listing.joined?_of_else goesOn, if_pos close, List.append_assoc]
      rfl
    · rw [Quoting.behind_append, closed_of_isClose close]
      rfl
    · rw [List.mem_append, not_or]
      exact ⟨both.1.1, by decide⟩
    · exact List.forall_mem_append.mpr ⟨both.1.2, both.2.2⟩
  · have apart : Listing.isElse x = true → l.closes = false ∧ l'.closes = false := by
      intro goesOn
      have none : ¬(l.closes = true ∨ l'.closes = true) := fun closes => joins ⟨goesOn, closes⟩
      rw [not_or, Bool.not_eq_true, Bool.not_eq_true] at none
      exact none
    have fresh : Listing.joined? l.lines y = none :=
      Listing.joined?_of_not fun goesOn => (apart (pair.isElse ▸ goesOn)).1
    have fresh' : Listing.joined? l'.lines x = none :=
      Listing.joined?_of_not fun goesOn => (apart goesOn).2
    have same : l.lead indent y = l'.lead indent x := by rw [Listing.lead, Listing.lead, deep]
    have white : Blank (l'.lead indent x) := Listing.blank_lead blank
    refine ⟨l'.lead indent x, l.lines, l'.lines, ?_, ?_, Quoting.behind_of_blank white,
      Listing.unbroken_lead _ _ inLine, h.codes, h.unbroken, .inl white⟩
    · rw [fresh, same]
      rfl
    · rw [fresh']
      rfl

theorem Matches.add (h : Matches l l') (pair : Paired y x) (agree : Listing.isElse x = true → Agree l l')
    (blank : Blank indent) (inLine : '\n' ∉ indent) :
    Matches (l.add indent y) (l'.add indent x) := by
  obtain ⟨g, r, r', first, second, closed, plain, codes, unbroken, -⟩ :=
    exists_add_lines h pair agree blank inLine
  refine ⟨?_, ?_, ?_⟩
  · rw [Listing.add_eq pair.visible.1, Listing.add_eq pair.visible.2]
    have deep : l.deep y = l'.deep x := by rw [Listing.deep, Listing.deep, pair.head, h.depth]
    show (if _ then _ else _) = if _ then _ else _
    rw [deep, pair.opens]
  · rw [first, second, codeLines_cons, codeLines_cons (g ++ x), codes,
      codeLines_of_codeOf (pair.code g closed)]
  · rw [first, second]
    have each {z : List Char} (none : '\n' ∉ z) : '\n' ∉ g ++ z := fun member =>
      (List.mem_append.mp member).elim plain none
    obtain ⟨one, two⟩ := List.forall_mem_append.mp unbroken
    exact List.forall_mem_append.mpr ⟨List.forall_mem_cons.mpr ⟨each pair.unbroken.1, one⟩,
      List.forall_mem_cons.mpr ⟨each pair.unbroken.2, two⟩⟩

theorem Paired.rfl' (visible : x ≠ []) (unbroken : '\n' ∉ x) : Paired x x :=
  ⟨⟨visible, visible⟩, rfl, rfl, rfl, fun _ _ => rfl, unbroken, unbroken⟩

theorem Commented.paired (h : Commented x t) (visible : x ≠ []) (unbroken : '\n' ∉ x) :
    Paired (x ++ t) x where
  visible := ⟨List.append_ne_nil_of_left_ne_nil visible t, visible⟩
  head := List.head?_append_of_ne_nil x visible
  opens := by rw [beq_eq_false_iff_ne.mpr h.opens.1, beq_eq_false_iff_ne.mpr h.opens.2]
  isElse := h.isElse
  code := h.code
  unbroken := ⟨fun member => (List.mem_append.mp member).elim unbroken h.unbroken, unbroken⟩

theorem mem_else (goesOn : Listing.isElse x = true) : 'e' ∈ x := by
  rcases isElse_iff.mp goesOn with rfl | ⟨r, rfl⟩
  · exact List.mem_cons_self
  · exact List.mem_cons_self

theorem of_isClose_line (close : isClose (g ++ x) = true) (kind : Blank g ∨ Listing.isElse x = true) :
    trim x = [closeBrace] := by
  rcases kind with blank | goesOn
  · rw [isClose_iff, trim_lead blank] at close
    exact close
  · rw [not_isClose (List.mem_append_right g (mem_else goesOn)) (by decide) (by decide)] at close
    cases close

theorem Matches.same (h : Matches l l') (visible : x ≠ []) (unbroken : '\n' ∉ x)
    (agree : Listing.isElse x = true → Agree l l') (blank : Blank indent) (inLine : '\n' ∉ indent) :
    Matches (l.add indent x) (l'.add indent x) ∧ Agree (l.add indent x) (l'.add indent x) ∧
      ((l'.add indent x).closes = true → trim x = [closeBrace]) := by
  have pair := Paired.rfl' visible unbroken
  obtain ⟨g, r, r', first, second, -, -, -, -, kind⟩ := exists_add_lines h pair agree blank inLine
  refine ⟨h.add pair agree blank inLine, fun _ => ⟨_, r, r', first, second⟩, fun closes => ?_⟩
  rw [Listing.closes, second] at closes
  exact of_isClose_line closes kind

theorem Matches.behind (h : Matches l l') (commented : Commented x t) (visible : x ≠ [])
    (unbroken : '\n' ∉ x) (agree : Listing.isElse x = true → Agree l l') (blank : Blank indent)
    (inLine : '\n' ∉ indent) :
    Matches (l.add indent (x ++ t)) (l'.add indent x) ∧ (l.add indent (x ++ t)).closes = false ∧
      ((l'.add indent x).closes = true → trim x = [closeBrace]) := by
  have pair := commented.paired visible unbroken
  obtain ⟨g, r, r', first, second, -, -, -, -, kind⟩ := exists_add_lines h pair agree blank inLine
  refine ⟨h.add pair agree blank inLine, ?_, fun closes => ?_⟩
  · have slash : '/' ∈ g ++ (x ++ t) := List.mem_append_right g (List.mem_append_right x commented.slash)
    rw [Listing.closes, first]
    exact not_isClose slash (by decide) (by decide)
  · rw [Listing.closes, second] at closes
    exact of_isClose_line closes kind

theorem Matches.apart (h : Matches l l') (white : Blank g) (plain : '\n' ∉ g)
    (quiet : Quiet note) (blank : Blank indent) (inLine : '\n' ∉ indent) :
    Matches (l.add indent (g ++ '/' :: '/' :: note)) l' ∧
      (l.add indent (g ++ '/' :: '/' :: note)).closes = false := by
  have visible : g ++ '/' :: '/' :: note ≠ [] := by simp
  have stops : ∀ c ∈ (g ++ '/' :: '/' :: note).head?, isBlank c = true ∨ c = '/' := by
    intro c head
    cases g with
    | nil => exact .inr (Option.some.inj head).symm
    | cons d g => exact .inl (white c (Option.some.inj head ▸ List.mem_cons_self))
  have fresh : Listing.isElse (g ++ '/' :: '/' :: note) = false := by
    rw [Bool.eq_false_iff, ne_eq, isElse_iff]
    have first {r : List Char} (whole : g ++ '/' :: '/' :: note = 'e' :: r) : False := by
      rcases stops 'e' (by rw [whole]; rfl) with blank | same
      · cases blank
      · exact absurd same (by decide)
    rintro (whole | ⟨r, whole⟩)
    · exact first whole
    · exact first whole
  have head : ((g ++ '/' :: '/' :: note).head? == some closeBrace) = false := by
    rw [beq_eq_false_iff_ne]
    intro head
    rcases stops _ head with blank | same
    · cases blank
    · exact absurd same (by decide)
  have last : ((g ++ '/' :: '/' :: note).getLast? == some openBrace) = false :=
    beq_eq_false_iff_ne.mpr (last_of_comment quiet g)
  have deep : l.deep (g ++ '/' :: '/' :: note) = l.depth := by rw [Listing.deep, head]; rfl
  have slash : '/' ∈ l.lead indent (g ++ '/' :: '/' :: note) ++ (g ++ '/' :: '/' :: note) := by simp
  have front : Blank (l.lead indent (g ++ '/' :: '/' :: note)) := Listing.blank_lead blank
  have unbroken := Listing.unbroken_lead l (g ++ '/' :: '/' :: note) inLine
  rw [Listing.add_eq visible, last, deep,
    Listing.joined?_of_not (fun goesOn => by rw [fresh] at goesOn; cases goesOn)]
  generalize l.lead indent (g ++ '/' :: '/' :: note) = lead at *
  refine ⟨⟨h.depth, ?_, ?_⟩, ?_⟩
  · show codeLines ((lead ++ (g ++ '/' :: '/' :: note)) :: l.lines) = _
    rw [codeLines_cons, codeLines_of_nil, List.nil_append, h.codes]
    rw [← List.append_assoc]
    exact codeOf_note (front.append white) note
  · obtain ⟨one, two⟩ := List.forall_mem_append.mp h.unbroken
    refine List.forall_mem_append.mpr ⟨List.forall_mem_cons.mpr ⟨?_, one⟩, two⟩
    simp only [List.mem_append, List.mem_cons, not_or]
    exact ⟨unbroken, plain, by decide, by decide, quiet.unbroken⟩
  · exact not_isClose slash (by decide) (by decide)

variable {us vs : List (List Char)} {last : List Char}

/-- Units with comments and the same units without them; `last` is the unit in front. No comment that stands
apart comes between a closing brace and what goes on from it. -/
inductive Annotated : List Char → List (List Char) → List (List Char) → Prop
  | nil {last : List Char} : Annotated last [] []
  | same {last u : List Char} {us vs : List (List Char)} (unit : IsUnit u) (unbroken : '\n' ∉ u)
    (later : Annotated u us vs) : Annotated last (u :: us) (u :: vs)
  | apart {last note : List Char} {us vs : List (List Char)} (quiet : Quiet note)
    (parted : last = [closeBrace] → ∀ v ∈ vs.head?, Listing.isElse (tidy v) = false)
    (later : Annotated last us vs) : Annotated last (('/' :: '/' :: note) :: us) vs
  | behind {last u g note : List Char} {us vs : List (List Char)} (piece : Trailed u g) (unbroken : '\n' ∉ u)
    (tail : IsTail g note) (blank : Blank g) (word : ¬EndsElse (u ++ g)) (later : Annotated u us vs) :
    Annotated last ((u ++ (g ++ '/' :: '/' :: note)) :: us) (u :: vs)

theorem unbroken_tidy (h : IsUnit u) (unbroken : '\n' ∉ u) : '\n' ∉ tidy u :=
  (exists_tidy_alike h.trimmed unbroken).elim fun _ facts => facts.2.1

theorem Annotated.matches (h : Annotated last us vs) (both : Matches l l')
    (next : ∀ v ∈ vs.head?, Listing.isElse (tidy v) = true → Agree l l')
    (ends : l'.closes = true → last = [closeBrace]) (blank : Blank indent) (inLine : '\n' ∉ indent) :
    Matches ((us.map tidy).foldl (Listing.add indent) l)
      ((vs.map tidy).foldl (Listing.add indent) l') := by
  -- The listings grow together; `ends` says that the second one closes only behind a closing brace.
  induction h generalizing l l' with
  | nil => exact both
  | @same last u us vs unit unbroken later ih =>
    obtain ⟨after, agree, close⟩ := both.same (unit.tidy_ne_nil unbroken) (unbroken_tidy unit unbroken)
      (next u rfl) blank inLine
    rw [List.map_cons, List.map_cons, List.foldl_cons, List.foldl_cons]
    exact ih after (fun _ _ _ => agree) fun closes => unit.eq_close unbroken (close closes)
  | @apart last note us vs quiet parted later ih =>
    obtain ⟨g, note', white, quiet', plain, same⟩ := tidy_note quiet
    obtain ⟨after, open'⟩ := both.apart white plain quiet' blank inLine
    rw [List.map_cons, List.foldl_cons, same]
    refine ih after (fun v head goesOn closes => ?_) ends
    rw [open'] at closes
    have fresh := parted (ends (closes.resolve_left Bool.false_ne_true)) v head
    rw [fresh] at goesOn
    cases goesOn
  | @behind last u g note us vs piece unbroken tail white word later ih =>
    have unit : IsUnit u := .piece piece.trimmed piece.visible piece.whole
    obtain ⟨t, same, commented⟩ := piece.commented unbroken tail white word
    obtain ⟨after, open', close⟩ := both.behind commented (unit.tidy_ne_nil unbroken)
      (unbroken_tidy unit unbroken) (next u rfl) blank inLine
    have never (closes : (l'.add indent (tidy u)).closes = true) : u = [closeBrace] :=
      unit.eq_close unbroken (close closes)
    rw [List.map_cons, List.map_cons, List.foldl_cons, List.foldl_cons, same]
    refine ih after (fun _ _ _ closes => ?_) never
    rw [open'] at closes
    have whole := piece.whole
    rw [never (closes.resolve_left Bool.false_ne_true)] at whole
    cases whole.1 rfl

end Listings

end EmitterLogic.Tick
