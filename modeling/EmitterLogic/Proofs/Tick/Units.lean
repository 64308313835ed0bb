import EmitterLogic.Proofs.Tick.Layout
import EmitterLogic.Tick.Kotlin

/-!
The units of a text. Nothing is lost in them but blanks and the semicolons between them, and a unit
has no other unit than itself.
-/

namespace EmitterLogic.Tick

open Text

variable {s t g read rest : List Char} {q : Quoting} {c : Char} {hidden : Char → Bool}

namespace Quoting

/-- The quoting behind a text. -/
def behind (q : Quoting) (s : List Char) : Quoting := s.foldl after q

def Marked : Quoting → Prop
  | plain => True
  | within quote => Script.isQuote quote = true
  | escaped quote => Script.isQuote quote = true

theorem behind_append (q : Quoting) (s t : List Char) :
    q.behind (s ++ t) = (q.behind s).behind t := List.foldl_append

theorem after_of_blank (blank : isBlank c = true) : plain.after c = plain := by
  rw [after, if_neg (by rw [not_quote_of (p := isBlank) (by decide) blank]; exact Bool.false_ne_true)]

theorem behind_of_blank (blank : Blank g) : plain.behind g = plain := by
  induction g with
  | nil => rfl
  | cons c g ih =>
    rw [behind, List.foldl_cons, after_of_blank (blank c List.mem_cons_self)]
    exact ih fun d member => blank d (List.mem_cons_of_mem c member)

theorem Marked.after (h : q.Marked) (c : Char) : (q.after c).Marked := by
  cases q with
  | plain =>
    rw [Quoting.after]
    split
    · next quote => exact quote
    · exact trivial
  | within quote =>
    rw [Quoting.after]
    split
    · exact h
    · split
      · exact trivial
      · exact h
  | escaped quote => exact h

theorem marked_behind (s : List Char) : (plain.behind s).Marked := by
  have from_any (q : Quoting) (h : q.Marked) : (q.behind s).Marked := by
    induction s generalizing q with
    | nil => exact h
    | cons c s ih => exact ih (q.after c) (h.after c)
  exact from_any plain trivial

theorem Marked.plain_of_after (h : q.Marked) (other : Script.isQuote c = false)
    (closed : q.after c = plain) : q = plain := by
  cases q with
  | plain => rfl
  | escaped quote => cases closed
  | within quote =>
    have differs : (c == quote) = false := by
      rw [beq_eq_false_iff_ne]
      rintro rfl
      rw [Marked, other] at h
      cases h
    rw [Quoting.after, differs] at closed
    split at closed <;> cases closed

theorem Marked.plain_of_behind (h : q.Marked) (others : ∀ c ∈ g, Script.isQuote c = false)
    (closed : q.behind g = plain) : q = plain := by
  induction g generalizing q with
  | nil => exact closed
  | cons c g ih =>
    obtain ⟨first, rest⟩ := List.forall_mem_cons.mp others
    exact h.plain_of_after first (ih (h.after c) rest closed)

end Quoting

section Trimming

theorem trim_split (s : List Char) : ∃ g g', Blank g ∧ Blank g' ∧ s = g ++ (trim s ++ g') := by
  obtain ⟨g, blank, split, -⟩ := trimStart_split s
  obtain ⟨g', blank', split', -⟩ := trimStart_split (trimStart s).reverse
  refine ⟨g, g'.reverse, blank, fun c member => blank' c (List.mem_reverse.mp member), ?_⟩
  have ends : trim s ++ g'.reverse = trimStart s := by
    rw [← List.reverse_reverse (trimStart s), split', List.reverse_append]
    rfl
  rw [ends]
  exact split

theorem behind_trim (closed : Quoting.plain.behind s = .plain) :
    Quoting.plain.behind (trim s) = .plain := by
  obtain ⟨g, g', blank, blank', split⟩ := trim_split s
  have marked : (Quoting.plain.behind (trim s)).Marked := Quoting.marked_behind (trim s)
  refine marked.plain_of_behind (fun c member => not_quote_of (by decide) (blank' c member)) ?_
  rw [split, Quoting.behind_append, Quoting.behind_of_blank blank, Quoting.behind_append] at closed
  exact closed

end Trimming

section Losses

/-- Is a character left out of a text: outside of its quotes a blank or a semicolon, and within them
what `hidden` says? -/
def leftOut (hidden : Char → Bool) (q : Quoting) (c : Char) : Bool :=
  if q = .plain then isBlank c || c == ';' else hidden c

/-- What stays of a text behind a quoting. -/
def condensed (hidden : Char → Bool) : Quoting → List Char → List Char
  | _, [] => []
  | q, c :: rest =>
    let stays := condensed hidden (q.after c) rest
    if leftOut hidden q c then stays else c :: stays

theorem condensed_append (q : Quoting) (s t : List Char) :
    condensed hidden q (s ++ t) = condensed hidden q s ++ condensed hidden (q.behind s) t := by
  induction s generalizing q with
  | nil => rfl
  | cons c s ih =>
    rw [List.cons_append, condensed, condensed, ih]
    split
    · rfl
    · rfl

theorem condensed_blank (blank : Blank g)
    (out : q = .plain ∨ ∀ c, isBlank c = true → hidden c = true) : condensed hidden q g = [] := by
  induction g generalizing q with
  | nil => rfl
  | cons c g ih =>
    have first := blank c List.mem_cons_self
    have others : Blank g := fun d member => blank d (List.mem_cons_of_mem c member)
    by_cases outside : q = .plain
    · subst outside
      rw [condensed, leftOut, if_pos rfl, first, Bool.true_or, if_pos rfl,
        Quoting.after_of_blank first]
      exact ih others (.inl rfl)
    · have hides := out.resolve_left outside
      rw [condensed, leftOut, if_neg outside, hides c first, if_pos rfl]
      exact ih others (.inr hides)

theorem condensed_trim
    (out : Quoting.plain.behind s = .plain ∨ ∀ c, isBlank c = true → hidden c = true) :
    condensed hidden .plain (trim s) = condensed hidden .plain s := by
  obtain ⟨g, g', blank, blank', split⟩ := trim_split s
  have ends : condensed hidden (Quoting.plain.behind (trim s)) g' = [] :=
    condensed_blank blank' (out.imp_left behind_trim)
  have whole : condensed hidden .plain s = condensed hidden .plain (g ++ (trim s ++ g')) :=
    congrArg _ split
  rw [whole, condensed_append, condensed_blank blank (.inl rfl), Quoting.behind_of_blank blank,
    condensed_append, ends, List.append_nil, List.nil_append]

theorem condensed_closed (closed : Quoting.plain.behind s = .plain) (t : List Char) :
    condensed hidden .plain (s ++ t) = condensed hidden .plain s ++ condensed hidden .plain t := by
  rw [condensed_append, closed]

end Losses

section Divisions

/-- Does a unit end at a character that stands outside of quotes? -/
def divides (c : Char) : Bool := c == openBrace || c == closeBrace || c == ';' || c == '\n'

theorem after_divided {c : Char} (ends : divides c = true) : Quoting.plain.after c = .plain := by
  simp only [divides, Bool.or_eq_true, beq_iff_eq, or_assoc] at ends
  rcases ends with rfl | rfl | rfl | rfl <;> rfl

def Undivided : Quoting → List Char → Prop
  | _, [] => True
  | q, c :: rest => (q = .plain → divides c = false) ∧ Undivided (q.after c) rest

theorem on_or_divided (q : Quoting) (c : Char) : (q = .plain → divides c = false) ∨
    q = .plain ∧ (c = openBrace ∨ c = closeBrace ∨ c = ';' ∨ c = '\n') := by
  cases ends : divides c with
  | false => exact .inl fun _ => rfl
  | true =>
    rw [divides, Bool.or_eq_true, Bool.or_eq_true, Bool.or_eq_true] at ends
    simp only [beq_iff_eq, or_assoc] at ends
    exact (Classical.em (q = .plain)).elim (fun outside => .inr ⟨outside, ends⟩)
      fun inside => .inl fun outside => absurd outside inside

theorem undivided_append :
    Undivided q (s ++ t) ↔ Undivided q s ∧ Undivided (q.behind s) t := by
  induction s generalizing q with
  | nil => exact (iff_of_eq (true_and _)).symm
  | cons c s ih =>
    rw [List.cons_append, Undivided, Undivided, ih, and_assoc]
    rfl

theorem Undivided.trim (h : Undivided .plain s) : Undivided .plain (trim s) := by
  obtain ⟨g, g', blank, -, split⟩ := trim_split s
  rw [split, undivided_append, Quoting.behind_of_blank blank, undivided_append] at h
  exact h.2.1

theorem unitOf_flatten (read : List Char) : (unitOf read).flatten = trim read.reverse := by
  rw [unitOf]
  split
  · next none => exact (List.isEmpty_iff.mp none).symm
  · exact List.append_nil _

theorem condensed_unitOf (closed : Quoting.plain.behind read.reverse = .plain) (t : List Char) :
    condensed hidden .plain ((unitOf read).flatten ++ t) =
      condensed hidden .plain read.reverse ++ condensed hidden .plain t := by
  rw [unitOf_flatten, condensed_closed (behind_trim closed), condensed_trim (.inl closed)]

theorem mem_unitOf {u : List Char} (h : u ∈ unitOf read) : u = trim read.reverse ∧ u ≠ [] := by
  rw [unitOf] at h
  split at h
  · cases h
  · next some =>
    obtain rfl := List.mem_singleton.mp h
    exact ⟨rfl, fun none => some (List.isEmpty_iff.mpr none)⟩

theorem unitOf_eq {u : List Char} (h : trim read.reverse = u) (some : u ≠ []) :
    unitOf read = [u] := by
  rw [unitOf, h, if_neg (fun none => some (List.isEmpty_iff.mp none))]

theorem unitsFrom_end (q : Quoting) (read : List Char) : unitsFrom q read [] = unitOf read := by
  cases q <;> rfl

theorem unitsFrom_open (read rest : List Char) :
    unitsFrom .plain read (openBrace :: rest) =
      unitOf (openBrace :: read) ++ unitsFrom .plain [] rest := rfl

theorem unitsFrom_close (read rest : List Char) :
    unitsFrom .plain read (closeBrace :: rest) =
      unitOf read ++ [closeBrace] :: unitsFrom .plain [] rest := rfl

theorem unitsFrom_separator (h : c = ';' ∨ c = '\n') (read rest : List Char) :
    unitsFrom .plain read (c :: rest) = unitOf read ++ unitsFrom .plain [] rest := by
  rcases h with rfl | rfl
  · rfl
  · rfl

theorem unitsFrom_on (h : q = .plain → divides c = false) (read rest : List Char) :
    unitsFrom q read (c :: rest) = unitsFrom (q.after c) (c :: read) rest := by
  cases q with
  | plain =>
    have none := h rfl
    rw [divides, Bool.or_eq_false_iff, Bool.or_eq_false_iff, Bool.or_eq_false_iff] at none
    obtain ⟨⟨⟨opens, closes⟩, semicolon⟩, newline⟩ := none
    rw [unitsFrom, opens, closes, semicolon, newline]
    rfl
  | within quote => rfl
  | escaped quote => rfl

theorem unitsFrom_undivided (h : Undivided q s) (read rest : List Char) :
    unitsFrom q read (s ++ rest) = unitsFrom (q.behind s) (s.reverse ++ read) rest := by
  induction s generalizing q read with
  | nil => rfl
  | cons c s ih =>
    rw [List.cons_append, unitsFrom_on h.1, ih h.2, List.reverse_cons, List.append_assoc]
    rfl

end Divisions

theorem unitsFrom_condensed (before : Quoting.plain.behind read.reverse = q)
    (out : Quoting.plain.behind (read.reverse ++ rest) = .plain ∨
      ∀ c, isBlank c = true → hidden c = true) :
    condensed hidden .plain (unitsFrom q read rest).flatten =
      condensed hidden .plain (read.reverse ++ rest) := by
  -- What has been read goes with the rest: a unit that ends is put back in front of what follows it.
  induction rest generalizing q read with
  | nil =>
    rw [List.append_nil] at out
    rw [unitsFrom_end, unitOf_flatten, List.append_nil, condensed_trim out]
  | cons c rest ih =>
    rcases on_or_divided q c with on | ⟨rfl, ends⟩
    · have next : Quoting.plain.behind (c :: read).reverse = q.after c := by
        rw [List.reverse_cons, Quoting.behind_append, before]
        rfl
      have split : read.reverse ++ c :: rest = (c :: read).reverse ++ rest := by
        rw [List.reverse_cons, List.append_assoc, List.singleton_append]
      rw [split] at out ⊢
      rw [unitsFrom_on on]
      exact ih next out
    · -- Each unit that ends here leaves all quotes closed, and what comes next starts afresh.
      have plainly : Quoting.plain.after c = .plain := by
        rcases ends with rfl | rfl | rfl | rfl <;> rfl
      have later : Quoting.plain.behind rest = .plain ∨ ∀ c, isBlank c = true → hidden c = true := by
        refine out.imp_left fun closed => ?_
        rw [Quoting.behind_append, before, Quoting.behind, List.foldl_cons, plainly] at closed
        exact closed
      have others : condensed hidden .plain (unitsFrom .plain [] rest).flatten =
          condensed hidden .plain rest := ih rfl later
      rcases ends with rfl | rfl | separator
      · have closed : Quoting.plain.behind (openBrace :: read).reverse = .plain := by
          rw [List.reverse_cons, Quoting.behind_append, before]
          rfl
        have split : read.reverse ++ openBrace :: rest = (openBrace :: read).reverse ++ rest := by
          rw [List.reverse_cons, List.append_assoc, List.singleton_append]
        rw [unitsFrom_open, List.flatten_append, condensed_unitOf closed, others, split,
          condensed_closed closed]
      · have brace : condensed hidden .plain (closeBrace :: rest) =
            condensed hidden .plain [closeBrace] ++ condensed hidden .plain rest :=
          condensed_closed (s := [closeBrace]) rfl rest
        have pieces : condensed hidden .plain
            ([closeBrace] ++ (unitsFrom .plain [] rest).flatten) =
              condensed hidden .plain [closeBrace] ++ condensed hidden .plain rest := by
          rw [condensed_closed rfl, others]
        rw [unitsFrom_close, List.flatten_append, condensed_unitOf before, List.flatten_cons, pieces,
          condensed_closed before, brace]
      · have between : condensed hidden .plain (c :: rest) = condensed hidden .plain rest := by
          rw [condensed, plainly]
          rcases separator with rfl | rfl <;> rfl
        rw [unitsFrom_separator separator, List.flatten_append, condensed_unitOf before, others,
          condensed_closed before, between]

section Shape

/-- What a unit is: a closing brace, or a piece between blanks that no unit ends in, perhaps with an
opening brace behind it. -/
inductive IsUnit : List Char → Prop where
  | close : IsUnit [closeBrace]
  | piece {u : List Char} (trimmed : trim u = u) (some : u ≠ []) (whole : Undivided .plain u) :
    IsUnit u
  | opening {u : List Char} (trimmed : trim (u ++ [openBrace]) = u ++ [openBrace])
    (whole : Undivided .plain u) (closed : Quoting.plain.behind u = .plain) :
    IsUnit (u ++ [openBrace])

theorem IsUnit.of_unitOf {u : List Char} (whole : Undivided .plain read.reverse)
    (h : u ∈ unitOf read) : IsUnit u := by
  obtain ⟨rfl, some⟩ := mem_unitOf h
  exact .piece (trim_trim _) some whole.trim

theorem IsUnit.of_opening {u : List Char} (whole : Undivided .plain read.reverse)
    (closed : Quoting.plain.behind read.reverse = .plain) (h : u ∈ unitOf (openBrace :: read)) :
    IsUnit u := by
  obtain ⟨rfl, -⟩ := mem_unitOf h
  obtain ⟨g, blank, split, shown⟩ := trimStart_split read.reverse
  have first : ∀ c ∈ (trimStart read.reverse ++ [openBrace]).head?, isBlank c = false := by
    cases left : trimStart read.reverse with
    | nil =>
      rintro c ⟨⟩
      decide
    | cons d rest =>
      rintro c ⟨⟩
      exact shown d (by rw [left]; rfl)
  have last : ∀ c ∈ (trimStart read.reverse ++ [openBrace]).getLast?, isBlank c = false := by
    rw [List.getLast?_append]
    rintro c ⟨⟩
    decide
  have cut : trim (openBrace :: read).reverse = trimStart read.reverse ++ [openBrace] := by
    have padded := trim_padded blank (List.forall_mem_nil _) first last
    rwa [List.append_nil, ← List.append_assoc, ← split, ← List.reverse_cons] at padded
  rw [split, undivided_append, Quoting.behind_of_blank blank] at whole
  rw [split, Quoting.behind_append, Quoting.behind_of_blank blank] at closed
  rw [cut]
  exact .opening (trim_of_ends first last) whole.2 closed

theorem IsUnit.of_mem {u : List Char} (before : Quoting.plain.behind read.reverse = q)
    (whole : Undivided .plain read.reverse) (h : u ∈ unitsFrom q read rest) : IsUnit u := by
  induction rest generalizing q read with
  | nil =>
    rw [unitsFrom_end] at h
    exact .of_unitOf whole h
  | cons c rest ih =>
    rcases on_or_divided q c with on | ⟨rfl, ends⟩
    · rw [unitsFrom_on on] at h
      refine ih ?_ ?_ h
      · rw [List.reverse_cons, Quoting.behind_append, before]
        rfl
      · rw [List.reverse_cons, undivided_append, before]
        exact ⟨whole, on, trivial⟩
    · have fresh : Undivided .plain ([] : List Char).reverse := trivial
      have later (h : u ∈ unitsFrom .plain [] rest) : IsUnit u := ih rfl fresh h
      rcases ends with rfl | rfl | separator
      · rw [unitsFrom_open] at h
        exact (List.mem_append.mp h).elim (.of_opening whole before) later
      · rw [unitsFrom_close] at h
        rcases List.mem_append.mp h with here | next
        · exact .of_unitOf whole here
        · rcases List.mem_cons.mp next with rfl | next
          · exact .close
          · exact later next
      · rw [unitsFrom_separator separator] at h
        exact (List.mem_append.mp h).elim (.of_unitOf whole) later

theorem IsUnit.units {u : List Char} (h : IsUnit u) : units u = [u] := by
  cases h with
  | close => rfl
  | piece trimmed some whole =>
    have read := unitsFrom_undivided whole [] []
    rw [List.append_nil, List.append_nil, unitsFrom_end] at read
    rw [Tick.units, read]
    exact unitOf_eq (by rw [List.reverse_reverse, trimmed]) some
  | opening trimmed whole closed =>
    rename_i u
    rw [Tick.units, unitsFrom_undivided whole [] [openBrace], closed, unitsFrom_open,
      unitsFrom_end, List.append_nil]
    have none : unitOf [] = [] := rfl
    rw [none, List.append_nil]
    refine unitOf_eq ?_ (by simp)
    rw [List.reverse_cons, List.reverse_reverse, trimmed]

theorem IsUnit.outside {before after : List Char} (h : IsUnit (before ++ c :: after))
    (outside : Quoting.plain.behind before = .plain) :
    c ≠ ';' ∧ c ≠ '\n' ∧ (c = closeBrace → before ++ c :: after = [closeBrace]) ∧
      (c = openBrace → after = []) := by
  have of_whole {u rest : List Char} (whole : Undivided .plain u) (split : u = before ++ c :: rest) :
      divides c = false := by
    rw [split, undivided_append] at whole
    exact whole.2.1 outside
  have of_plain (plain : divides c = false) : c ≠ ';' ∧ c ≠ '\n' ∧ c ≠ closeBrace ∧ c ≠ openBrace := by
    refine ⟨?_, ?_, ?_, ?_⟩ <;> rintro rfl <;> cases plain
  generalize e : before ++ c :: after = u at h
  cases h with
  | close =>
    obtain ⟨rfl, rfl, rfl⟩ : before = [] ∧ c = closeBrace ∧ after = [] := by
      cases before with
      | nil => simpa using e
      | cons d before => simp at e
    exact ⟨by decide, by decide, fun _ => rfl, fun same => by cases same⟩
  | piece trimmed some whole =>
    obtain ⟨semicolon, newline, closing, opening⟩ := of_plain (of_whole whole e.symm)
    exact ⟨semicolon, newline, fun same => absurd same closing, fun same => absurd same opening⟩
  | opening trimmed whole closed =>
    rcases List.eq_nil_or_concat after with rfl | ⟨rest, d, rfl⟩
    · obtain ⟨rfl, same⟩ := List.append_inj' e rfl
      obtain rfl : c = openBrace := List.head_eq_of_cons_eq same
      exact ⟨by decide, by decide, nofun, fun _ => rfl⟩
    · rw [List.concat_eq_append, ← List.cons_append, ← List.append_assoc] at e
      obtain ⟨inner, -⟩ := List.append_inj' e rfl
      obtain ⟨semicolon, newline, closing, opening⟩ := of_plain (of_whole whole inner.symm)
      exact ⟨semicolon, newline, fun same => absurd same closing, fun same => absurd same opening⟩

end Shape

/-- The units of a text hold all of it but the blanks and the semicolons outside of quotes; in a text
that leaves no quote open even the blanks within quotes stay. Each unit is the only unit of itself: of
the characters outside of quotes none is a semicolon or a line break, a closing brace stands alone and
an opening one at the end. -/
theorem units_lossless_stable (s : List Char) :
    condensed isBlank .plain (units s).flatten = condensed isBlank .plain s ∧
    (Quoting.plain.behind s = .plain →
      condensed (fun _ => false) .plain (units s).flatten = condensed (fun _ => false) .plain s) ∧
    ∀ u ∈ units s, units u = [u] ∧
      ∀ before c after, u = before ++ c :: after → Quoting.plain.behind before = .plain →
        c ≠ ';' ∧ c ≠ '\n' ∧ (c = closeBrace → u = [closeBrace]) ∧ (c = openBrace → after = []) := by
  refine ⟨?_, fun closed => ?_, fun u member => ?_⟩
  · exact unitsFrom_condensed rfl (.inr fun _ blank => blank)
  · exact unitsFrom_condensed rfl (.inl closed)
  · have fresh : Undivided .plain ([] : List Char).reverse := trivial
    have shape : IsUnit u := .of_mem rfl fresh member
    refine ⟨shape.units, ?_⟩
    rintro before c after rfl outside
    exact shape.outside outside

theorem units_lossless_stable_quoted :
    let s := "if (c) \x7b f(\"a; \\\"b\"); \x7d".toList
    let u := "f(\"a; \\\"b\")".toList
    Quoting.plain.behind s = .plain ∧
    condensed (fun _ => false) .plain (units s).flatten = condensed (fun _ => false) .plain s ∧
    u ∈ units s ∧ units u = [u] ∧ Quoting.plain.behind "f(\"a; \\\"b\"".toList = .plain ∧
    (')' = closeBrace → u = [closeBrace]) := by
  intro s u
  have closed : Quoting.plain.behind s = .plain := by decide
  have member : u ∈ units s := by decide
  obtain ⟨-, kept, each⟩ := units_lossless_stable s
  have outside : Quoting.plain.behind "f(\"a; \\\"b\"".toList = .plain := by decide
  obtain ⟨only, places⟩ := each u member
  exact ⟨closed, kept closed, member, only, outside, (places _ ')' [] rfl outside).2.2.1⟩

end EmitterLogic.Tick
