import EmitterLogic.Proofs.Script.Sites
import EmitterLogic.Proofs.Tick.Bound
import EmitterLogic.Proofs.Tick.Uses
import EmitterLogic.Proofs.Tick.Verdict

/-!
What an accepted script names: as far as its text shows names as they are parsed, each of them is known,
and each one that is called is a helper or bound in the script.
-/

namespace EmitterLogic.Tick

open Text Script Parser

/-- The first character from a place on that is neither a blank nor in a comment or a quoted text. -/
def nextSign (source : String) (place : Nat) : Option Char :=
  (trimStart ((blanked source.toList).drop place)).head?

section Verdicts

variable {text : String} {vars : List String} {c : Compiled} {program : Program}

theorem nameDefect?_eq_none_iff {source : List Char} : nameDefect? source vars = none ↔
    unknownName? vars source = none ∧
      forbiddenCall? (helperNames ++ boundNames source) source = none := by
  rw [nameDefect?]
  cases unknownName? vars source with
  | none => simp
  | some name => simp

theorem of_accepted (made : Compiled.ofText text vars = .ok c) (accepted : c.program? = some program) :
    parseProgram c.source = .ok program ∧ nameDefect? c.source.toList vars = none := by
  obtain ⟨same, looked⟩ := of_ofText_ok made
  have kept : c.verdict = .ok (some program) := by
    rw [Compiled.program?] at accepted
    split at accepted
    · cases accepted
    · next verdict => rw [verdict, accepted]
  rw [same]
  rw [kept] at looked
  by_cases visible : cleanSource text = ""
  · rw [verdict, visible] at looked
    cases looked
  · cases parsed : parseProgram (cleanSource text) with
    | error e =>
      rw [verdict, if_neg (by simpa using visible), parsed] at looked
      cases e <;> cases looked
    | ok other =>
      rw [verdict_of_parse visible parsed] at looked
      cases defect : nameDefect? (cleanSource text).toList vars with
      | none =>
        rw [defect] at looked
        cases looked
        exact ⟨rfl, rfl⟩
      | some d =>
        rw [defect] at looked
        cases looked

end Verdicts

section Names

variable {b tail : List Char} {ps a z : List Piece} {p : Piece} {fin : Token} {vars : List String}

theorem name_mem_sites {p : Piece} {id : String} {place : Nat} : .name id place ∈ p.sites ↔
    p.role = .value ∧ p.token.kind = .word id ∧ p.token.position = place := by
  rw [Piece.sites]
  constructor
  · intro member
    generalize tagged : p.role = role at member
    cases role with
    | value =>
      rw [roleSites] at member
      split at member
      · next w word =>
        rw [List.mem_singleton] at member
        cases member
        exact ⟨rfl, word, rfl⟩
      · cases member
    | binder kind =>
      rw [roleSites] at member
      split at member
      · rw [binderSite] at member
        split at member <;> simp at member
      · cases member
    | call _ => simp [roleSites] at member
    | _ => cases member
  · rintro ⟨role, word, rfl⟩
    simp [role, roleSites, word]

theorem Composed.exists_name (h : Composed b ps tail fin) {id : String} {place : Nat}
    (site : .name id place ∈ ps.flatMap Piece.sites) :
    ∃ a p z, ps = a ++ p :: z ∧ p.role = .value ∧ p.token.kind = .word id ∧
      place = (span a ++ p.gap).length ∧ b.drop (place + id.length) = span z ++ tail := by
  obtain ⟨p, member, there⟩ := List.mem_flatMap.mp site
  obtain ⟨role, word, rfl⟩ := name_mem_sites.mp there
  obtain ⟨a, z, whole⟩ := List.append_of_mem member
  have fits := h.fits a p z whole
  have here : p.token.position = (span a ++ p.gap).length := by
    rw [fits.place, List.length_append]
    omega
  refine ⟨a, p, z, whole, role, word, here, ?_⟩
  rw [here, h.split whole, (fits.word word).1, ← String.length_toList, ← List.append_assoc,
    ← List.length_append, List.drop_left]

theorem boundNames_blanked {s : List Char} (settled : blanked (blanked s) = blanked s) :
    boundNames (blanked s) = boundNames s := by
  rw [boundNames, boundNames, settled]

theorem known_of_use {source : List Char} (twice : blanked (blanked source) = blanked source)
    (none : unknownName? vars source = none) {u : Use} (read : u ∈ readings useAt (blanked source))
    (value : u.isValue = true) :
    u.name ∈ keywords ∨ u.name ∈ globalNames ∨ u.name ∈ vars ∨ u.name ∈ boundNames source := by
  rw [unknownName?] at none
  have known := List.find?_eq_none.mp (Option.map_eq_none_iff.mp none) u read
  rw [boundNames_blanked twice] at known
  simpa [value, or_assoc, imp_iff_not_or] using known

theorem callable_of_found {source : List Char} {known : List String}
    (none : forbiddenCall? known source = none) {q n : Nat} {v : List Char}
    (found : (q, n, v) ∈ findAll calleeAt (blanked source))
    (unheaded : isHeaded (blanked source) q = false) :
    isCallable known (String.ofList v) = true := by
  have fine := List.find?_eq_none.mp none (String.ofList v) (by
    rw [callees, List.mem_map]
    refine ⟨(q, n, v), List.mem_filter.mpr ⟨found, ?_⟩, rfl⟩
    dsimp only
    rw [unheaded]
    rfl)
  simpa using fine

theorem headWords_reserved : ∀ w ∈ headWords, isReserved w = true := by decide

theorem helperNames_global {id : String} (h : id ∈ helperNames) : id ∈ globalNames :=
  List.mem_append_right _ h

theorem no_point_of_isName {id : String} (name : isName id = true) :
    id.toList.contains '.' = false := by
  rw [Bool.eq_false_iff]
  intro point
  have part := mem_isNameChars name '.' (by simpa using point)
  exact absurd part (by decide)

theorem Composed.callee_known {source : List Char} (h : Composed (blanked source) ps tail fin)
    {id : String} (whole : ps = a ++ p :: z) (role : p.role = .value)
    (kind : p.token.kind = .word id) (name : isName id = true)
    (next : (trimStart (span z ++ tail)).head? = some '(')
    (unheaded : isHeaded (blanked source) (span a ++ p.gap).length = false)
    (none : forbiddenCall? (helperNames ++ boundNames source) source = none) :
    id ∈ helperNames ∨ id ∈ boundNames source := by
  obtain ⟨g, blank, text, shown⟩ := trimStart_split (span z ++ tail)
  obtain ⟨t, opened⟩ : ∃ t, trimStart (span z ++ tail) = '(' :: t := List.head?_eq_some_iff.mp next
  rw [opened] at text shown
  have found := h.callee_found whole kind name (h.no_point whole kind (by rw [role]; exact nofun))
    (.inl rfl) blank (m := []) text
  have fine := callable_of_found none found unheaded
  rw [List.append_nil, String.ofList_toList, isCallable, no_point_of_isName name] at fine
  have suits := h.suits whole
  rw [role] at suits
  obtain ⟨_, w, kind', alone⟩ := suits
  obtain rfl : id = w := TokenKind.word.inj (kind.symm.trans kind')
  -- A name before a parenthesis is not reserved, so that it is none of the words of heads.
  have unreserved : isReserved id = false := by
    rw [Bool.eq_false_iff]
    intro reserved
    have clash {m : Mark} (spell : m.text.toList.head? ≠ some '(')
        (mark : (front (z.map (·.token) ++ [fin])).isMark m = true) : False := by
      obtain ⟨rest, same⟩ := h.next_mark (a := a ++ [p]) (by rw [whole, List.append_assoc]; rfl)
        text blank shown (List.cons_ne_nil _ _) mark
      refine spell ?_
      cases spelled : m.text.toList with
      | nil => cases m <;> cases spelled
      | cons d ds =>
        rw [spelled] at same
        rw [(List.cons.inj same).1]
        rfl
    rcases alone reserved with comma | brace
    · exact clash (by decide) comma
    · exact clash (by decide) brace
  have headless : id ∉ headWords := fun head => by
    have reserved := headWords_reserved id head
    rw [unreserved] at reserved
    cases reserved
  simpa [headless] using fine

end Names

def usesName (program : Program) (id : String) (place : Nat) : Bool :=
  program.sites.any fun
    | .name id' place' => id' == id && place' == place
    | _ => false

def callsName (program : Program) (id : String) (place : Nat) : Bool :=
  program.sites.any fun
    | .call (.name id' place') => id' == id && place' == place
    | _ => false

/-- Does a program bind a name? -/
def bindsName (program : Program) (name : String) : Bool :=
  program.sites.any fun
    | .binder _ name' => name' == name
    | _ => false

theorem usesName_iff {program : Program} {id : String} {place : Nat} :
    usesName program id place = true ↔ .name id place ∈ program.sites := by
  rw [usesName, List.any_eq_true]
  constructor
  · rintro ⟨site, member, found⟩
    cases site with
    | name id' place' =>
      rw [Bool.and_eq_true, beq_iff_eq, beq_iff_eq] at found
      rwa [found.1, found.2] at member
    | _ => cases found
  · exact fun member => ⟨_, member, by simp⟩

theorem callsName_iff {program : Program} {id : String} {place : Nat} :
    callsName program id place = true ↔ .call (.name id place) ∈ program.sites := by
  rw [callsName, List.any_eq_true]
  constructor
  · rintro ⟨site, member, found⟩
    split at found
    · next id' place' =>
      rw [Bool.and_eq_true, beq_iff_eq, beq_iff_eq] at found
      rwa [found.1, found.2] at member
    · cases found
  · exact fun member => ⟨_, member, by simp⟩

theorem bindsName_iff {program : Program} {name : String} :
    bindsName program name = true ↔ ∃ kind, .binder kind name ∈ program.sites := by
  rw [bindsName, List.any_eq_true]
  constructor
  · rintro ⟨site, member, found⟩
    cases site with
    | binder kind name' => exact ⟨kind, by rwa [beq_iff_eq.mp found] at member⟩
    | _ => cases found
  · rintro ⟨kind, member⟩
    exact ⟨_, member, beq_self_eq_true name⟩

section Accepted

variable {text : String} {vars : List String} {c : Compiled} {program : Program}

/-- In an exact script that is accepted each plain name is known, if it is no keyword and no colon
follows it, and each name that is called is a helper or bound. -/
theorem accepted_known (made : Compiled.ofText text vars = .ok c)
    (accepted : c.program? = some program) (exact : isExact c.source = true) :
    (∀ id place, .name id place ∈ program.sites → isPlain id = true → id ∉ keywords →
      nextSign c.source (place + id.length) ≠ some ':' →
      (nextSign c.source (place + id.length) = some '(' →
        isHeaded (blanked c.source.toList) place = false) →
      id ∈ globalNames ∨ id ∈ vars ∨ ∃ kind, .binder kind id ∈ program.sites) ∧
    ∀ id place, .call (.name id place) ∈ program.sites → isName id = true →
      nextSign c.source (place + id.length) = some '(' →
      isHeaded (blanked c.source.toList) place = false →
      id ∈ helperNames ∨ ∃ kind, .binder kind id ∈ program.sites := by
  obtain ⟨parsed, sound⟩ := of_accepted made accepted
  obtain ⟨known, callable⟩ := nameDefect?_eq_none_iff.mp sound
  have regular : isRegular c.source = true := by
    rw [isExact, Bool.and_eq_true] at exact
    exact exact.1
  obtain ⟨ps, tail, fin, composed, r, sites, read⟩ := exists_regular parsed regular
  have bound {id : String} (shown : id ∈ boundNames c.source.toList) :
      ∃ kind, .binder kind id ∈ program.sites := binder_of_mem_boundNames parsed exact shown
  have called {id : String} {place : Nat} (site : .name id place ∈ program.sites)
      (name : isName id = true) (next : nextSign c.source (place + id.length) = some '(')
      (unheaded : isHeaded (blanked c.source.toList) place = false) :
      id ∈ helperNames ∨ ∃ kind, .binder kind id ∈ program.sites := by
    rw [sites] at site
    obtain ⟨a, p, z, whole, role, kind, rfl, rest⟩ := composed.exists_name site
    rw [nextSign, rest] at next
    exact (composed.callee_known whole role kind name next unheaded callable).imp_right bound
  refine ⟨fun id place site plain free colon headed => ?_, fun id place site name next unheaded =>
    called (program.closed _ site _ List.mem_cons_self) name next unheaded⟩
  by_cases next : nextSign c.source (place + id.length) = some '('
  · rcases called site (isName_of_isPlain plain) next (headed next) with helper | binder
    · exact .inl (helperNames_global helper)
    · exact .inr (.inr binder)
  · have site' := site
    rw [sites] at site'
    obtain ⟨a, p, z, whole, role, kind, rfl, rest⟩ := composed.exists_name site'
    rw [nextSign, rest] at next colon
    have pointless := composed.no_point whole kind (by rw [role]; rintro ⟨⟩)
    have value : (⟨id, (span a ++ p.gap).getLast?, (trimStart (span z ++ tail)).head?⟩ : Use).isValue =
        true := by
      rw [Use.isValue]
      simp only [bne_iff_ne.mpr pointless, bne_iff_ne.mpr colon, bne_iff_ne.mpr next, Bool.and_self]
    rcases known_of_use (layout_of_tokens read (unquoted_of_isUnquoted (by
        rw [isRegular, Bool.and_eq_true] at regular
        exact regular.1))).blanked known (mem_readings (composed.use_found whole kind plain)) value with
      keyword | global | declared | shown
    · exact absurd keyword free
    · exact .inl global
    · exact .inr (.inl declared)
    · exact .inr (.inr (bound shown))

end Accepted

/-- A function that uses its parameter, a variable and a helper, and is called. -/
def larger : String := "let f = (a) => max(a, x)\nf(x)"

theorem accepted_known_larger :
    ∃ c program, Compiled.ofText larger ["x"] = .ok c ∧ c.program? = some program ∧
      isExact c.source = true ∧ .name "a" 19 ∈ program.sites ∧
      ("a" ∈ globalNames ∨ "a" ∈ ["x"] ∨ ∃ kind, .binder kind "a" ∈ program.sites) ∧
      .call (.name "f" 25) ∈ program.sites ∧
      ("f" ∈ helperNames ∨ ∃ kind, .binder kind "f" ∈ program.sites) := by
  obtain ⟨looked, colon, headed, opens, unheaded⟩ :
      (Compiled.ofText larger ["x"]).toOption.any (fun c => c.source == larger &&
        c.program?.any fun p => isExact c.source && (usesName p "a" 19 && callsName p "f" 25)) = true ∧
      nextSign larger (19 + "a".length) ≠ some ':' ∧
      (nextSign larger (19 + "a".length) = some '(' →
        isHeaded (blanked larger.toList) 19 = false) ∧
      nextSign larger (25 + "f".length) = some '(' ∧
      isHeaded (blanked larger.toList) 25 = false := by decide +kernel
  obtain ⟨c, found, holds⟩ := (Option.any_eq_true _ _).mp looked
  rw [Bool.and_eq_true, beq_iff_eq] at holds
  obtain ⟨source, holds⟩ := holds
  obtain ⟨program, parsed, holds⟩ := (Option.any_eq_true _ _).mp holds
  rw [Bool.and_eq_true, Bool.and_eq_true] at holds
  obtain ⟨exact, uses, calls⟩ := holds
  have made := ok_of_toOption found
  obtain ⟨known, callable⟩ := accepted_known made parsed exact
  have uses := usesName_iff.mp uses
  have calls := callsName_iff.mp calls
  rw [source] at known callable
  exact ⟨c, program, made, parsed, exact, uses,
    known "a" 19 uses (by decide) (by decide) colon headed, calls,
    callable "f" 25 calls (by decide) opens unheaded⟩

/-- What stands before the parameters of an arrow function in the same parentheses is taken for a
parameter. -/
theorem accepted_unknown : ∃ c program, Compiled.ofText "max(y, () => tick)" [] = .ok c ∧
    c.program? = some program ∧ .name "y" 4 ∈ program.sites ∧
    ¬("y" ∈ globalNames ∨ "y" ∈ ([] : List String) ∨ ∃ kind, .binder kind "y" ∈ program.sites) ∧
    nextSign c.source 5 = some ',' := by
  have looked : (Compiled.ofText "max(y, () => tick)" []).toOption.any (fun c =>
      c.program?.any fun p => usesName p "y" 4 &&
        (!bindsName p "y" && nextSign c.source 5 == some ',')) = true := by decide +kernel
  obtain ⟨c, found, holds⟩ := (Option.any_eq_true _ _).mp looked
  obtain ⟨program, parsed, holds⟩ := (Option.any_eq_true _ _).mp holds
  rw [Bool.and_eq_true, Bool.and_eq_true, Bool.not_eq_true', beq_iff_eq] at holds
  obtain ⟨uses, binds, next⟩ := holds
  refine ⟨c, program, ok_of_toOption found, parsed, usesName_iff.mp uses, ?_, next⟩
  rintro (global | declared | binder)
  · exact absurd global (by decide)
  · cases declared
  · rw [bindsName_iff.mpr binder] at binds
    cases binds

end EmitterLogic.Tick
