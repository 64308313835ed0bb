import EmitterLogic.Proofs.Tick.Callees

namespace EmitterLogic.Tick

open Text Script Parser

section Accepting

variable {tail : List Char} {ps a z : List Piece} {p : Piece} {fin : Token} {w text source : String}
  {vars : List String} {program : Program}

/-- Is what a program has at a site known: a name that is global, declared or bound by the program, a call
of a helper, of a name that is bound, or of a member of the mathematics namespace? -/
def siteKnown (program : Program) (vars : List String) : Site → Bool
  | .name id _ => globalNames.contains id || vars.contains id || bindsName program id
  | .call (.name id _) => helperNames.contains id || bindsName program id
  | .call (.member (.name id _) _) => id == "Math"
  | .call _ => false
  | .binder _ _ => true

/-- Does a program use only names that are known, and call only what may be called? -/
def usesKnown (program : Program) (vars : List String) : Bool :=
  program.sites.all (siteKnown program vars)

/-- Does each declaration of a program declare one name? -/
def declaresSingly (program : Program) : Bool :=
  program.sites.all fun
    | .binder .later _ => false
    | _ => true

theorem name_known (known : usesKnown program vars = true) {id : String} {place : Nat}
    (site : .name id place ∈ program.sites) :
    id ∈ globalNames ∨ id ∈ vars ∨ ∃ kind, .binder kind id ∈ program.sites := by
  have here := List.all_eq_true.mp known _ site
  rw [siteKnown, Bool.or_eq_true, Bool.or_eq_true, bindsName_iff, List.contains_iff_mem,
    List.contains_iff_mem] at here
  exact or_assoc.mp here

theorem call_known (known : usesKnown program vars = true) {callee : Expr}
    (site : .call callee ∈ program.sites) :
    (∃ id place, callee = .name id place ∧
      (id ∈ helperNames ∨ ∃ kind, .binder kind id ∈ program.sites)) ∨
      ∃ place property, callee = .member (.name "Math" place) property := by
  have here := List.all_eq_true.mp known _ site
  unfold siteKnown at here
  split at here
  · next same => cases same
  · next id place same =>
    cases same
    rw [Bool.or_eq_true, bindsName_iff, List.contains_iff_mem] at here
    exact .inl ⟨id, place, rfl, here⟩
  · next id place property same =>
    cases same
    rw [beq_iff_eq.mp here]
    exact .inr ⟨place, property, rfl⟩
  · cases here
  · next same => cases same

theorem not_later (single : declaresSingly program = true) {kind : Binder} {name : String}
    (site : .binder kind name ∈ program.sites) : kind ≠ .later := by
  rintro rfl
  cases List.all_eq_true.mp single _ site

theorem statementWords_keywords : ∀ w ∈ statementWords, w ∈ keywords := by decide

theorem literal_keyword {l : Literal} (literal : literalOf? w = some l) : w ∈ keywords := by
  simp only [literalOf?, beq_iff_eq] at literal
  repeat' split at literal
  all_goals cases literal
  all_goals
    next same =>
    subst same
    decide

theorem Composed.use_told {b : List Char} (h : Composed b ps tail fin) (e : Evident ps)
    {known : List String}
    (values : ∀ {p w}, p ∈ ps → p.role = .value → p.token.kind = .word w → w ∈ known)
    (bound : ∀ {p kind w}, p ∈ ps → p.role = .binder kind → p.token.kind = .word w → w ∈ known)
    (whole : ps = a ++ p :: z) (kind : p.token.kind = .word w)
    (value : (⟨w, (span a ++ p.gap).getLast?, (trimStart (span z ++ tail)).head?⟩ : Use).isValue =
      true) : w ∈ keywords ∨ w ∈ known := by
  have among : p ∈ ps := by rw [whole]; simp
  have suits := (h.suits whole).of_word kind
  simp only [Use.isValue, Bool.and_eq_true, bne_iff_ne] at value
  generalize tagged : p.role = role at suits
  cases suits with
  | value _ => exact .inr (values among tagged kind)
  | property before =>
    -- A member stands directly after its point.
    obtain ⟨a, d, rfl, dot⟩ := exists_last before
    have whole' : ps = a ++ d :: p :: z := by rw [whole, List.append_assoc]; rfl
    have last : (span (a ++ [d]) ++ p.gap).getLast? = some '.' := by
      rw [e.members whole' dot kind, span_append, span_cons, span_nil,
        (h.fits a d (p :: z) whole').mark dot]
      simp [Mark.text]
    exact absurd last value.1.1
  | key colon =>
    obtain ⟨q, z', rfl, mark⟩ := front_mark h.finish colon
    have next : (trimStart (span (q :: z') ++ tail)).head? = some ':' := by
      have whole' : ps = (a ++ [p]) ++ q :: z' := by rw [whole, List.append_assoc]; rfl
      have fits := h.fits (a ++ [p]) q z' whole'
      have plain : q.isText = false := by rw [Piece.isText, kind_of_isMark mark]
      rw [span_cons, List.append_assoc, List.append_assoc,
        trimStart_append fits.blank (fits.shown plain _), fits.mark mark]
      rfl
    exact absurd next value.1.2
  | literal constant => exact .inl (literal_keyword constant)
  | keyword statement => exact .inl (statementWords_keywords w statement)
  | binder _ => exact .inr (bound among tagged kind)

theorem accepted_of_flawless {text : String} (parsed : parseProgram (cleanSource text) = .ok program)
    (flawless : nameDefect? (cleanSource text).toList vars = none) :
    ∃ c, Compiled.ofText text vars = .ok c ∧ c.isOk = true := by
  by_cases visible : cleanSource text = ""
  · refine ⟨⟨cleanSource text, .ok none⟩, ofText_ok ?_, rfl⟩
    rw [verdict, visible]
    rfl
  · refine ⟨⟨cleanSource text, .ok (some program)⟩, ofText_ok ?_, rfl⟩
    rw [verdict_of_parse visible parsed, flawless]
    rfl

theorem Composed.flawless {s : List Char} (h : Composed (blanked s) ps tail fin) (e : Evident ps)
    (settled : blanked (blanked s) = blanked s)
    (values : ∀ {p w}, p ∈ ps → p.role = .value → p.token.kind = .word w →
      w ∈ globalNames ++ (vars ++ boundNames s))
    (bound : ∀ {p kind w}, p ∈ ps → p.role = .binder kind → p.token.kind = .word w → w ∈ boundNames s)
    (calls : ∀ {r callee}, r ∈ ps → r.role = .call callee →
      (∃ id place, callee = .name id place ∧ id ∈ helperNames ++ boundNames s) ∨
        ∃ place property, callee = .member (.name "Math" place) property) :
    nameDefect? s vars = none := by
  rw [nameDefect?_eq_none_iff]
  constructor
  · rw [unknownName?, Option.map_eq_none_iff, List.find?_eq_none]
    intro u there
    rw [boundNames_blanked settled]
    by_cases value : u.isValue = true
    · obtain ⟨a, p, z, w, whole, kind, rfl⟩ := h.word_of_use e there value
      have told := h.use_told e values
        (fun among role word => List.mem_append_right _ (List.mem_append_right _
          (bound among role word))) whole kind value
      rw [value, Bool.and_true]
      simpa [or_assoc, imp_iff_not_or] using told
    · simp [value]
  · rw [forbiddenCall?, List.find?_eq_none]
    intro callee there
    obtain ⟨⟨q, n, v⟩, found, rfl⟩ := List.mem_map.mp there
    have told := h.callee_told e calls
      (fun among role word => List.mem_append_right _ (bound among role word))
      (List.mem_of_mem_filter found)
    rw [told]
    exact Bool.false_ne_true

/-- In a regular script each name that is bound is shown as bound, unless it is no plain name or a later
one of a declaration. If moreover the script is evident and each declaration declares one name, then the
script is accepted where it uses only names that are known and calls only what may be called. -/
theorem bound_and_accepted (parsed : parseProgram source = .ok program)
    (regular : isRegular source = true) :
    (∀ kind name, .binder kind name ∈ program.sites → kind ≠ .later → isName name = true →
      name ∈ boundNames source.toList) ∧
    (isEvident source = true → declaresSingly program = true → usesKnown program vars = true →
      cleanSource text = source → ∃ c, Compiled.ofText text vars = .ok c ∧ c.isOk = true) := by
  refine ⟨fun kind name site first named => mem_boundNames_of_binder parsed regular site first named,
    fun evident single known clean => ?_⟩
  obtain ⟨ps, tail, fin, composed, r, sites, read⟩ := exists_regular parsed regular
  have e : Evident ps := by
    rw [isEvident, read] at evident
    exact evident_of_tells composed evident
  have site {p : Piece} {s : Site} (among : p ∈ ps) (there : s ∈ p.sites) : s ∈ program.sites := by
    rw [sites]
    exact List.mem_flatMap.mpr ⟨p, among, there⟩
  have shown {kind : Binder} {name : String} (binder : .binder kind name ∈ program.sites) :
      name ∈ boundNames source.toList := by
    have binder' := binder
    rw [sites] at binder'
    obtain ⟨p, among, there⟩ := List.mem_flatMap.mp binder'
    obtain ⟨role, word, _⟩ := binder_mem_roleSites.mp there
    exact r.bound composed among role (not_later single binder) word
      (isName_of_isPlain (e.plain among word))
  have bound {p : Piece} {kind : Binder} {w : String} (among : p ∈ ps) (role : p.role = .binder kind)
      (word : p.token.kind = .word w) : w ∈ boundNames source.toList := by
    have plain := isName_of_isPlain (e.plain among word)
    have full : w.isEmpty = false := by
      rw [Bool.eq_false_iff]
      intro none
      rw [String.isEmpty_iff.mp none] at plain
      cases plain
    exact shown (site among (binder_mem_roleSites.mpr ⟨role, word, full⟩))
  have values {p : Piece} {w : String} (among : p ∈ ps) (role : p.role = .value)
      (word : p.token.kind = .word w) : w ∈ globalNames ++ (vars ++ boundNames source.toList) := by
    simp only [List.mem_append]
    exact (name_known known (site among (name_mem_sites.mpr ⟨role, word, rfl⟩))).imp_right
      (Or.imp_right fun ⟨_, binder⟩ => shown binder)
  have calls {r : Piece} {callee : Expr} (among : r ∈ ps) (role : r.role = .call callee) :
      (∃ id place, callee = .name id place ∧ id ∈ helperNames ++ boundNames source.toList) ∨
        ∃ place property, callee = .member (.name "Math" place) property := by
    have there : .call callee ∈ r.sites := by
      rw [Piece.sites, role]
      exact List.mem_singleton_self _
    refine (call_known known (site among there)).imp_left ?_
    rintro ⟨id, place, same, helper | ⟨_, binder⟩⟩
    · exact ⟨id, place, same, List.mem_append_left _ helper⟩
    · exact ⟨id, place, same, List.mem_append_right _ (shown binder)⟩
  have unquoted : isUnquoted source.toList = true := by
    rw [isRegular, Bool.and_eq_true] at regular
    exact regular.1
  subst clean
  exact accepted_of_flawless parsed (composed.flawless e
    (layout_of_tokens read (unquoted_of_isUnquoted unquoted)).blanked values bound calls)

def bindsAs (program : Program) (kind : Binder) (name : String) : Bool :=
  program.sites.any fun
    | .binder kind' name' => kind' == kind && name' == name
    | _ => false

theorem bindsAs_binder {kind : Binder} {name : String} (h : bindsAs program kind name = true) :
    .binder kind name ∈ program.sites := by
  obtain ⟨site, member, same⟩ := List.any_eq_true.mp h
  cases site with
  | binder kind' name' =>
    rw [Bool.and_eq_true, beq_iff_eq, beq_iff_eq] at same
    rwa [same.1, same.2] at member
  | _ => cases same

end Accepting

/-- A function with two parameters is called, and so is a handler's way out. -/
def guarded : String :=
  "let f = (a, b = 1) => a + b\ntry { x = f(x, y) } catch (e) { x = Math.sin(e) }"

theorem bound_and_accepted_guarded : ∃ program, parseProgram guarded = .ok program ∧
    isRegular guarded = true ∧ isEvident guarded = true ∧ declaresSingly program = true ∧
      usesKnown program ["x", "y"] = true ∧ .binder .parameter "b" ∈ program.sites ∧
        "b" ∈ boundNames guarded.toList ∧
          ∃ c, Compiled.ofText ("  " ++ guarded) ["x", "y"] = .ok c ∧ c.isOk = true := by
  have course : ((parseProgram guarded).toOption.any (fun p => declaresSingly p &&
        (usesKnown p ["x", "y"] && bindsAs p .parameter "b"))) = true ∧
      isRegular guarded = true ∧ isEvident guarded = true ∧
      cleanSource ("  " ++ guarded) = guarded := by decide +kernel
  obtain ⟨looked, regular, evident, clean⟩ := course
  obtain ⟨program, found, holds⟩ := (Option.any_eq_true _ _).mp looked
  rw [Bool.and_eq_true, Bool.and_eq_true] at holds
  obtain ⟨single, known, binds⟩ := holds
  have parsed := ok_of_toOption found
  have binder := bindsAs_binder binds
  obtain ⟨shown, accepted⟩ := bound_and_accepted parsed regular
  exact ⟨program, parsed, regular, evident, single, known, binder,
    shown _ _ binder (by rintro ⟨⟩) (by decide), accepted evident single known clean⟩

/-- Of the names of a declaration only the first is shown as bound: a script that binds each name it uses
is rejected. -/
theorem second_name_unknown : ∃ program c, parseProgram "let a = 1, b = 2" = .ok program ∧
    .binder .later "b" ∈ program.sites ∧ "b" ∉ boundNames "let a = 1, b = 2".toList ∧
      usesKnown program [] = true ∧ Compiled.ofText "let a = 1, b = 2" [] = .ok c ∧
        c.defect? = some (.unknownName "b") := by
  have course : (parseProgram "let a = 1, b = 2").toOption.any (fun p => usesKnown p [] &&
        bindsAs p .later "b") = true ∧
      (Compiled.ofText "let a = 1, b = 2" []).toOption.any (fun c =>
        c.defect? == some (.unknownName "b")) = true ∧
      "b" ∉ boundNames "let a = 1, b = 2".toList := by decide +kernel
  obtain ⟨looked, rejected, hidden⟩ := course
  obtain ⟨program, found, holds⟩ := (Option.any_eq_true _ _).mp looked
  rw [Bool.and_eq_true] at holds
  obtain ⟨known, binds⟩ := holds
  obtain ⟨c, made, defect⟩ := (Option.any_eq_true _ _).mp rejected
  exact ⟨program, c, ok_of_toOption found, bindsAs_binder binds, hidden, known, ok_of_toOption made,
    beq_iff_eq.mp defect⟩

end EmitterLogic.Tick
