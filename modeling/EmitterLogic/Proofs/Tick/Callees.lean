import EmitterLogic.Proofs.Tick.Evidence

namespace EmitterLogic.Tick

open Text Script Parser

section Calls

variable {b A u m g t tail : List Char} {ps a z : List Piece} {p d r : Piece} {fin : Token}
  {w : String} {known : List String}

theorem ends_named {d : Tagged} {past : List Tagged} {e : Expr} (h : EndsAs (d :: past) e)
    (named : isNamed e = true) (open' : d.token.isMark .rightParen = false) :
    ∃ w, d.token.kind = .word w ∧ (d.role = .value ∧ e = .name w d.token.position ∨
      d.role = .property ∧ ∃ holder c past', past = c :: past' ∧ e = .member holder w ∧
        EndsAs past' holder) := by
  unfold EndsAs at h
  split at h
  · next same =>
    cases same
    exact ⟨_, rfl, .inl ⟨rfl, h⟩⟩
  · next same =>
    cases same
    obtain ⟨holder, same, ends⟩ := h
    exact ⟨_, rfl, .inr ⟨rfl, holder, _, _, rfl, same, ends⟩⟩
  · next same =>
    cases same
    rw [h named] at open'
    cases open'
  · next same => cases same

theorem Composed.call_after (h : Composed b ps tail fin) (whole : ps = a ++ d :: r :: z)
    (operand : d.toTagged.isOperand = true) (opening : r.token.isMark .leftParen = true) :
    ∃ callee, r.role = .call callee ∧ EndsAs (d.toTagged :: a.reverse.map Piece.toTagged) callee := by
  have suits := h.suits_after whole
  have kind := kind_of_isMark opening
  have unword {w : String} (word : r.token.kind = .word w) : False := by
    rw [kind] at word
    cases word
  have unheaded {k : String} (keyword : d.toTagged.isKeyword k = true) : False := by
    obtain ⟨role, word⟩ := keyword_of_isKeyword keyword
    rw [Tagged.isOperand, word, role] at operand
    cases operand
  have tight : ¬Loose (d.toTagged :: a.reverse.map Piece.toTagged) := fun loose => by
    rw [loose d.toTagged rfl] at operand
    cases operand
  generalize r.role = role at suits
  cases role with
  | value => exact (unword suits.2.choose_spec.1).elim
  | property => exact (unword suits.1.choose_spec).elim
  | key => exact absurd kind (suits.2.1 .leftParen)
  | literal => exact (unword suits.2.choose_spec.choose_spec.1).elim
  | keyword => exact (unword suits.2.choose_spec.2).elim
  | binder _ => exact (unword (kind_of_freeWord suits.1.choose_spec).1).elim
  | call callee => exact ⟨callee, rfl, suits.2.2⟩
  | list arrow =>
    cases arrow with
    | true => exact absurd suits.2.2.1 tight
    | false =>
      rcases suits.2 with keyword | named
      · exact (unheaded (exists_head keyword)).elim
      · have role := exists_head named
        have free := (h.suits (a := a) (p := d) (z := r :: z) whole)
        rw [show d.role = .binder .function from role] at free
        obtain ⟨w, free⟩ := free.1
        rw [Tagged.isOperand, (kind_of_freeWord free).1, role] at operand
        cases operand
  | caught => exact (unheaded (exists_head suits.2)).elim
  | separator =>
    have comma := kind_of_isMark suits.1
    rw [kind] at comma
    cases comma
  | other => exact absurd (suits.2.2.1 opening) tight

theorem Composed.word_before (h : Composed b ps tail fin) (whole : ps = a ++ p :: z)
    (kind : p.token.kind = .word w) (same : A ++ u = (span a ++ p.gap) ++ w.toList)
    (parts : ∀ c ∈ u, isWordPart c = true) :
    ∃ x, A = (span a ++ p.gap) ++ x ∧ w.toList = x ++ u := by
  rcases List.append_eq_append_iff.mp same with ⟨x, before, rest⟩ | ⟨x, rfl, rest⟩
  · rcases List.eq_nil_or_concat x with rfl | ⟨y, c, rfl⟩
    · exact ⟨[], by rw [List.append_nil, before, List.append_nil], rest.symm⟩
    · -- No word goes on from the character before the word.
      have stop := h.before_word whole kind c (by
        rw [before, List.concat_eq_append, ← List.append_assoc, List.getLast?_concat]
        exact Option.mem_def.mpr rfl)
      rw [parts c (by rw [rest]; simp)] at stop
      cases stop
  · exact ⟨x, rfl, rest⟩

theorem callee_last (name : isNameChars u = true) (member : MemberName m) :
    ∃ c, (u ++ m).getLast? = some c ∧ isNamePart c = true := by
  have last {v : List Char} (name : isNameChars v = true) (x : List Char) :
      ∃ c, (x ++ v).getLast? = some c ∧ isNamePart c = true := by
    have left := ne_nil_of_isNameChars name
    refine ⟨v.getLast left, ?_, mem_isNameChars name _ (List.getLast_mem left)⟩
    rw [List.getLast?_append_of_ne_nil _ left]
    exact List.getLast?_eq_some_getLast left
  rcases member with rfl | ⟨v, rfl, name'⟩
  · rw [List.append_nil]
    exact last name []
  · have found := last name' (u ++ ['.'])
    rwa [List.append_assoc] at found

theorem Composed.word_of_operand (h : Composed b ps tail fin)
    (named : ∀ {r callee}, r ∈ ps → r.role = .call callee → isNamed callee = true)
    (whole : ps = a ++ d :: r :: z) (opening : r.token.isMark .leftParen = true)
    (operand : d.toTagged.isOperand = true) : ∃ w, d.token.kind = .word w := by
  obtain ⟨callee, role, ends⟩ := h.call_after whole operand opening
  have closes : d.token.isMark .rightParen = false := by
    rw [Bool.eq_false_iff]
    intro mark
    rw [Tagged.isOperand, kind_of_isMark mark] at operand
    cases operand
  obtain ⟨w, kind, _⟩ := ends_named ends (named (by rw [whole]; simp) role) closes
  exact ⟨w, kind⟩

theorem Composed.word_of_callee (h : Composed b ps tail fin)
    (named : ∀ {r callee}, r ∈ ps → r.role = .call callee → isNamed callee = true)
    (text : b = A ++ (u ++ (m ++ (g ++ '(' :: t)))) (name : isNameChars u = true)
    (member : MemberName m) (blank : Blank g) :
    ∃ a p r z w, ps = a ++ p :: r :: z ∧ p.token.kind = .word w ∧
      r.token.isMark .leftParen = true ∧ A ++ (u ++ m) = (span a ++ p.gap) ++ w.toList ∧
        g = r.gap := by
  have text' : b = (A ++ (u ++ m) ++ g) ++ '(' :: t := by
    rw [text]
    simp only [List.append_assoc]
  obtain ⟨a, r, z, x, y, whole, chars, before, _⟩ := h.locate text' (by decide)
  have opening : r.token.isMark .leftParen = true :=
    h.sign (c := '(') (by decide) whole (by rw [chars]; simp)
  obtain rfl : x = [] := by
    have one := (h.fits a r z whole).mark opening
    rw [chars] at one
    cases x with
    | nil => rfl
    | cons c x => cases x <;> cases one
  obtain ⟨c, last, part⟩ := callee_last name member
  have visible := isBlank_of_wordPart (isWordPart_of_namePart part)
  have last' : (A ++ (u ++ m)).getLast? = some c := by rw [List.getLast?_append, last]; rfl
  rw [List.append_nil] at before
  rcases List.eq_nil_or_concat a with rfl | ⟨a, p, rfl⟩
  · have inside : c ∈ r.gap := by
      rw [span_nil, List.nil_append] at before
      rw [← before]
      exact List.mem_append_left g (List.mem_of_getLast? last')
    rw [(h.fits [] r z whole).blank c inside] at visible
    cases visible
  rw [List.concat_eq_append, List.append_assoc] at whole
  have whole : ps = a ++ p :: r :: z := whole
  have fits := h.fits a p (r :: z) whole
  have called := h.word_of_operand named whole opening
  have shown : p.isText = false := by
    rw [Piece.isText]
    split
    · next s kind =>
      obtain ⟨w, word⟩ := called (by rw [Tagged.isOperand, kind])
      rw [kind] at word
      cases word
    · rfl
  obtain ⟨same, gap⟩ : A ++ (u ++ m) = (span a ++ p.gap) ++ p.chars ∧ g = r.gap := by
    rw [List.concat_eq_append, span_append, span_cons, span_nil, List.append_nil] at before
    have before : A ++ (u ++ m) ++ g = (span a ++ p.gap) ++ p.chars ++ r.gap := by
      rw [before]
      simp only [List.append_assoc]
    refine blanks_unique_end before blank ((h.fits (a ++ [p]) r z (by
      rw [whole, List.append_assoc]; rfl)).blank) ?_ ?_
    · rw [last']
      exact fun d same => Option.some.inj same ▸ visible
    · intro d there
      rw [List.getLast?_append_of_ne_nil _ fits.chars_ne_nil] at there
      exact fits.visible shown d (List.mem_of_getLast? there)
  obtain ⟨w, kind⟩ : ∃ w, p.token.kind = .word w := by
    rw [same, List.getLast?_append_of_ne_nil _ fits.chars_ne_nil] at last'
    rcases fits.operand_of_part (List.mem_of_getLast? last') (isWordPart_of_namePart part) with
      ⟨f, number⟩ | word
    · exact called (by rw [Tagged.isOperand, number])
    · exact word
  exact ⟨a, p, r, z, w, whole, kind, opening, by rw [same, (fits.word kind).1], gap⟩

theorem Composed.callee_split (h : Composed b ps tail fin) (whole : ps = a ++ p :: z)
    (kind : p.token.kind = .word w) (same : A ++ (u ++ m) = (span a ++ p.gap) ++ w.toList)
    (name : isNameChars u = true) (member : MemberName m) :
    (m = [] ∧ ∃ x, A = (span a ++ p.gap) ++ x ∧ w.toList = x ++ u) ∨
      (m = '.' :: w.toList ∧ (A ++ u) ++ ['.'] = span a ++ p.gap) := by
  have parts {v : List Char} (name : isNameChars v = true) : ∀ c ∈ v, isWordPart c = true :=
    fun c there => isWordPart_of_namePart (mem_isNameChars name c there)
  rcases member with rfl | ⟨v, rfl, name'⟩
  · rw [List.append_nil] at same
    exact .inl ⟨rfl, h.word_before whole kind same (parts name)⟩
  · obtain ⟨x, before, spell⟩ := h.word_before (A := (A ++ u) ++ ['.']) (u := v) whole kind (by
      rw [← same]
      simp only [List.append_assoc, List.cons_append, List.nil_append]) (parts name')
    rcases List.eq_nil_or_concat x with rfl | ⟨y, c, rfl⟩
    · exact .inr ⟨by rw [spell]; rfl, by rw [before, List.append_nil]⟩
    · -- The word would hold the point.
      rw [List.concat_eq_append, ← List.append_assoc] at before
      obtain ⟨_, point⟩ := List.append_inj' before rfl
      have word := isWordPart_of_isWord ((h.fits a p z whole).word kind).2.1 c (by rw [spell]; simp)
      rw [← (List.cons.inj point).1] at word
      exact absurd word (by decide)

theorem Composed.word_told (h : Composed b ps tail fin) (e : Evident ps)
    (calls : ∀ {r callee}, r ∈ ps → r.role = .call callee →
      (∃ id place, callee = .name id place ∧ id ∈ known) ∨
        ∃ place property, callee = .member (.name "Math" place) property)
    (bound : ∀ {p kind w}, p ∈ ps → p.role = .binder kind → p.token.kind = .word w → w ∈ known)
    (whole : ps = a ++ p :: r :: z) (kind : p.token.kind = .word w) (role : p.role ≠ .property)
    (opening : r.token.isMark .leftParen = true) : w ∈ headWords ∨ w ∈ known := by
  have among : p ∈ ps := by rw [whole]; simp
  have suits := (h.suits whole).of_word kind
  have called (operand : p.toTagged.isOperand = true) : p.role = .value ∧ w ∈ known := by
    obtain ⟨callee, called, ends⟩ := h.call_after whole operand opening
    have call := calls (by rw [whole]; simp) called
    have closes : p.token.isMark .rightParen = false := not_mark_of_word kind
    rcases call with ⟨id, place, rfl, there⟩ | ⟨place, property, rfl⟩
    · obtain ⟨v, kind', ⟨value, same⟩ | ⟨there', _⟩⟩ := ends_named ends rfl closes
      · obtain rfl : w = v := TokenKind.word.inj (kind.symm.trans kind')
        cases same
        exact ⟨value, there⟩
      · exact absurd there' role
    · obtain ⟨v, _, ⟨_, same⟩ | ⟨there', _⟩⟩ := ends_named ends rfl closes
      · cases same
      · exact absurd there' role
  generalize tagged : p.role = role' at suits
  cases suits with
  | value _ => exact .inr (called (by rw [Tagged.isOperand, kind, tagged])).2
  | property _ => exact absurd tagged role
  | key colon =>
    have colon : r.token.isMark .colon = true := colon
    rw [Token.isMark, kind_of_isMark opening] at colon
    cases colon
  | literal _ =>
    have value := (called (by rw [Tagged.isOperand, kind, tagged])).1
    rw [tagged] at value
    cases value
  | keyword statement => exact .inl (e.heads whole kind statement opening)
  | binder _ => exact .inr (bound among tagged kind)

theorem Composed.member_found (h : Composed b ps tail fin) (e : Evident ps)
    (calls : ∀ {r callee}, r ∈ ps → r.role = .call callee →
      (∃ id place, callee = .name id place ∧ id ∈ known) ∨
        ∃ place property, callee = .member (.name "Math" place) property)
    (whole : ps = a ++ p :: r :: z) (kind : p.token.kind = .word w) (role : p.role = .property)
    (opening : r.token.isMark .leftParen = true) :
    ∃ a' o z', ps = a' ++ o :: z' ∧ o.token.kind = .word "Math" ∧
      span a ++ p.gap = (span a' ++ o.gap) ++ "Math".toList ++ ['.'] ∧
      ((span a' ++ o.gap).length, 4 + (w.toList.length + 1) + r.gap.length + 1,
        "Math".toList ++ '.' :: w.toList) ∈ findAll calleeAt b := by
  have suits := h.suits whole
  rw [role] at suits
  obtain ⟨a, d, rfl, dot⟩ := exists_last suits.2
  have dot : d.token.isMark .dot = true := dot
  have whole' : ps = a ++ d :: p :: r :: z := by rw [whole, List.append_assoc]; rfl
  obtain ⟨a, o, rfl, math, apart⟩ := e.holders whole' dot kind opening
  have whole'' : ps = a ++ o :: d :: p :: r :: z := by rw [whole', List.append_assoc]; rfl
  have close := e.members whole' dot kind
  have chars := (h.fits _ d (p :: r :: z) whole').mark dot
  have holder := ((h.fits a o _ whole'').word math).1
  have spelled := ((h.fits _ p (r :: z) whole).word kind).1
  have opened := (h.fits (a ++ [o, d, p]) r z (by
    rw [whole'']
    simp only [List.append_assoc, List.cons_append, List.nil_append])).mark opening
  -- The holder is the name itself, since it ends the callee of the call.
  have value : o.role ≠ .property := by
    intro member
    obtain ⟨callee, called, ends⟩ :=
      h.call_after whole (by rw [Tagged.isOperand, kind, role]) opening
    rw [List.reverse_append, List.reverse_append] at ends
    rcases calls (by rw [whole]; simp) called with ⟨_, _, rfl, _⟩ | ⟨_, _, rfl⟩
    · obtain ⟨_, _, ⟨value, _⟩ | ⟨_, _, _, _, _, same, _⟩⟩ :=
        ends_named ends rfl (not_mark_of_word kind)
      · rw [role] at value
        cases value
      · cases same
    · obtain ⟨_, _, ⟨_, same⟩ | ⟨_, holder, c, past, before, same, ends⟩⟩ :=
        ends_named ends rfl (not_mark_of_word kind)
      · cases same
      · cases same
        cases before
        obtain ⟨_, _, ⟨value, _⟩ | ⟨_, _, _, _, _, same, _⟩⟩ :=
          ends_named ends rfl (not_mark_of_word math)
        · rw [member] at value
          cases value
        · cases same
  refine ⟨a, o, _, whole'', math, ?_, ?_⟩
  · simp only [span_append, span_cons, span_nil, List.append_nil, apart, close, chars, holder,
      List.append_assoc]
    rfl
  · have text : span (d :: p :: r :: z) ++ tail =
        ('.' :: w.toList) ++ (r.gap ++ '(' :: (span z ++ tail)) := by
      simp only [span_cons, apart, close, chars, spelled, opened, List.append_assoc, List.nil_append]
      rfl
    exact h.callee_found whole'' math (by decide) (h.no_point whole'' math value)
      (.inr ⟨w.toList, rfl, isName_of_isPlain (e.plain (by rw [whole]; simp) kind)⟩)
      (h.fits (a ++ [o, d, p]) r z (by
        rw [whole'']
        simp only [List.append_assoc, List.cons_append, List.nil_append])).blank text

theorem Composed.callee_told (h : Composed b ps tail fin) (e : Evident ps)
    (calls : ∀ {r callee}, r ∈ ps → r.role = .call callee →
      (∃ id place, callee = .name id place ∧ id ∈ known) ∨
        ∃ place property, callee = .member (.name "Math" place) property)
    (bound : ∀ {p kind w}, p ∈ ps → p.role = .binder kind → p.token.kind = .word w → w ∈ known)
    {q n : Nat} {v : List Char} (found : (q, n, v) ∈ findAll calleeAt b) :
    isCallable known (String.ofList v) = true := by
  obtain ⟨A, B, text, rfl, _, matched⟩ := of_mem_findAll found
  obtain ⟨u, m, g, t, rfl, rfl, name, member, blank, rfl⟩ := calleeAt_eq_some_iff.mp matched
  have named {r : Piece} {callee : Expr} (among : r ∈ ps) (role : r.role = .call callee) :
      isNamed callee = true := by
    rcases calls among role with ⟨_, _, rfl, _⟩ | ⟨_, _, rfl⟩
    · rfl
    · rfl
  obtain ⟨a, p, r, z, w, whole, kind, opening, same, rfl⟩ :=
    h.word_of_callee named text name member blank
  have plain := isName_of_isPlain (e.plain (by rw [whole]; simp) kind)
  have rest : span (r :: z) ++ tail = r.gap ++ '(' :: (span z ++ tail) := by
    rw [span_cons, (h.fits (a ++ [p]) r z (by rw [whole, List.append_assoc]; rfl)).mark opening]
    simp only [List.append_assoc]
    rfl
  have positive := List.length_pos_iff.mpr (ne_nil_of_isNameChars name)
  have split := h.callee_split whole kind same name member
  by_cases role : p.role = .property
  · obtain ⟨a', o, z', whole', math, before, found'⟩ := h.member_found e calls whole kind role opening
    have after : (span a' ++ o.gap).length ≤ A.length := by
      rcases split with ⟨_, x, rfl, _⟩ | ⟨_, point⟩
      · rw [before]
        simp only [List.length_append]
        omega
      · obtain ⟨same', _⟩ := List.append_inj' (point.trans before) rfl
        obtain ⟨x, rfl, _⟩ := h.word_before whole' math same' fun c there =>
          isWordPart_of_namePart (mem_isNameChars name c there)
        simp
    have length := congrArg List.length same
    rw [before] at length
    simp only [List.length_append, List.length_cons, List.length_nil, String.length_toList] at length
    obtain ⟨_, _, whole''⟩ := found_within found' found after (by
      simp only [List.length_append, String.length_toList]
      have four : "Math".length = 4 := rfl
      omega)
    have math' : dropWord? "Math.".toList ("Math".toList ++ '.' :: w.toList) = some w.toList := rfl
    have point : ("Math".toList ++ '.' :: w.toList).contains '.' = true := by simp
    rw [whole'', isCallable, String.toList_ofList, if_pos point, isMathMember]
    simp only [String.toList_ofList]
    exact (congrArg (Option.any isNameChars) math').trans plain
  · have pointless := h.no_point whole kind role
    rcases split with ⟨rfl, x, rfl, spell⟩ | ⟨_, point⟩
    · have found' := h.callee_found whole kind plain pointless (.inl rfl) blank rest
      have length := congrArg List.length spell
      rw [List.length_append] at length
      obtain ⟨_, _, whole'⟩ := found_within found' found (by simp)
        (by simp only [List.length_append, List.length_nil]; omega)
      rw [whole', List.append_nil, String.ofList_toList, isCallable, no_point_of_isName plain]
      simpa using h.word_told e calls bound whole kind role opening
    · rw [← point, List.getLast?_concat] at pointless
      exact absurd rfl pointless

end Calls

end EmitterLogic.Tick
