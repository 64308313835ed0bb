import EmitterLogic.Proofs.Tick.Signs

namespace EmitterLogic.Tick

open Text Script Parser

section Heads

variable {b A B s tail : List Char} {ps a z : List Piece} {p d o : Piece} {fin : Token} {n : Nat}
  {v : List Char}

/-- The pieces of the head of a function: the keyword `d`, the name in `m`, the parentheses `o` and `c`
and what they enclose. -/
structure FunctionPieces (ps a : List Piece) (d : Piece) (m : List Piece) (o : Piece)
    (inner : List Piece) (c : Piece) (z : List Piece) : Prop where
  whole : ps = a ++ d :: ((m ++ o :: (inner ++ [c])) ++ z)
  keyword : d.toTagged.isKeyword "function" = true
  name : m = [] ∨ ∃ p w, m = [p] ∧ p.role = .binder .function ∧ p.token.kind = .word w
  role : o.role = .list false
  opens : o.token.isMark .leftParen = true
  plain : ∀ q ∈ inner, isParen q.token = false
  closes : c.token.isMark .rightParen = true

theorem paren_goes (s : List Char) :
    ∀ c ∈ ('(' :: s).head?, isBlank c = false ∧ c ∉ [',', '\x7d', ':'] := by
  intro c first
  obtain rfl : '(' = c := Option.some.inj first
  decide

theorem paren_ends {g : List Char} (blank : Blank g) :
    ∀ c ∈ (g ++ '(' :: s).head?, isWordPart c = false :=
  ends_blank blank (fun _ => not_wordPart_of_blank) fun c first => by
    obtain rfl : '(' = c := Option.some.inj first
    decide

theorem functionHead_reads (r : Regular ps) (h : Composed b ps tail fin) (text : b = A ++ B)
    (found : functionHead A.getLast? B = some (n, v)) :
    ∃ a d m o inner c z, FunctionPieces ps a d m o inner c z ∧ A = span a ++ d.gap ∧
      v = span inner ++ c.gap ∧ n = d.chars.length + (span (m ++ o :: (inner ++ [c]))).length := by
  obtain ⟨fresh, head, g, t, rfl, name, blank, noClose, rfl⟩ := functionHead_eq_some_iff.mp found
  have eight : "function".toList.length = 8 := by decide
  rcases name with rfl | ⟨g', u, rfl, blank', wide, named⟩
  · rw [List.nil_append] at text
    obtain ⟨a, d, o, z, whole, keyword, before, rfl, after, awaited⟩ := r.opened h (by decide) text
      fresh blank (List.cons_ne_nil _ _) (paren_ends blank) (paren_goes _)
    obtain ⟨role, word⟩ := keyword_of_isKeyword keyword
    have whole' : ps = (a ++ [d]) ++ o :: z := by rw [whole, List.append_assoc]; rfl
    have mark := h.sign_of_text (m := .leftParen) (by decide) whole' after
    have listRole : o.role = .list false := by
      rcases awaited.of_keyword (not_mark_of_word word) role with
        ⟨⟨w, kind⟩, _⟩ | ⟨_, ⟨role', _⟩ | ⟨_, caught⟩⟩ | brace
      · rw [Token.isMark, kind] at mark
        cases mark
      · exact role'
      · have other := (keyword_of_isKeyword caught).2
        exact absurd (TokenKind.word.inj (word.symm.trans other)) (by decide)
      · rw [Token.isMark, kind_of_isMark mark] at brace
        cases brace
    obtain ⟨inner, c, more, rfl, plain, closes, rfl, one, one', _⟩ :=
      r.enclosed h whole' listRole noClose after
    refine ⟨a, d, [], o, inner, c, more, ⟨?_, keyword, .inl rfl, listRole, mark, plain, closes⟩,
      before, rfl, ?_⟩
    · rw [whole]
      simp only [List.nil_append, List.cons_append, List.append_assoc]
    · rw [((h.fits a d _ whole).word word).1]
      simp only [List.nil_append, span_cons, span_append, List.length_append, List.length_nil,
        span_nil, eight, one, one', List.length_cons]
      omega
  · rw [List.append_assoc] at text
    obtain ⟨a, d, p, z, whole, keyword, before, rfl, after, awaited⟩ := r.opened h (by decide) text
      fresh blank' (by simp) (gap_ends blank' wide) (name_goes named)
    obtain ⟨role, word⟩ := keyword_of_isKeyword keyword
    have whole' : ps = (a ++ [d]) ++ p :: z := by rw [whole, List.append_assoc]; rfl
    have unmarked {m : Mark} := word_of_name (m := m) h whole' after named
    obtain ⟨w, kind, role'⟩ : ∃ w, p.token.kind = .word w ∧ p.role = .binder .function := by
      rcases awaited.of_keyword (not_mark_of_word word) role with
        ⟨⟨w, kind⟩, ⟨_, declares⟩ | ⟨function, _⟩⟩ | ⟨opening, _⟩ | opening
      · simp only [Tagged.isKeyword, role, Token.isWord, word] at declares
        exact absurd declares (by decide)
      · exact ⟨w, kind, function⟩
      · rw [unmarked (by decide)] at opening
        cases opening
      · rw [unmarked (by decide)] at opening
        cases opening
    obtain ⟨rfl, chars, rest⟩ := h.name_eq whole' kind after named
      (endsName_sign blank (by decide)) (r.names whole (by decide) (isWord_of_kind word) kind)
    have awaits : p.toTagged.awaits = true := by
      rw [Tagged.awaits, show p.toTagged.role = .binder .function from role']
    obtain ⟨o, z', rfl, rfl, after', awaited'⟩ := h.followed whole' awaits rest.symm blank
      (shown_sign (by decide)) (List.cons_ne_nil _ _)
    obtain ⟨listRole, opens⟩ := awaited'.of_function (not_mark_of_word kind) role'
    have whole'' : ps = (a ++ [d, p]) ++ o :: z' := by rw [whole, List.append_assoc]; rfl
    obtain ⟨inner, c, more, rfl, plain, closes, rfl, one, one', _⟩ :=
      r.enclosed h whole'' listRole noClose after'
    refine ⟨a, d, [p], o, inner, c, more,
      ⟨?_, keyword, .inr ⟨p, w, rfl, role', kind⟩, listRole, opens, plain, closes⟩, before, rfl, ?_⟩
    · rw [whole]
      simp only [List.nil_append, List.cons_append, List.append_assoc]
    · rw [((h.fits a d _ whole).word word).1]
      simp only [List.nil_append, span_cons, span_append, List.length_append, List.length_nil,
        span_nil, eight, one, one', chars, List.length_cons, List.cons_append]
      omega

theorem Regular.functionPieces (r : Regular ps) (h : Composed b ps tail fin)
    (whole : ps = a ++ o :: z) (role : o.role = .list false) :
    ∃ a' d m inner c z', FunctionPieces ps a' d m o inner c z' ∧ a = a' ++ d :: m ∧
      z = inner ++ c :: z' := by
  obtain ⟨inner, c, more, rfl, plain, closes, _⟩ := r.listed h whole role
  have suits := h.suits whole
  rw [role] at suits
  have regroup {a' m : List Piece} {d : Piece} (same : a = a' ++ d :: m) :
      ps = a' ++ d :: ((m ++ o :: (inner ++ [c])) ++ more) := by
    rw [whole, same]
    simp only [List.append_assoc, List.cons_append, List.nil_append]
  rcases suits.2 with keyword | named
  · obtain ⟨a', d, same, keyword⟩ := exists_last keyword
    exact ⟨a', d, [], inner, c, more,
      ⟨regroup same, keyword, .inl rfl, role, suits.1, plain, closes⟩, same, rfl⟩
  · obtain ⟨a', p, rfl, binder⟩ := exists_last named
    have binder : p.role = .binder .function := binder
    have suits' := h.suits (a := a') (p := p) (z := o :: (inner ++ c :: more))
      (by rw [whole, List.append_assoc]; rfl)
    rw [binder] at suits'
    obtain ⟨w, kind⟩ := word_of_free suits'.1
    obtain ⟨a'', d, rfl, keyword⟩ := exists_last suits'.2
    have same : a'' ++ [d] ++ [p] = a'' ++ d :: [p] := List.append_assoc a'' [d] [p]
    exact ⟨a'', d, [p], inner, c, more,
      ⟨regroup same, keyword, .inr ⟨p, w, rfl, binder, kind⟩, role, suits.1, plain, closes⟩, same, rfl⟩

namespace FunctionPieces

variable {a' m m' inner inner' z' : List Piece} {c d' o' c' : Piece}

theorem name_role (F : FunctionPieces ps a d m o inner c z) :
    ∀ p ∈ m, p.role = .binder .function ∧ ∃ w, p.token.kind = .word w := by
  intro p member
  rcases F.name with rfl | ⟨q, w, rfl, role, kind⟩
  · cases member
  · rw [List.mem_singleton.mp member]
    exact ⟨role, w, kind⟩

theorem apart (F : FunctionPieces ps a d m o inner c z)
    (F' : FunctionPieces ps a' d' m' o' inner' c' z') {x y : List Piece}
    (within : m' ++ o' :: (inner' ++ [c']) = x ++ d :: y)
    (rest : (m ++ o :: (inner ++ [c])) ++ z = y ++ z') : False := by
  obtain ⟨role, word⟩ := keyword_of_isKeyword F.keyword
  have role : d.role = .keyword := role
  have closes := kind_of_isMark F'.closes
  rcases split_cases within with ⟨k, rfl, _⟩ | ⟨_, rfl, _⟩ | ⟨k, _, later⟩
  · have named := (F'.name_role d (by simp)).1
    rw [role] at named
    cases named
  · have listed := F'.role
    rw [role] at listed
    cases listed
  · rcases List.eq_nil_or_concat y with rfl | ⟨y, e, rfl⟩
    · have same : inner' ++ [c'] = k ++ [d] := later
      obtain ⟨_, last⟩ := List.append_inj' same rfl
      rw [List.singleton_inj.mp last, word] at closes
      cases closes
    · rw [List.concat_eq_append, ← List.cons_append, ← List.append_assoc] at later
      obtain ⟨rfl, last⟩ := List.append_inj' later rfl
      obtain rfl := List.singleton_inj.mp last
      rw [List.concat_eq_append, List.append_assoc, List.append_assoc] at rest
      -- The opening parenthesis would come after `d` and before the closing one of the other.
      rcases split_cases rest with ⟨l, rfl, _⟩ | ⟨_, rfl, _⟩ | ⟨l, rfl, _⟩
      · obtain ⟨_, w, kind⟩ := F.name_role c' (by simp)
        rw [closes] at kind
        cases kind
      · have opens := kind_of_isMark F.opens
        rw [closes] at opens
        cases opens
      · have inside := F'.plain o (by simp)
        rw [isParen, F.opens] at inside
        cases inside

theorem read (F : FunctionPieces ps a d m o inner c z) (r : Regular ps) (h : Composed b ps tail fin) :
    span inner ++ c.gap ∈ readings functionHead b := by
  obtain ⟨_, word⟩ := keyword_of_isKeyword F.keyword
  have fits := h.fits a d _ F.whole
  have whole : ps = (a ++ d :: m) ++ o :: (inner ++ c :: z) := by
    rw [F.whole]
    simp only [List.append_assoc, List.cons_append, List.nil_append]
  have fits' := h.fits _ o _ whole
  have inside : ps = (a ++ d :: (m ++ [o])) ++ (inner ++ c :: z) := by
    rw [whole]
    simp only [List.append_assoc, List.cons_append, List.nil_append]
  have none : ')' ∉ span inner ++ c.gap := h.noClose inside F.plain
  have closed : c.chars = [')'] :=
    (h.fits (a ++ d :: (m ++ o :: inner)) c z (by rw [whole]; simp)).mark F.closes
  have opened : o.chars = ['('] := fits'.mark F.opens
  have after : d.chars ++ (span ((m ++ o :: (inner ++ [c])) ++ z) ++ tail) =
      "function".toList ++ (span m ++ (o.gap ++ '(' :: ((span inner ++ c.gap) ++
        ')' :: (span z ++ tail)))) := by
    rw [(fits.word word).1]
    simp [opened, closed]
  have name : NameAfterGap (span m) := by
    rcases F.name with same | ⟨p, w, same, role, kind⟩
    · exact .inl (by rw [same]; rfl)
    · have whole' : ps = a ++ d :: p :: (o :: (inner ++ c :: z)) := by
        rw [whole, same, List.append_assoc]
        rfl
      have fits' := h.fits (a ++ [d]) p _ (by rw [whole', List.append_assoc]; rfl)
      have named := r.names whole' (by decide) (isWord_of_kind word) kind
      refine .inr ⟨p.gap, w.toList, ?_, fits'.blank, h.gap_ne_nil whole' word kind named, named⟩
      rw [same, span_cons, (fits'.word kind).1, span_nil, List.append_nil]
  have found : functionHead (span a ++ d.gap).getLast?
      (d.chars ++ (span ((m ++ o :: (inner ++ [c])) ++ z) ++ tail)) =
        some ((span m).length + o.gap.length + (span inner ++ c.gap).length + 10,
          span inner ++ c.gap) := by
    rw [after]
    exact functionHead_eq_some_iff.mpr ⟨h.fresh F.whole word, span m, o.gap, span z ++ tail, rfl,
      name, fits'.blank, none, rfl⟩
  refine mem_readings (h.finds F.whole found fun A' C n v before left text matched => ?_)
  obtain ⟨a', d', m', o', inner', c', z', F', there, _, rfl⟩ := functionHead_reads r h text matched
  exact clear_of F.whole before left F'.whole there fun x y within rest => F.apart F' within rest

end FunctionPieces

structure HandlerPieces (ps a : List Piece) (d o p c : Piece) (z : List Piece) (w : String) :
    Prop where
  whole : ps = a ++ d :: ([o, p, c] ++ z)
  keyword : d.toTagged.isKeyword "catch" = true
  role : o.role = .caught
  opens : o.token.isMark .leftParen = true
  binder : p.role = .binder .handler
  word : p.token.kind = .word w
  closes : c.token.isMark .rightParen = true

theorem catchHead_reads (r : Regular ps) (h : Composed b ps tail fin) (text : b = A ++ B)
    (found : catchHead A.getLast? B = some (n, v)) :
    ∃ a d o p c z w, HandlerPieces ps a d o p c z w ∧ A = span a ++ d.gap ∧ v = w.toList ∧
      n = d.chars.length + (span [o, p, c]).length := by
  obtain ⟨fresh, g₁, g₂, g₃, t, rfl, blank₁, blank₂, blank₃, name, rfl⟩ :=
    catchHead_eq_some_iff.mp found
  have five : "catch".toList.length = 5 := by decide
  obtain ⟨a, d, o, z, whole, keyword, before, rfl, after, awaited⟩ := r.opened h (by decide) text
    fresh blank₁ (List.cons_ne_nil _ _) (paren_ends blank₁) (paren_goes _)
  obtain ⟨role, word⟩ := keyword_of_isKeyword keyword
  have whole' : ps = (a ++ [d]) ++ o :: z := by rw [whole, List.append_assoc]; rfl
  have mark := h.sign_of_text (m := .leftParen) (by decide) whole' after
  have opened : o.chars = ['('] := (h.fits _ o _ whole').mark mark
  have caught : o.role = .caught := by
    rcases awaited.of_keyword (not_mark_of_word word) role with
      ⟨⟨w, kind⟩, _⟩ | ⟨_, ⟨_, function⟩ | ⟨role', _⟩⟩ | brace
    · rw [Token.isMark, kind] at mark
      cases mark
    · have other := (keyword_of_isKeyword function).2
      exact absurd (TokenKind.word.inj (word.symm.trans other)) (by decide)
    · exact role'
    · rw [Token.isMark, kind_of_isMark mark] at brace
      cases brace
  have unpointed : o.token.isMark .dot = false := by
    rw [Token.isMark, kind_of_isMark mark]
    rfl
  have awaits : o.toTagged.awaits = true := by
    rw [Tagged.awaits, show o.toTagged.role = .caught from caught]
  rw [opened] at after
  have rest : span z ++ tail = g₂ ++ (v ++ (g₃ ++ ')' :: t)) := (List.cons.inj after).2.symm
  obtain ⟨p, z', rfl, rfl, after', awaited'⟩ := h.followed whole' awaits rest blank₂
    (shown_of_isNameChars name) (by simp)
  obtain ⟨binder, free, closes⟩ := awaited'.of_caught unpointed caught
  obtain ⟨w, kind⟩ := word_of_free free
  obtain ⟨c, z'', rfl, closes⟩ := front_mark h.finish closes
  have whole'' : ps = (a ++ [d, o]) ++ p :: c :: z'' := by rw [whole, List.append_assoc]; rfl
  obtain ⟨chars, parts, stops⟩ := (h.fits _ p _ whole'').word kind
  have ends : ∀ c ∈ (g₃ ++ ')' :: t).head?, isWordPart c = false :=
    ends_blank blank₃ (fun _ => not_wordPart_of_blank) fun c first => by
      obtain rfl : ')' = c := Option.some.inj first
      decide
  rw [chars] at after'
  obtain ⟨rfl, rest'⟩ := run_unique after'
    (fun c member => isWordPart_of_namePart (mem_isNameChars name c member))
    (isWordPart_of_isWord parts) ends stops
  have closed : c.chars = [')'] :=
    (h.fits (a ++ [d, o, p]) c z'' (by rw [whole, List.append_assoc]; rfl)).mark closes
  rw [span_cons, closed, List.append_assoc] at rest'
  obtain ⟨rfl, _⟩ := blanks_unique rest' blank₃ (h.gaps c (by rw [whole]; simp))
    (shown_sign (by decide)) (shown_sign (by decide))
  refine ⟨a, d, o, p, c, z'', w, ⟨whole, keyword, caught, mark, binder, kind, closes⟩, before, rfl, ?_⟩
  rw [((h.fits a d _ whole).word word).1]
  simp only [span_cons, span_nil, List.length_append, List.length_nil, List.length_cons, five, opened,
    chars, closed]
  omega

theorem Composed.handlerPieces (h : Composed b ps tail fin) (whole : ps = a ++ p :: z)
    (binder : p.role = .binder .handler) :
    ∃ a' d o c z' w, HandlerPieces ps a' d o p c z' w := by
  have suits := h.suits whole
  rw [binder] at suits
  obtain ⟨free, opened, closes⟩ := suits
  obtain ⟨w, kind⟩ := word_of_free free
  obtain ⟨c, z', rfl, closes⟩ := front_mark h.finish closes
  obtain ⟨a', o, rfl, here⟩ := exists_last opened
  have caught : o.role = .caught := here
  have suits' := h.suits (a := a') (p := o) (z := p :: c :: z') (by rw [whole, List.append_assoc]; rfl)
  rw [caught] at suits'
  obtain ⟨a'', d, rfl, keyword⟩ := exists_last suits'.2
  refine ⟨a'', d, o, c, z', w, ?_, keyword, caught, suits'.1, binder, kind, closes⟩
  rw [whole]
  simp only [List.append_assoc, List.cons_append, List.nil_append]

theorem HandlerPieces.read {c : Piece} {w : String} (H : HandlerPieces ps a d o p c z w)
    (r : Regular ps) (h : Composed b ps tail fin) (name : isName w = true) :
    w.toList ∈ readings catchHead b := by
  obtain ⟨role, word⟩ := keyword_of_isKeyword H.keyword
  have role : d.role = .keyword := role
  have member (q : Piece) (there : q ∈ [o, p, c]) : q ∈ ps := by
    rw [H.whole]
    exact List.mem_append_right a (List.mem_cons_of_mem d (List.mem_append_left z there))
  have opened : o.chars = ['('] := (h.fits (a ++ [d]) o ([p, c] ++ z) (by
    rw [H.whole]
    simp only [List.append_assoc, List.cons_append, List.nil_append])).mark H.opens
  have chars : p.chars = w.toList := ((h.fits (a ++ [d, o]) p ([c] ++ z) (by
    rw [H.whole]
    simp only [List.append_assoc, List.cons_append, List.nil_append])).word H.word).1
  have closed : c.chars = [')'] := (h.fits (a ++ [d, o, p]) c z (by
    rw [H.whole]
    simp only [List.append_assoc, List.cons_append, List.nil_append])).mark H.closes
  have after : d.chars ++ (span ([o, p, c] ++ z) ++ tail) = "catch".toList ++ (o.gap ++ '(' ::
      (p.gap ++ (w.toList ++ (c.gap ++ ')' :: (span z ++ tail))))) := by
    rw [((h.fits a d _ H.whole).word word).1]
    simp [opened, chars, closed]
  have found : catchHead (span a ++ d.gap).getLast? (d.chars ++ (span ([o, p, c] ++ z) ++ tail)) =
      some (o.gap.length + p.gap.length + w.toList.length + c.gap.length + 7, w.toList) := by
    rw [after]
    exact catchHead_eq_some_iff.mpr ⟨h.fresh H.whole word, o.gap, p.gap, c.gap, _, rfl,
      h.gaps o (member o (by simp)), h.gaps p (member p (by simp)), h.gaps c (member c (by simp)),
        name, rfl⟩
  refine mem_readings (h.finds H.whole found fun A' C n v before left text matched => ?_)
  obtain ⟨a', d', o', p', c', z', w', H', there, _, rfl⟩ := catchHead_reads r h text matched
  refine clear_of H.whole before left H'.whole there fun x y within _ => ?_
  -- No piece of the head of the other handler is a keyword.
  have among : d ∈ [o', p', c'] := by rw [within]; simp
  simp only [List.mem_cons, List.not_mem_nil, or_false] at among
  rcases among with rfl | rfl | rfl
  · have caught := H'.role
    rw [role] at caught
    cases caught
  · have binder := H'.binder
    rw [role] at binder
    cases binder
  · have closes := kind_of_isMark H'.closes
    rw [word] at closes
    cases closes

end Heads

end EmitterLogic.Tick
