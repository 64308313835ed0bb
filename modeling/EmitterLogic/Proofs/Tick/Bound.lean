import EmitterLogic.Proofs.Tick.Parameters

namespace EmitterLogic.Tick

open Text Script Parser

theorem mem_boundNames_iff {s : List Char} {id : String} : id ∈ boundNames s ↔
    ∃ v, String.ofList v = id ∧ (v ∈ readings declaration (blanked s) ∨
      (∃ e ∈ readings functionHead (blanked s), v ∈ parameterNames e) ∨
        v ∈ readings catchHead (blanked s) ∨ v ∈ readings arrowName (blanked s) ∨
          ∃ e ∈ readings arrowHead (blanked s), v ∈ parameterNames e) := by
  simp only [boundNames, List.mem_eraseDups, List.mem_map, List.mem_append, List.mem_flatMap, or_assoc]
  exact exists_congr fun v => and_comm

theorem binder_mem_roleSites {t : Token} {role : Role} {kind : Binder} {name : String} :
    .binder kind name ∈ roleSites t role ↔
      role = .binder kind ∧ t.kind = .word name ∧ name.isEmpty = false := by
  constructor
  · intro member
    cases role with
    | value =>
      rw [roleSites] at member
      split at member
      · simp at member
      · cases member
    | binder k =>
      rw [roleSites] at member
      split at member
      · next w word =>
        rw [binderSite] at member
        split at member
        · cases member
        · next full =>
          rw [List.mem_singleton] at member
          cases member
          exact ⟨rfl, word, Bool.not_eq_true _ ▸ full⟩
      · cases member
    | call _ => simp [roleSites] at member
    | _ => cases member
  · rintro ⟨rfl, word, full⟩
    simp [roleSites, word, binderSite, full]

section Bound

variable {b tail : List Char} {ps a z : List Piece} {o p : Piece} {fin : Token}

theorem Regular.list_read (r : Regular ps) (h : Composed b ps tail fin) {arrow : Bool}
    (whole : ps = a ++ o :: z) (role : o.role = .list arrow) :
    ∃ inner c more, z = inner ++ c :: more ∧ (∀ q ∈ inner, isParen q.token = false) ∧
      c.token.isMark .rightParen = true ∧ (span inner ++ c.gap ∈ readings functionHead b ∨
        span inner ++ c.gap ∈ readings arrowHead b) := by
  cases arrow with
  | true =>
    obtain ⟨inner, c, q, z', F, rfl⟩ := r.arrowPieces h whole role
    exact ⟨inner, c, q :: z', rfl, F.plain, F.closes, .inr (F.read r h)⟩
  | false =>
    obtain ⟨a', d, m, inner, c, z', F, rfl, rfl⟩ := r.functionPieces h whole role
    exact ⟨inner, c, z', rfl, F.plain, F.closes, .inl (F.read r h)⟩

theorem Regular.parameter_read (r : Regular ps) (h : Composed b ps tail fin) {w : String}
    {arrow : Bool} (whole : ps = a ++ p :: z) (kind : p.token.kind = .word w) (name : isName w = true)
    (inList : InList arrow (a.reverse.map Piece.toTagged))
    (listed : ∃ d ∈ (a.reverse.map Piece.toTagged).head?, d.isList = true ∨ d.role = .separator)
    (ends : (front (z.map (·.token) ++ [fin])).isMark .comma = true ∨
      (front (z.map (·.token) ++ [fin])).isMark .rightParen = true ∨
        (front (z.map (·.token) ++ [fin])).isMark .assign = true) :
    ∃ e, (e ∈ readings functionHead b ∨ e ∈ readings arrowHead b) ∧
      w.toList ∈ parameterNames e := by
  obtain ⟨a', o, x, rfl, role, plain⟩ := r.inList whole inList
  have whole' : ps = a' ++ o :: (x ++ p :: z) := by rw [whole, List.append_assoc]; rfl
  obtain ⟨inner, c, more, split, unparen, closes, read⟩ := r.list_read h whole' role
  -- The parameter stands before the closing parenthesis of the list.
  obtain ⟨y, rfl, rfl⟩ : ∃ y, inner = x ++ p :: y ∧ z = y ++ c :: more := by
    rcases split_cases split with ⟨m, rfl, _⟩ | ⟨_, rfl, _⟩ | there
    · have none := (not_paren_iff.mp (plain c (by simp))).2
      rw [closes] at none
      cases none
    · have mark := kind_of_isMark closes
      rw [kind] at mark
      cases mark
    · exact there
  refine ⟨_, read, parameter_mem h (by rw [whole', split]) unparen rfl (fun d last => ?_) kind name ends⟩
  obtain ⟨x', rfl⟩ : ∃ x', x = x' ++ [d] := by
    rcases List.eq_nil_or_concat x with rfl | ⟨x', e, rfl⟩
    · cases last
    · rw [List.concat_eq_append, List.getLast?_concat] at last
      exact ⟨x', by rw [List.concat_eq_append, Option.some.inj last]⟩
  obtain ⟨e, head, what⟩ := listed
  rw [List.reverse_append, List.reverse_cons, List.reverse_append] at head
  obtain rfl : d.toTagged = e := Option.some.inj head
  refine what.resolve_left fun list => ?_
  have suits := h.suits (a := a' ++ o :: x') (p := d) (z := p :: (y ++ c :: more)) (by
    rw [whole']
    simp only [List.append_assoc, List.cons_append, List.nil_append])
  rw [Tagged.isList] at list
  split at list
  · next k same =>
    rw [show d.role = .list k from same] at suits
    have none := (not_paren_iff.mp (plain d (by simp))).1
    rw [suits.1] at none
    cases none
  · cases list

theorem Regular.bound (r : Regular ps) {s : List Char} (h : Composed (blanked s) ps tail fin)
    {kind : Binder} {w : String} (member : p ∈ ps) (role : p.role = .binder kind)
    (first : kind ≠ .later) (word : p.token.kind = .word w) (name : isName w = true) :
    w ∈ boundNames s := by
  obtain ⟨a, z, whole⟩ := List.append_of_mem member
  have suits := h.suits whole
  rw [role] at suits
  refine mem_boundNames_iff.mpr ⟨w.toList, String.ofList_toList, ?_⟩
  have declared {k : String} (declares : k ∈ ["let", "const", "var", "function"])
      (keyword : ∃ d ∈ (a.reverse.map Piece.toTagged).head?, d.isKeyword k = true) :
      w.toList ∈ readings declaration (blanked s) := by
    obtain ⟨a', d, rfl, here⟩ := exists_last keyword
    exact declared_read r h (by rw [whole, List.append_assoc]; rfl) declares here word
  cases kind with
  | first =>
    obtain ⟨d, head, keyword⟩ := suits.2
    rw [Bool.or_eq_true, Bool.or_eq_true] at keyword
    rcases keyword with (keyword | keyword) | keyword
    · exact .inl (declared (by decide) ⟨d, head, keyword⟩)
    · exact .inl (declared (by decide) ⟨d, head, keyword⟩)
    · exact .inl (declared (by decide) ⟨d, head, keyword⟩)
  | later => exact absurd rfl first
  | function => exact .inl (declared (by decide) suits.2)
  | handler =>
    obtain ⟨a', d, o, c, z', w', H⟩ := h.handlerPieces whole role
    obtain rfl : w' = w := TokenKind.word.inj (H.word.symm.trans word)
    exact .inr (.inr (.inl (H.read r h name)))
  | parameter =>
    rcases suits.2 with ⟨_, arrow⟩ | ⟨⟨arrow, inList⟩, listed, ends⟩
    · obtain ⟨q, z', rfl, arrow⟩ := front_mark h.finish arrow
      exact .inr (.inr (.inr (.inl (mem_readings (arrowName_found r h whole word arrow)))))
    · obtain ⟨e, read | read, among⟩ := r.parameter_read h whole word name inList listed ends
      · exact .inr (.inl ⟨e, read, among⟩)
      · exact .inr (.inr (.inr (.inr ⟨e, read, among⟩)))

theorem Regular.binder_of_bound (r : Regular ps) {s : List Char}
    (h : Composed (blanked s) ps tail fin)
    (plain : everywhere listsPlain [] (ps.map (·.token) ++ [fin]) = true) {id : String}
    (member : id ∈ boundNames s) :
    ∃ p ∈ ps, ∃ kind, p.role = .binder kind ∧ p.token.kind = .word id := by
  obtain ⟨v, rfl, found⟩ := mem_boundNames_iff.mp member
  have back (w : String) : String.ofList w.toList = w := String.ofList_toList
  rcases found with read | ⟨e, read, among⟩ | read | read | ⟨e, read, among⟩
  · obtain ⟨A, B, n, text, _, found, _⟩ := of_mem_readings read
    obtain ⟨a, d, p, z, kind, w, whole, _, _, role, _, word, rfl, _⟩ := declaration_reads r h text found
    exact ⟨p, by rw [whole]; simp, kind, role, by rw [back, word]⟩
  · obtain ⟨A, B, n, text, _, found, _⟩ := of_mem_readings read
    obtain ⟨a, d, m, o, inner, c, z, F, _, rfl, _⟩ := functionHead_reads r h text found
    have whole : ps = (a ++ d :: m) ++ o :: (inner ++ c :: z) := by
      rw [F.whole]
      simp only [List.append_assoc, List.cons_append, List.nil_append]
    obtain ⟨p, there, w, role, word, rfl⟩ := parameter_of_mem h whole F.role
      (plain_list h plain whole F.role F.plain) among
    exact ⟨p, by rw [whole]; simp [there], _, role, by rw [back, word]⟩
  · obtain ⟨A, B, n, text, _, found, _⟩ := of_mem_readings read
    obtain ⟨a, d, o, p, c, z, w, H, _, rfl, _⟩ := catchHead_reads r h text found
    exact ⟨p, by rw [H.whole]; simp, _, H.binder, by rw [back, H.word]⟩
  · obtain ⟨A, B, n, text, _, found, there⟩ := of_mem_readings read
    obtain ⟨p, among, w, role, word, rfl⟩ := arrowName_reads r h text found there
    exact ⟨p, among, _, role, by rw [back, word]⟩
  · obtain ⟨A, B, n, text, _, found, _⟩ := of_mem_readings read
    obtain ⟨a, o, inner, c, q, z, F, rfl⟩ := arrowHead_reads r h text found
    obtain ⟨p, there, w, role, word, rfl⟩ := parameter_of_mem h F.whole F.role
      (plain_list h plain F.whole F.role F.plain) among
    exact ⟨p, by rw [F.whole]; simp [there], _, role, by rw [back, word]⟩

end Bound

section Programs

variable {source : String} {program : Program} {name : String}

theorem mem_boundNames_of_binder (parsed : parseProgram source = .ok program)
    (regular : isRegular source = true) {kind : Binder} (site : .binder kind name ∈ program.sites)
    (first : kind ≠ .later) (named : isName name = true) : name ∈ boundNames source.toList := by
  obtain ⟨ps, tail, fin, composed, r, sites, _⟩ := exists_regular parsed regular
  rw [sites] at site
  obtain ⟨p, member, there⟩ := List.mem_flatMap.mp site
  obtain ⟨role, word, _⟩ := binder_mem_roleSites.mp there
  exact r.bound composed member role first word named

theorem binder_of_mem_boundNames (parsed : parseProgram source = .ok program)
    (exact : isExact source = true) (member : name ∈ boundNames source.toList) :
    ∃ kind, .binder kind name ∈ program.sites := by
  rw [isExact, Bool.and_eq_true] at exact
  obtain ⟨ps, tail, fin, composed, r, sites, read⟩ := exists_regular parsed exact.1
  have plain := exact.2
  rw [read] at plain
  obtain ⟨p, there, kind, role, word⟩ := r.binder_of_bound composed plain member
  obtain ⟨a, z, whole⟩ := List.append_of_mem there
  have full : name.isEmpty = false := by
    have parts := ((composed.fits a p z whole).word word).2.1
    rw [Bool.eq_false_iff]
    intro none
    rw [isWord, String.isEmpty_iff.mp none] at parts
    cases parts
  refine ⟨kind, ?_⟩
  rw [sites]
  exact List.mem_flatMap.mpr ⟨p, there, binder_mem_roleSites.mpr ⟨role, word, full⟩⟩

end Programs

end EmitterLogic.Tick
