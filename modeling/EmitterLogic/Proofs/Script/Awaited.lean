import EmitterLogic.Proofs.Script.Passing

namespace EmitterLogic.Script

open Script.Parser

inductive Awaited (d : Tagged) (t : Token) (after : List Token) : Role → Prop where
  | property (word : ∃ w, t.kind = .word w) (dot : d.token.isMark .dot = true) :
    Awaited d t after .property
  | first (declares : (d.isKeyword "let" || d.isKeyword "const" || d.isKeyword "var") = true)
    (free : ∃ w, t.freeWord? = some w) : Awaited d t after (.binder .first)
  | function (keyword : d.isKeyword "function" = true) (free : ∃ w, t.freeWord? = some w) :
    Awaited d t after (.binder .function)
  | handler (caught : d.role = .caught) (free : ∃ w, t.freeWord? = some w)
    (closes : (front after).isMark .rightParen = true) : Awaited d t after (.binder .handler)
  | parameter (listed : d.isList = true ∨ d.role = .separator) (free : ∃ w, t.freeWord? = some w)
    (ends : (front after).isMark .comma = true ∨ (front after).isMark .rightParen = true ∨
      (front after).isMark .assign = true) : Awaited d t after (.binder .parameter)
  | list (opening : t.isMark .leftParen = true)
    (headed : d.isKeyword "function" = true ∨ d.role = .binder .function) :
    Awaited d t after (.list false)
  | caught (opening : t.isMark .leftParen = true) (keyword : d.isKeyword "catch" = true) :
    Awaited d t after .caught
  | closing (closes : t.isMark .rightParen = true) (listed : d.isList = true) :
    Awaited d t after .other
  | handling (opening : t.isMark .leftBrace = true) (keyword : d.isKeyword "catch" = true) :
    Awaited d t after .other

variable {d : Tagged} {past : List Tagged} {t : Token} {after : List Token} {role : Role}

theorem exists_head {P : Tagged → Prop} (h : ∃ e ∈ (d :: past).head?, P e) : P d := by
  obtain ⟨e, head, holds⟩ := h
  obtain rfl := Option.some.inj head
  exact holds

theorem not_settled (awaits : d.awaits = true) : ¬Settled (d :: past) := by
  intro settled
  rw [settled d rfl] at awaits
  cases awaits

theorem Suits.awaited (h : Suits (d :: past) t after role) (awaits : d.awaits = true) :
    Awaited d t after role := by
  have unsettled : ¬Settled (d :: past) := not_settled awaits
  cases role with
  | value => exact absurd h.1 unsettled
  | property => exact .property h.1 (exists_head h.2)
  | key => exact absurd h.1 unsettled
  | literal => exact absurd h.1 unsettled
  | keyword => exact absurd h.1 unsettled
  | binder kind =>
    cases kind with
    | first => exact .first (exists_head h.2) h.1
    | later => exact absurd h.2 unsettled
    | function => exact .function (exists_head h.2) h.1
    | handler => exact .handler (exists_head h.2.1) h.1 h.2.2
    | parameter =>
      rcases h.2 with ⟨settled, _⟩ | ⟨_, listed, ends⟩
      · exact absurd settled unsettled
      · exact .parameter (exists_head listed) h.1 ends
  | call callee => exact absurd h.2.1 unsettled
  | list arrow =>
    cases arrow with
    | true => exact absurd h.2.1 unsettled
    | false => exact .list h.1 (h.2.imp exists_head exists_head)
  | caught => exact .caught h.1 (exists_head h.2)
  | separator => exact absurd h.2 unsettled
  | other =>
    rcases h.1 with settled | ⟨closes, listed⟩ | ⟨opening, keyword⟩
    · exact absurd settled unsettled
    · exact .closing closes (exists_head listed)
    · exact .handling opening (exists_head keyword)

namespace Awaited

variable (h : Awaited d t after role) (dot : d.token.isMark .dot = false)
include h dot

theorem of_keyword (keyword : d.role = .keyword) :
    ((∃ w, t.kind = .word w) ∧ (role = .binder .first ∧
        (d.isKeyword "let" || d.isKeyword "const" || d.isKeyword "var") = true ∨
      role = .binder .function ∧ d.isKeyword "function" = true)) ∨
      (t.isMark .leftParen = true ∧ (role = .list false ∧ d.isKeyword "function" = true ∨
        role = .caught ∧ d.isKeyword "catch" = true)) ∨ t.isMark .leftBrace = true := by
  have word (free : ∃ w, t.freeWord? = some w) : ∃ w, t.kind = .word w :=
    free.imp fun _ free => (kind_of_freeWord free).1
  cases h with
  | property _ point => rw [dot] at point; cases point
  | first declares free => exact .inl ⟨word free, .inl ⟨rfl, declares⟩⟩
  | function keyword free => exact .inl ⟨word free, .inr ⟨rfl, keyword⟩⟩
  | handler caught => rw [keyword] at caught; cases caught
  | parameter listed =>
    rw [Tagged.isList, keyword] at listed
    rcases listed with list | separator
    · cases list
    · cases separator
  | list opening headed =>
    rcases headed with function | named
    · exact .inr (.inl ⟨opening, .inl ⟨rfl, function⟩⟩)
    · rw [keyword] at named
      cases named
  | caught opening keyword => exact .inr (.inl ⟨opening, .inr ⟨rfl, keyword⟩⟩)
  | closing _ listed => rw [Tagged.isList, keyword] at listed; cases listed
  | handling opening _ => exact .inr (.inr opening)

theorem of_function (named : d.role = .binder .function) :
    role = .list false ∧ t.isMark .leftParen = true := by
  cases h with
  | property _ point => rw [dot] at point; cases point
  | first keyword => simp only [Tagged.isKeyword, named, Bool.or_self, Bool.false_eq_true] at keyword
  | function keyword => rw [Tagged.isKeyword, named] at keyword; cases keyword
  | handler caught => rw [named] at caught; cases caught
  | parameter listed =>
    rw [Tagged.isList, named] at listed
    rcases listed with list | separator
    · cases list
    · cases separator
  | list opening _ => exact ⟨rfl, opening⟩
  | caught _ keyword => rw [Tagged.isKeyword, named] at keyword; cases keyword
  | closing _ listed => rw [Tagged.isList, named] at listed; cases listed
  | handling _ keyword => rw [Tagged.isKeyword, named] at keyword; cases keyword

theorem of_caught (caught : d.role = .caught) : role = .binder .handler ∧
    (∃ w, t.freeWord? = some w) ∧ (front after).isMark .rightParen = true := by
  cases h with
  | property _ point => rw [dot] at point; cases point
  | first keyword => simp only [Tagged.isKeyword, caught, Bool.or_self, Bool.false_eq_true] at keyword
  | function keyword => rw [Tagged.isKeyword, caught] at keyword; cases keyword
  | handler _ free closes => exact ⟨rfl, free, closes⟩
  | parameter listed =>
    rw [Tagged.isList, caught] at listed
    rcases listed with list | separator
    · cases list
    · cases separator
  | list _ headed =>
    rw [Tagged.isKeyword, caught] at headed
    rcases headed with keyword | named
    · cases keyword
    · cases named
  | caught _ keyword => rw [Tagged.isKeyword, caught] at keyword; cases keyword
  | closing _ listed => rw [Tagged.isList, caught] at listed; cases listed
  | handling _ keyword => rw [Tagged.isKeyword, caught] at keyword; cases keyword

omit dot in
theorem of_other (other : d.role = .other) : role = .property := by
  have plain (w : String) : d.isKeyword w = false := by rw [Tagged.isKeyword, other]
  have unlisted : d.isList = false := by rw [Tagged.isList, other]
  cases h with
  | property => rfl
  | first keyword => simp only [plain, Bool.or_self, Bool.false_eq_true] at keyword
  | function keyword => rw [plain] at keyword; cases keyword
  | handler caught => rw [other] at caught; cases caught
  | parameter listed =>
    rw [unlisted, other] at listed
    rcases listed with list | separator
    · cases list
    · cases separator
  | list _ headed =>
    rw [plain, other] at headed
    rcases headed with keyword | named
    · cases keyword
    · cases named
  | caught _ keyword => rw [plain] at keyword; cases keyword
  | closing _ listed => rw [unlisted] at listed; cases listed
  | handling _ keyword => rw [plain] at keyword; cases keyword

theorem of_list (listed : d.isList = true ∨ d.role = .separator) :
    (role = .binder .parameter ∧ (∃ w, t.freeWord? = some w) ∧
      ((front after).isMark .comma = true ∨ (front after).isMark .rightParen = true ∨
        (front after).isMark .assign = true)) ∨ d.isList = true ∧ t.isMark .rightParen = true := by
  have plain (w : String) : d.isKeyword w = false := by
    rw [Tagged.isList] at listed
    rw [Tagged.isKeyword]
    split at listed <;> simp_all
  cases h with
  | property _ point => rw [dot] at point; cases point
  | first keyword => simp only [plain, Bool.or_self, Bool.false_eq_true] at keyword
  | function keyword => rw [plain] at keyword; cases keyword
  | handler caught => rw [Tagged.isList, caught] at listed; simp at listed
  | parameter _ free ends => exact .inl ⟨rfl, free, ends⟩
  | list _ headed =>
    rcases headed with keyword | named
    · rw [plain] at keyword
      cases keyword
    · rw [Tagged.isList, named] at listed
      simp at listed
  | caught _ keyword => rw [plain] at keyword; cases keyword
  | closing closes list => exact .inr ⟨list, closes⟩
  | handling _ keyword => rw [plain] at keyword; cases keyword

end Awaited

theorem Suits.not_text (h : Suits (d :: past) t after role) (awaits : d.awaits = true) (s : String) :
    t.kind ≠ .text s := by
  intro kind
  have unfree (free : ∃ w, t.freeWord? = some w) : False := by
    obtain ⟨w, free⟩ := free
    rw [Token.freeWord?, kind] at free
    cases free
  have unmarked {m : Mark} (mark : t.isMark m = true) : False := by
    rw [Token.isMark, kind] at mark
    cases mark
  cases h.awaited awaits with
  | property word _ =>
    obtain ⟨w, word⟩ := word
    rw [kind] at word
    cases word
  | first _ free => exact unfree free
  | function _ free => exact unfree free
  | handler _ free _ => exact unfree free
  | parameter _ free _ => exact unfree free
  | list opening _ => exact unmarked opening
  | caught opening _ => exact unmarked opening
  | closing closes _ => exact unmarked closes
  | handling opening _ => exact unmarked opening

inductive WordRole (past : List Tagged) (w : String) (after : List Token) : Role → Prop where
  | value (alone : isReserved w = true →
      (front after).isMark .comma = true ∨ (front after).isMark .rightBrace = true) :
    WordRole past w after .value
  | property (dot : ∃ d ∈ past.head?, d.token.isMark .dot = true) : WordRole past w after .property
  | key (colon : (front after).isMark .colon = true) : WordRole past w after .key
  | literal {l : Literal} (constant : literalOf? w = some l) : WordRole past w after .literal
  | keyword (statement : w ∈ statementWords) : WordRole past w after .keyword
  | binder {kind : Binder} (free : isReserved w = false) : WordRole past w after (.binder kind)

theorem Suits.of_word {w : String} (h : Suits past t after role) (kind : t.kind = .word w) :
    WordRole past w after role := by
  have unmarked {m : Mark} (mark : t.isMark m = true) : False := by
    rw [Token.isMark, kind] at mark
    cases mark
  have same {v : String} (kind' : t.kind = .word v) : w = v := TokenKind.word.inj (kind.symm.trans kind')
  cases role with
  | value =>
    obtain ⟨v, kind', alone⟩ := h.2
    exact .value (same kind' ▸ alone)
  | property => exact .property h.2
  | key => exact .key h.2.2
  | literal =>
    obtain ⟨v, l, kind', constant⟩ := h.2
    exact .literal (same kind' ▸ constant)
  | keyword =>
    obtain ⟨v, statement, kind'⟩ := h.2
    exact .keyword (same kind' ▸ statement)
  | binder _ =>
    obtain ⟨v, free⟩ := h.1
    obtain ⟨kind', unreserved⟩ := kind_of_freeWord free
    exact .binder (same kind' ▸ unreserved)
  | call _ => exact (unmarked h.1).elim
  | list _ => exact (unmarked h.1).elim
  | caught => exact (unmarked h.1).elim
  | separator => exact (unmarked h.1).elim
  | other => exact absurd kind (h.2.1 w)

theorem Suits.keyword_of_reserved {w : String} (h : Suits past t after role) (kind : t.kind = .word w)
    (reserved : isReserved w = true) (literal : literalOf? w = none)
    (member : ∀ d ∈ past.head?, d.token.isMark .dot = false) :
    role = .keyword ∨ (front after).isMark .comma = true ∨ (front after).isMark .rightBrace = true ∨
      (front after).isMark .colon = true := by
  cases h.of_word kind with
  | value alone => exact .inr ((alone reserved).imp_right .inl)
  | property before =>
    obtain ⟨d, head, dot⟩ := before
    rw [member d head] at dot
    cases dot
  | key colon => exact .inr (.inr (.inr colon))
  | literal constant =>
    rw [literal] at constant
    cases constant
  | keyword _ => exact .inl rfl
  | binder free =>
    rw [reserved] at free
    cases free

theorem Suits.of_mark {m : Mark} (h : Suits past t after role) (mark : t.isMark m = true) :
    role = .other ∨ m = .leftParen ∨ m = .comma ∧ role = .separator := by
  have kind := kind_of_isMark mark
  have unword {w : String} (word : t.kind = .word w) : False := by
    rw [kind] at word
    cases word
  have same {n : Mark} (other : t.isMark n = true) : m = n := by
    rw [Token.isMark, kind] at other
    exact beq_iff_eq.mp other
  cases role with
  | value => exact (unword h.2.choose_spec.1).elim
  | property => exact (unword h.1.choose_spec).elim
  | key => exact absurd kind (h.2.1 m)
  | literal => exact (unword h.2.choose_spec.choose_spec.1).elim
  | keyword => exact (unword h.2.choose_spec.2).elim
  | binder _ => exact (unword (kind_of_freeWord h.1.choose_spec).1).elim
  | call _ => exact .inr (.inl (same h.1))
  | list _ => exact .inr (.inl (same h.1))
  | caught => exact .inr (.inl (same h.1))
  | separator => exact .inr (.inr ⟨same h.1, rfl⟩)
  | other => exact .inl rfl

theorem Suits.arrow (h : Suits past t after role) (arrow : t.isMark .arrow = true) :
    ∃ d before, past = d :: before ∧
      (d.role = .binder .parameter ∨ d.token.isMark .rightParen = true ∧ InList true before) := by
  rcases h.of_mark arrow with rfl | paren | ⟨comma, _⟩
  · exact h.2.2.2.2 arrow
  · cases paren
  · cases comma

theorem Suits.comma (h : Suits past t after role) (comma : t.isMark .comma = true) :
    role = .separator ∨ Unlisted past := by
  rcases h.of_mark comma with rfl | paren | ⟨_, separator⟩
  · exact .inr (h.2.2.2.1 comma)
  · cases paren
  · exact .inl separator

theorem not_unlisted {inner : List Tagged} (listed : d.isList = true)
    (opens : bracketStep d.token ≠ 0) (plain : ∀ e ∈ inner, bracketStep e.token = 0) :
    ¬Unlisted (inner ++ d :: past) := by
  induction inner with
  | nil =>
    rw [List.nil_append, Unlisted, if_neg opens, listed]
    rintro ⟨⟩
  | cons e inner ih =>
    rw [List.cons_append, Unlisted, if_pos (plain e List.mem_cons_self)]
    exact ih fun e member => plain e (List.mem_cons_of_mem _ member)

end EmitterLogic.Script
