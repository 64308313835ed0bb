import EmitterLogic.Proofs.Script.Awaited
import EmitterLogic.Proofs.Tick.Pieces

namespace EmitterLogic.Tick

open Text Script Parser

section Checks

/-- Does something hold at each place of a list, of what is before it, the last first, and of what is
left from it on? -/
def everywhere {α : Type} (p : List α → List α → Bool) : List α → List α → Bool
  | past, [] => p past []
  | past, t :: rest => p past (t :: rest) && everywhere p (t :: past) rest

/-- The words after which the text is searched for names. -/
def tellingWords : List String := ["let", "const", "var", "function", "class", "catch"]

/-- A word that ends with a telling word is that word, and no member. -/
def wordsTell (past rest : List Token) : Bool :=
  match rest with
  | ⟨.word w, _, _⟩ :: _ => tellingWords.all fun k =>
      !endsWithWord k w.toList || (w == k && !past.head?.any (·.isMark .dot))
  | _ => true

/-- A word that is declared is a name. -/
def namesTold (past rest : List Token) : Bool :=
  match rest with
  | ⟨.word w, _, _⟩ :: _ =>
    !past.head?.any (fun d => ["let", "const", "var", "function"].any d.isWord) || isName w
  | _ => true

/-- Are the last tokens the keyword of a function, with or without a name after it? -/
def headsFunction : List Token → Bool
  | [] => false
  | d :: past => d.isWord "function" || past.head?.any (·.isWord "function")

/-- Does a list of parameters begin here? -/
def listBegins (past rest : List Token) : Bool :=
  (front rest).isMark .leftParen && (arrowAhead rest || headsFunction past)

/-- A list of parameters ends at the first parenthesis in it, and that of an arrow function stands in
no parentheses that have just been opened. -/
def listsTold (past rest : List Token) : Bool :=
  !listBegins past rest ||
    match rest.tail.dropWhile fun t => !isParen t with
    | [] => false
    | c :: more => c.isMark .rightParen && (!arrowAhead rest ||
        ((front more).isMark .arrow && !(past.find? isParen).any (·.isMark .leftParen)))

/-- A parameter without parentheses is a name that begins with no dollar sign. -/
def bareNamesTold (rest : List Token) : Bool :=
  match rest with
  | ⟨.word w, _, _⟩ :: more =>
    !(front more).isMark .arrow || (isName w && w.toList.head? != some '$')
  | _ => true

/-- A list of parameters holds no brackets. -/
def listsPlain (past rest : List Token) : Bool :=
  !listBegins past rest || (rest.tail.takeWhile fun t => !isParen t).all fun t => bracketStep t == 0

/-- Can the bound names be told, as far as each place of a script shows? -/
def tellsAt (past rest : List Token) : Bool :=
  wordsTell past rest && namesTold past rest && listsTold past rest && bareNamesTold rest

/-- No quoted text holds a line break after a reversed slash: then each is seen to its end. -/
def isUnquoted (s : List Char) : Bool := (blanked s).all fun c => !isQuote c

/-- Can the names that a script binds be told without parsing it? -/
def isRegular (source : String) : Bool :=
  isUnquoted source.toList &&
    match tokens source with
    | .ok ts => everywhere tellsAt [] ts
    | .error _ => false

/-- Is nothing else in a script taken for a bound name? -/
def isExact (source : String) : Bool :=
  isRegular source &&
    match tokens source with
    | .ok ts => everywhere listsPlain [] ts
    | .error _ => false

end Checks

theorem everywhere_append {α : Type} {p : List α → List α → Bool} {past a z : List α}
    (h : everywhere p past (a ++ z) = true) : everywhere p (a.reverse ++ past) z = true := by
  induction a generalizing past with
  | nil => exact h
  | cons t a ih =>
    rw [List.cons_append, everywhere, Bool.and_eq_true] at h
    rw [List.reverse_cons, List.append_assoc]
    exact ih h.2

theorem everywhere_here {α : Type} {p : List α → List α → Bool} {past : List α} {z : List α}
    (h : everywhere p past z = true) : p past z = true := by
  cases z with
  | nil => exact h
  | cons t z =>
    rw [everywhere, Bool.and_eq_true] at h
    exact h.1

theorem unquoted_of_isUnquoted {s : List Char} (h : isUnquoted s = true) : Unquoted s := by
  intro c member
  simpa using List.all_eq_true.mp h c member

structure Regular (ps : List Piece) : Prop where
  words : ∀ {a p z w k}, ps = a ++ p :: z → p.token.kind = .word w → k ∈ tellingWords →
    endsWithWord k w.toList = true → w = k ∧ ∀ d ∈ a.getLast?, d.token.isMark .dot = false
  names : ∀ {a d p z w k}, ps = a ++ d :: p :: z → k ∈ ["let", "const", "var", "function"] →
    d.token.isWord k = true → p.token.kind = .word w → isName w = true
  lists : ∀ {a o z arrow}, ps = a ++ o :: z → o.role = .list arrow →
    ∃ inner c more, z = inner ++ c :: more ∧ (∀ q ∈ inner, isParen q.token = false) ∧
      c.token.isMark .rightParen = true ∧
        (arrow = true → ∃ q more', more = q :: more' ∧ q.token.isMark .arrow = true)
  outer : ∀ {a o z}, ps = a ++ o :: z → o.role = .list true →
    ∀ d ∈ a.reverse.find? fun d => isParen d.token, d.token.isMark .leftParen = false
  bare : ∀ {a p q z w}, ps = a ++ p :: q :: z → p.token.kind = .word w →
    q.token.isMark .arrow = true → isName w = true ∧ w.toList.head? ≠ some '$'

section Regular

variable {b : List Char} {ps a z : List Piece} {p o : Piece} {tail : List Char} {fin : Token}

theorem tells_split {p : List Token → List Token → Bool}
    (tells : everywhere p [] (ps.map (·.token) ++ [fin]) = true) (whole : ps = a ++ z) :
    p (a.map (·.token)).reverse (z.map (·.token) ++ [fin]) = true := by
  rw [whole, List.map_append, List.append_assoc] at tells
  have here := everywhere_here (everywhere_append tells)
  rwa [List.append_nil] at here

theorem exists_word {t : Token} {w : String} (kind : t.kind = .word w) :
    ∃ position broken, t = ⟨.word w, position, broken⟩ := by
  obtain ⟨k, position, broken⟩ := t
  have kind : k = .word w := kind
  exact ⟨position, broken, by rw [kind]⟩

theorem exists_last {P : Tagged → Prop} (h : ∃ d ∈ (a.reverse.map Piece.toTagged).head?, P d) :
    ∃ a' q, a = a' ++ [q] ∧ P q.toTagged := by
  obtain ⟨d, head, holds⟩ := h
  rcases List.eq_nil_or_concat a with rfl | ⟨a', q, rfl⟩
  · cases head
  · rw [List.concat_eq_append, List.reverse_append] at head
    obtain rfl : q.toTagged = d := Option.some.inj head
    exact ⟨a', q, List.concat_eq_append, holds⟩

theorem keyword_of_isKeyword {d : Tagged} {w : String} (h : d.isKeyword w = true) :
    d.role = .keyword ∧ d.token.kind = .word w := by
  rw [Tagged.isKeyword] at h
  split at h
  · next role => exact ⟨role, kind_of_isWord h⟩
  · cases h

theorem isWord_of_kind {t : Token} {w : String} (kind : t.kind = .word w) : t.isWord w = true := by
  rw [Token.isWord, kind]
  exact beq_self_eq_true w

theorem tokens_before (a : List Piece) : (a.map (·.token)).reverse = a.reverse.map (·.token) :=
  List.map_reverse.symm

theorem headsFunction_of_keyword {q : Piece} (keyword : q.toTagged.isKeyword "function" = true) :
    (q.token.isWord "function") = true := isWord_of_kind (keyword_of_isKeyword keyword).2

theorem listBegins_of_role (h : Composed b ps tail fin) (whole : ps = a ++ o :: z) {arrow : Bool}
    (role : o.role = .list arrow) :
    listBegins (a.map (·.token)).reverse ((o :: z).map (·.token) ++ [fin]) = true ∧
      (arrow = true → arrowAhead ((o :: z).map (·.token) ++ [fin]) = true) := by
  have suits := h.suits whole
  rw [role] at suits
  obtain ⟨opening, headed⟩ := suits
  rw [listBegins, Bool.and_eq_true, Bool.or_eq_true]
  refine ⟨⟨opening, ?_⟩, ?_⟩
  · cases arrow with
    | true => exact .inl headed.2.2
    | false =>
      rcases headed with keyword | named
      · obtain ⟨a', q, rfl, here⟩ := exists_last keyword
        refine .inr ?_
        rw [tokens_before, List.reverse_append]
        simp only [List.reverse_singleton, List.singleton_append, List.map_cons, headsFunction,
          headsFunction_of_keyword here, Bool.true_or]
      · obtain ⟨a', q, rfl, here⟩ := exists_last named
        have suits := h.suits (a := a') (p := q) (z := o :: z) (by rw [whole, List.append_assoc]; rfl)
        rw [show q.role = .binder .function from here] at suits
        obtain ⟨a'', r, rfl, keyword⟩ := exists_last suits.2
        refine .inr ?_
        rw [tokens_before, List.reverse_append, List.reverse_append]
        simp only [List.reverse_singleton, List.singleton_append, List.map_cons, headsFunction,
          List.head?_cons, Option.any_some, headsFunction_of_keyword keyword, Bool.or_true]
  · rintro rfl
    exact headed.2.2

theorem first_paren (finish : fin.isFinish = true) {c : Token} {more : List Token}
    (h : (z.map (·.token) ++ [fin]).dropWhile (fun t => !isParen t) = c :: more) :
    ∃ inner q z', z = inner ++ q :: z' ∧ (∀ r ∈ inner, isParen r.token = false) ∧ c = q.token ∧
      more = z'.map (·.token) ++ [fin] := by
  induction z with
  | nil =>
    have plain : isParen fin = false := by
      rw [isParen, Token.isMark, Token.isMark, kind_of_isFinish finish]
      rfl
    rw [List.map_nil, List.nil_append, List.dropWhile_cons_of_pos (by rw [plain]; rfl)] at h
    cases h
  | cons p z ih =>
    rw [List.map_cons, List.cons_append] at h
    cases paren : isParen p.token with
    | true =>
      rw [List.dropWhile_cons_of_neg (by rw [paren]; exact Bool.false_ne_true)] at h
      cases h
      exact ⟨[], p, z, rfl, List.forall_mem_nil _, rfl, rfl⟩
    | false =>
      rw [List.dropWhile_cons_of_pos (by rw [paren]; rfl)] at h
      obtain ⟨inner, q, z', rfl, plain, same, left⟩ := ih h
      exact ⟨p :: inner, q, z', rfl, List.forall_mem_cons.mpr ⟨paren, plain⟩, same, left⟩

theorem front_mark {m : Mark} (finish : fin.isFinish = true)
    (mark : (front (z.map (·.token) ++ [fin])).isMark m = true) :
    ∃ q z', z = q :: z' ∧ q.token.isMark m = true := by
  cases z with
  | nil =>
    have mark : fin.isMark m = true := mark
    rw [Token.isMark, kind_of_isFinish finish] at mark
    cases mark
  | cons q z => exact ⟨q, z, rfl, mark⟩

theorem regular_of_tells (h : Composed b ps tail fin)
    (tells : everywhere tellsAt [] (ps.map (·.token) ++ [fin]) = true) : Regular ps := by
  have told {a z : List Piece} (whole : ps = a ++ z) :
      tellsAt (a.map (·.token)).reverse (z.map (·.token) ++ [fin]) = true := tells_split tells whole
  simp only [tellsAt, Bool.and_eq_true] at told
  refine { words := ?words, names := ?names, lists := ?lists, outer := ?outer, bare := ?bare }
  case words =>
    intro a p z w k whole kind member ends
    have tell := (told whole).1.1.1
    obtain ⟨position, broken, token⟩ := exists_word kind
    rw [List.map_cons, List.cons_append, token, wordsTell] at tell
    have found := List.all_eq_true.mp tell k member
    rw [ends, Bool.not_true, Bool.false_or, Bool.and_eq_true, beq_iff_eq] at found
    refine ⟨found.1, fun d last => ?_⟩
    have none := found.2
    rw [List.head?_reverse, List.getLast?_map, Option.mem_def.mp last] at none
    simpa using none
  case names =>
    intro a d p z w k whole member word kind
    have tell := (told (a := a ++ [d]) (z := p :: z) (by rw [whole, List.append_assoc]; rfl)).1.1.2
    obtain ⟨position, broken, token⟩ := exists_word kind
    rw [List.map_cons, List.cons_append, token, namesTold, tokens_before, List.reverse_append] at tell
    have declared : (["let", "const", "var", "function"].any d.token.isWord) = true :=
      List.any_eq_true.mpr ⟨k, member, word⟩
    rw [List.reverse_singleton, List.singleton_append, List.map_cons, List.head?_cons,
      Option.any_some, declared] at tell
    exact tell
  case lists =>
    intro a o z arrow whole role
    have tell := (told whole).1.2
    obtain ⟨begins, ahead⟩ := listBegins_of_role h whole role
    rw [listsTold, begins, Bool.not_true, Bool.false_or, List.map_cons, List.cons_append,
      List.tail_cons] at tell
    split at tell
    · cases tell
    · next c more found =>
      obtain ⟨inner, q, z', rfl, plain, rfl, rfl⟩ := first_paren h.finish found
      rw [Bool.and_eq_true] at tell
      refine ⟨inner, q, z', rfl, plain, tell.1, fun arrow => ?_⟩
      have ahead : arrowAhead (o.token :: ((inner ++ q :: z').map (·.token) ++ [fin])) = true :=
        ahead arrow
      have after := tell.2
      rw [ahead, Bool.not_true, Bool.false_or, Bool.and_eq_true] at after
      obtain ⟨r, z'', rfl, mark⟩ := front_mark h.finish after.1
      exact ⟨r, z'', rfl, mark⟩
  case outer =>
    intro a o z whole role d found
    have tell := (told whole).1.2
    obtain ⟨begins, ahead⟩ := listBegins_of_role h whole role
    rw [listsTold, begins, Bool.not_true, Bool.false_or] at tell
    split at tell
    · cases tell
    · next c more _ =>
      rw [ahead rfl, Bool.not_true, Bool.false_or, Bool.and_eq_true, Bool.and_eq_true,
        tokens_before, List.find?_map] at tell
      have found' : a.reverse.find? (isParen ∘ fun p => p.token) = some d := found
      have last := tell.2.2
      rw [found', Option.map_some, Option.any_some, Bool.not_eq_true'] at last
      exact last
  case bare =>
    intro a p q z w whole kind arrow
    have tell := (told whole).2
    obtain ⟨position, broken, token⟩ := exists_word kind
    have next : (front (q.token :: (z.map (·.token) ++ [fin]))).isMark .arrow = true := arrow
    rw [List.map_cons, List.map_cons, List.cons_append, List.cons_append, token, bareNamesTold,
      next, Bool.not_true, Bool.false_or, Bool.and_eq_true] at tell
    exact ⟨tell.1, by simpa using tell.2⟩

theorem plain_list (h : Composed b ps tail fin)
    (plain : everywhere listsPlain [] (ps.map (·.token) ++ [fin]) = true) {arrow : Bool}
    {inner : List Piece} (whole : ps = a ++ o :: (inner ++ p :: z)) (role : o.role = .list arrow)
    (unparen : ∀ q ∈ inner, isParen q.token = false) :
    ∀ q ∈ inner, bracketStep q.token = 0 := by
  have told := tells_split plain whole
  rw [listsPlain, (listBegins_of_role h whole role).1, Bool.not_true, Bool.false_or, List.map_cons,
    List.cons_append, List.tail_cons, List.map_append, List.append_assoc, List.all_eq_true] at told
  intro q member
  have first : q.token ∈ (inner.map (·.token) ++ ((p :: z).map (·.token) ++ [fin])).takeWhile
      fun t => !isParen t := by
    rw [List.takeWhile_append_of_pos]
    · exact List.mem_append_left _ (List.mem_map_of_mem member)
    · intro t member
      obtain ⟨r, there, rfl⟩ := List.mem_map.mp member
      rw [unparen r there]
      rfl
  exact beq_iff_eq.mp (told q.token first)

theorem exists_regular {source : String} {program : Program}
    (parsed : parseProgram source = .ok program) (regular : isRegular source = true) :
    ∃ ps tail fin, Composed (blanked source.toList) ps tail fin ∧ Regular ps ∧
      program.sites = ps.flatMap Piece.sites ∧
        tokens source = .ok (ps.map (·.token) ++ [fin]) := by
  rw [isRegular, Bool.and_eq_true] at regular
  obtain ⟨ps, tail, fin, composed, sites, read⟩ :=
    exists_composed parsed (unquoted_of_isUnquoted regular.1)
  have tells := regular.2
  rw [read] at tells
  exact ⟨ps, tail, fin, composed, regular_of_tells composed tells, sites, read⟩

end Regular

end EmitterLogic.Tick
