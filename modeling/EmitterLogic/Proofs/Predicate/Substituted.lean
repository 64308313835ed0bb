import EmitterLogic.Proofs.Predicate.Magnitude

namespace EmitterLogic

namespace Predicate

open Kotlin Text Script

variable {names : List (String × String)} {map : NameMap} {rest : List Char} {ps qs : List Part}
  {p : Part} {kind : TokenKind} {cs : List Char} {before : Option Char} {head : Option Char}

section Passes

variable {key t : String} {k : TokenKind} {ks : List TokenKind} {place : Nat} {broken : Bool}

theorem laid_kinds : (laid rest place broken ps).map Token.kind = ps.map Part.kind ++ [.finish] := by
  induction ps generalizing place broken with
  | nil => rfl
  | cons p ps ih => rw [laid, List.map_cons, ih, List.map_cons, List.cons_append]

theorem Fits.kinds (fits : Fits qs t) : kindsOf t = qs.map Part.kind := by
  have written := fits.written [] (by rintro _ ⟨⟩) fun _ => by rintro ⟨⟩
  rw [kindsOf, tokens, ← fits.text, written.reads allBlank_nil]
  dsimp only
  rw [laid_kinds, List.dropLast_concat]

theorem replacement_other (other : ∀ n ∈ names, k ≠ .word n.1) : replacement names k = [k] := by
  have none : names.find? (fun n => k.isWord n.1) = none := by
    rw [List.find?_eq_none]
    exact fun n listed same => other n listed (TokenKind.isWord_iff.mp same)
  rw [replacement, none]

theorem flatMap_replacement (other : ∀ k ∈ ks, ∀ n ∈ names, k ≠ .word n.1) :
    ks.flatMap (replacement names) = ks := by
  induction ks with
  | nil => rfl
  | cons k ks ih =>
    rw [List.forall_mem_cons] at other
    rw [List.flatMap_cons, replacement_other other.1, ih other.2, List.singleton_append]

theorem placed_kinds {g : List Char} : (placed g qs).map Part.kind = qs.map Part.kind := by
  cases qs <;> rfl

theorem renamed_kinds (fits : Fits qs t) (fresh : ∀ n ∈ names, ∀ q ∈ qs, q.kind ≠ .word n.1)
    (p : Part) : ((renamed key qs p).map Part.kind).flatMap (replacement names) =
      replacement ((key, t) :: names) p.kind := by
  rw [renamed, replacement.eq_def ((key, t) :: names)]
  split
  · next same =>
    have others : ∀ k ∈ qs.map Part.kind, ∀ n ∈ names, k ≠ .word n.1 := by
      intro k member n listed
      obtain ⟨q, inside, rfl⟩ := List.mem_map.mp member
      exact fresh n listed q inside
    have found : ((key, t) :: names).find? (fun n => p.kind.isWord n.1) = some (key, t) :=
      List.find?_cons_of_pos same
    rw [found, placed_kinds, flatMap_replacement others]
    exact fits.kinds.symm
  · next other =>
    have passed : ((key, t) :: names).find? (fun n => p.kind.isWord n.1) =
        names.find? fun n => p.kind.isWord n.1 := List.find?_cons_of_neg other
    rw [passed, List.map_singleton, List.flatMap_singleton]
    rfl

theorem exists_replaced (keys : ∀ n ∈ names, IsKey n.1) (targets : ∀ n ∈ names, IsTarget n.2)
    (later : names.Pairwise fun n m => ∀ k ∈ kindsOf n.2, k ≠ .word m.1) (h : Written rest ps)
    (blank : AllBlank rest) (sits : ps.IsChain (Part.Sits names)) :
    ∃ qs, names.foldl (fun text n => replaceWord n.1 n.2 text) (String.ofList (joined rest ps)) =
        String.ofList (joined rest qs) ∧ Written rest qs ∧
      qs.map Part.kind = (ps.map Part.kind).flatMap (replacement names) := by
  induction names generalizing ps with
  | nil => exact ⟨ps, rfl, h, (flatMap_replacement fun _ _ _ listed => absurd listed List.not_mem_nil).symm⟩
  | cons n names ih =>
    rw [List.forall_mem_cons] at keys targets
    rw [List.pairwise_cons] at later
    obtain ⟨qs, fits⟩ := targets.1.fits
    have fresh : ∀ m ∈ names, ∀ q ∈ qs, q.kind ≠ .word m.1 := fun m listed q inside =>
      later.1 m listed q.kind (fits.kinds ▸ List.mem_map_of_mem inside)
    have pass : replaceWord n.1 n.2 (String.ofList (joined rest ps)) =
        String.ofList (joined rest (ps.flatMap (renamed n.1 qs))) := by
      rw [replaceWord, String.toList_ofList, replaceAll]
      exact congrArg String.ofList
        (replacing_replaces keys.1 fits.toSpelledBy h blank (.of_before rfl))
    obtain ⟨qs', text, written, kinds⟩ :=
      ih keys.2 targets.2 later.2 (h.renamed fits blank sits) (renamed_sits fits fresh sits)
    refine ⟨qs', ?_, written, ?_⟩
    · rw [List.foldl_cons, pass, text]
    · rw [kinds, List.map_flatMap, List.flatMap_assoc, List.flatMap_map]
      exact congrArg (ps.flatMap ·) (funext (renamed_kinds fits fresh))

theorem foldl_substitute (map : NameMap) (text : String) :
    contextKeys.foldl (substitute map) text =
      (replacedNames map).foldl (fun text n => replaceWord n.1 n.2 text) text := by
  rw [replacedNames, List.foldl_filterMap]
  refine congrArg (fun f => contextKeys.foldl f text) (funext fun text => funext fun k => ?_)
  obtain ⟨key, otherName⟩ := k
  simp only [substitute]
  split <;> rfl

theorem replacedNames_keys {n : String × String} (listed : n ∈ replacedNames map) :
    IsKey n.1 ∧ ∀ w ∈ ["kotlin", "math", "abs"], n.1 ≠ w := by
  have all : (contextKeys.all fun k => isIdentChars k.1.toList &&
      (k.1.toList.head?.all fun c => !numberChars.contains c) &&
        !(["kotlin", "math", "abs"].contains k.1)) = true := by decide +kernel
  rw [replacedNames, List.mem_filterMap] at listed
  obtain ⟨⟨key, otherName⟩, member, found⟩ := listed
  have same : n.1 = key := by
    dsimp only at found
    split at found
    · cases found
    · exact congrArg Prod.fst (Option.some.inj found).symm
  have key := List.all_eq_true.mp all _ member
  rw [← same, Bool.and_eq_true, Bool.and_eq_true, Option.all_eq_true] at key
  obtain ⟨⟨ident, first⟩, spares⟩ := key
  refine ⟨⟨ident, fun c head number => ?_⟩, fun w listed same => ?_⟩
  · have other := first c head
    rw [List.contains_iff_mem.mpr number] at other
    cases other
  · rw [same, List.contains_iff_mem.mpr listed] at spares
    cases spares

end Passes

section Tokens

variable {strict loose : Mark} {k : TokenKind} {ks : List TokenKind} {place : Nat} {broken : Bool}

theorem loosened_word {w : String} : (loosened strict loose p).kind = .word w ↔ p.kind = .word w := by
  rw [loosened]
  split
  · next same =>
    rw [TokenKind.isMark_iff.mp same]
    exact ⟨(by rintro ⟨⟩), (by rintro ⟨⟩)⟩
  · exact Iff.rfl

theorem loosened_mark {m : Mark} (other : m ≠ strict) (other' : m ≠ loose) :
    (loosened strict loose p).kind = .mark m ↔ p.kind = .mark m := by
  rw [loosened]
  split
  · next same =>
    rw [TokenKind.isMark_iff.mp same]
    constructor
    · rintro ⟨⟩
      exact absurd rfl other'
    · rintro ⟨⟩
      exact absurd rfl other
  · exact Iff.rfl

theorem loosened_sits (loosens : Loosens strict loose) (sits : ps.IsChain (Part.Sits names)) :
    (ps.map (loosened strict loose)).IsChain (Part.Sits names) := by
  have dot : Mark.dot ≠ strict ∧ Mark.dot ≠ loose := by cases loosens <;> decide
  have minus : Mark.minus ≠ strict ∧ Mark.minus ≠ loose := by cases loosens <;> decide
  rw [List.isChain_map]
  refine sits.imp fun p q h => ⟨fun same n listed word => ?_, fun n listed numeric word => ?_,
    fun same near n listed signed word => ?_⟩
  · exact h.member ((loosened_mark dot.1 dot.2).mp same) n listed (loosened_word.mp word)
  · have next := h.number n listed numeric (loosened_word.mp word)
    rw [loosened]
    split
    · exact .inr ⟨loose, dot.2.symm, rfl⟩
    · exact next
  · rw [loosened_gap] at near
    exact h.sign ((loosened_mark minus.1 minus.2).mp same) near n listed signed (loosened_word.mp word)

theorem beginsMagnitude_loosened (loosens : Loosens strict loose) (ps : List Part) :
    beginsMagnitude ((ps.map (loosened strict loose)).map Part.kind) =
      beginsMagnitude (ps.map Part.kind) := by
  have dot : Mark.dot ≠ strict ∧ Mark.dot ≠ loose := by cases loosens <;> decide
  have paren : Mark.leftParen ≠ strict ∧ Mark.leftParen ≠ loose := by cases loosens <;> decide
  rcases ps with _ | ⟨a, _ | ⟨b, _ | ⟨c, _ | ⟨d, ps⟩⟩⟩⟩
  · rfl
  · rfl
  · rfl
  · rfl
  · rw [Bool.eq_iff_iff]
    simp only [List.map_cons, beginsMagnitude, Bool.and_eq_true, TokenKind.isWord_iff,
      TokenKind.isMark_iff, loosened_word, loosened_mark dot.1 dot.2, loosened_mark paren.1 paren.2]

theorem Magnified.loosened (loosens : Loosens strict loose) (h : Magnified ps qs) :
    Magnified (ps.map (loosened strict loose)) (qs.map (loosened strict loose)) := by
  induction h with
  | nil => exact .nil
  | @keep p ps qs other more ih =>
    refine .keep ?_ ih
    rw [← other]
    exact beginsMagnitude_loosened loosens (p :: ps)
  | @call a b c d ps qs begins near more ih =>
    have kept (g : List Char) :
        (magnitudeParts g).map (Predicate.loosened strict loose) = magnitudeParts g := by
      cases loosens <;> rfl
    have begins' := (beginsMagnitude_loosened loosens [a, b, c, d]).trans begins
    have call := Magnified.call begins' (by rwa [loosened_gap, loosened_gap]) ih
    rw [loosened_gap] at call
    rwa [List.map_append, kept]

theorem loosened_kinds : (((ps.map (loosened .strictNe .looseNe)).map
    (loosened .strictEq .looseEq)).map Part.kind) = (ps.map Part.kind).map loosenedKind := by
  rw [List.map_map, List.map_map, List.map_map]
  refine congrArg (fun f => List.map f ps) (funext fun p => ?_)
  obtain ⟨g, kind, chars⟩ := p
  cases kind with
  | mark m => cases m <;> rfl
  | _ => rfl

theorem beginsMagnitude_finish (ks : List TokenKind) :
    beginsMagnitude (ks ++ [.finish]) = beginsMagnitude ks := by
  rcases ks with _ | ⟨a, _ | ⟨b, _ | ⟨c, _ | ⟨d, ks⟩⟩⟩⟩
  · rfl
  · rfl
  · rfl
  · simp [beginsMagnitude, TokenKind.isMark]
  · rfl

theorem loosenedKind_word {w : String} : loosenedKind k = .word w ↔ k = .word w := by
  unfold loosenedKind
  split <;> simp

theorem Magnified.kinds (h : Magnified ps qs) (spares : SparesMagnitude names)
    (sits : ps.IsChain (Part.Sits names)) (isMember : Bool)
    (outside : isMember = true → ∀ p ∈ ps.head?, ∀ n ∈ names, p.kind ≠ .word n.1) :
    substitutedFrom names 0 isMember (ps.map Part.kind ++ [.finish]) =
      ((qs.map Part.kind).map loosenedKind).flatMap (replacement names) ++ [.finish] := by
  have finish : replacement names .finish = [.finish] := replacement_other fun _ _ => nofun
  -- `isMember` is the only thing that the token in front passes on.
  induction h generalizing isMember with
  | nil =>
    have own : (if isMember = true then [.finish] else replacement names .finish) =
        [TokenKind.finish] := by rw [finish, ite_self]
    exact (List.append_nil _).trans own
  | @keep p ps qs other more ih =>
    rw [List.isChain_cons] at sits
    have later : p.kind.isMark .dot = true → ∀ q ∈ ps.head?, ∀ n ∈ names, q.kind ≠ .word n.1 :=
      fun dot q head => (sits.1 q head).member (TokenKind.isMark_iff.mp dot)
    have own : (if isMember = true then [loosenedKind p.kind]
        else replacement names (loosenedKind p.kind)) = replacement names (loosenedKind p.kind) := by
      split
      · next inside =>
        refine (replacement_other fun n listed word => ?_).symm
        exact outside inside p rfl n listed (loosenedKind_word.mp word)
      · rfl
    have none : ¬beginsMagnitude (p.kind :: (ps.map Part.kind ++ [.finish])) = true := by
      have same := beginsMagnitude_finish ((p :: ps).map Part.kind)
      rw [List.map_cons, List.cons_append] at same
      rw [same]
      exact Bool.eq_false_iff.mp other
    rw [List.map_cons, List.cons_append, substitutedFrom, if_neg none, own, ih sits.2 _ later,
      List.map_cons, List.map_cons, List.flatMap_cons, List.append_assoc]
  | @call a b c d ps qs begins near more ih =>
    have kept : (((magnitudeParts a.gap).map Part.kind).map loosenedKind).flatMap
        (replacement names) = magnitudeKinds := by
      refine flatMap_replacement fun k member n listed => ?_
      have member : k ∈ (magnitudeParts a.gap).map Part.kind := member
      obtain ⟨q, inside, rfl⟩ := List.mem_map.mp member
      exact spares.other inside n listed
    have unfolded : substitutedFrom names 0 isMember
        ((a :: b :: c :: d :: ps).map Part.kind ++ [.finish]) =
        magnitudeKinds ++ substitutedFrom names 0 false (ps.map Part.kind ++ [.finish]) :=
      if_pos begins
    have rest' := ih sits.tail.tail.tail.tail false nofun
    rw [unfolded, rest', List.map_append, List.map_append, List.flatMap_append, kept, List.append_assoc]

end Tokens

section Code

variable {place : Nat} {broken : Bool} {ts us : List Token}

theorem Written.of_append (h : Written rest (ps ++ qs)) : Written rest qs := by
  induction ps with
  | nil => exact h
  | cons p ps ih =>
    cases h with
    | cons gap firm more => exact ih more

theorem laid_append (ps qs : List Part) (place : Nat) (broken : Bool) : ∃ before place' broken',
    laid rest place broken (ps ++ qs) = before ++ laid rest place' broken' qs := by
  induction ps generalizing place broken with
  | nil => exact ⟨[], place, broken, rfl⟩
  | cons p ps ih =>
    obtain ⟨before, place', broken', more⟩ := ih (place + p.gap.length + p.chars.length) false
    exact ⟨_ :: before, place', broken', by rw [List.cons_append, laid, more, List.cons_append]⟩

theorem laid_ended : Ended (laid rest place broken ps) := by
  obtain ⟨before, place', broken', same⟩ := laid_append ps [] place broken
  rw [List.append_nil, laid] at same
  rw [same]
  exact ⟨_, List.getLast?_concat, rfl⟩

theorem closelyWritten_append {ts us : List Token} (h : closelyWritten (ts ++ us) = true) :
    closelyWritten us = true := by
  induction ts with
  | nil => exact h
  | cons t ts ih =>
    rw [List.cons_append, closelyWritten, Bool.and_eq_true] at h
    exact ih h.2

theorem gaps_of_laid (h : Written rest ps)
    (closely : closelyWritten (laid rest place broken ps) = true) :
    ∀ a b c d, [a, b, c, d] <:+: ps → beginsMagnitude ([a, b, c, d].map Part.kind) = true →
      b.gap = [] ∧ c.gap = [] := by
  rintro a b c d ⟨before, after, split⟩ begins
  rw [List.append_assoc] at split
  subst split
  obtain ⟨front, place', broken', same⟩ := laid_append before ([a, b, c, d] ++ after) place broken
  obtain ⟨t, u, v, w, left, unfolded, kinds, second, third⟩ : ∃ t u v w left,
      laid rest place' broken' ([a, b, c, d] ++ after) = [t, u, v, w] ++ left ∧
        [t, u, v, w].map Token.kind = [a, b, c, d].map Part.kind ∧
        u.position = t.position + a.chars.length + b.gap.length ∧
        v.position = u.position + b.chars.length + c.gap.length :=
    ⟨_, _, _, _, _, rfl, rfl, rfl, rfl⟩
  rw [same, unfolded] at closely
  have call : beginsMagnitude (([t, u, v, w] ++ left).map Token.kind) = true := by
    have short : beginsMagnitude ([t, u, v, w].map Token.kind) = true := by rw [kinds, begins]
    exact short
  have near := closelyWritten_append closely
  rw [List.cons_append, closelyWritten, Bool.and_eq_true, Bool.or_eq_true, Bool.not_eq_true'] at near
  have near : frontsMagnitude (t :: u :: v :: w :: left) = true :=
    near.1.resolve_left (Bool.not_eq_false _ ▸ call)
  rw [frontsMagnitude, Bool.and_eq_true, beq_iff_eq, beq_iff_eq] at near
  obtain ⟨near, near'⟩ := near
  obtain ⟨math, _, others⟩ := of_beginsMagnitude begins
  simp only [List.map_cons, List.map_nil, List.cons.injEq] at others
  have first : a.chars.length = 4 := by
    cases h.of_append with
    | cons gap firm more =>
      rw [math] at firm
      rw [firm.word_chars]
      decide
  have first' : b.chars.length = 1 := by
    cases h.of_append with
    | cons gap firm more =>
      cases more with
      | cons gap firm more =>
        rw [others.1] at firm
        rw [firm.mark_chars]
        decide
  exact ⟨List.eq_nil_of_length_eq_zero (by omega), List.eq_nil_of_length_eq_zero (by omega)⟩

theorem sits_of_laid (h : Written rest ps)
    (sits : (laid rest place broken ps).IsChain fun t u =>
      Sits names t.kind u.kind (u.position = t.position + 1)) : ps.IsChain (Part.Sits names) := by
  induction h generalizing place broken with
  | nil => exact .nil
  | @cons p ps gap firm more ih =>
    rw [laid] at sits
    rw [List.isChain_cons]
    refine ⟨fun q head => ?_, ih sits.tail⟩
    cases more with
    | nil => cases head
    | @cons q' ps gap' firm' more =>
      cases head
      rw [laid, List.isChain_cons_cons] at sits
      obtain ⟨member, number, sign⟩ := sits.1
      refine ⟨member, number, fun minus near => sign minus ?_⟩
      have kind : p.kind = .mark .minus := minus
      rw [kind] at firm
      have chars : p.chars.length = 1 := by
        rw [firm.mark_chars]
        decide
      dsimp only
      rw [near, chars, List.length_nil]

theorem Written.kind_ne_finish (h : Written rest ps) : ∀ p ∈ ps, p.kind ≠ .finish := by
  induction h with
  | nil => exact nofun
  | cons gap firm more ih =>
    refine List.forall_mem_cons.mpr ⟨fun finish => ?_, ih⟩
    rw [finish] at firm
    cases firm

theorem apart_of_laid {ts : List Token} (split : laid rest place broken ps = ts ++ us)
    (h : Written rest ps) (balanced : Balanced ts) (finish : (Parser.front us).isFinish = true) :
    ps.IsChain fun p q => p.kind.Apart q.kind := by
  have chain : (ts.map Token.kind).IsChain TokenKind.Apart := by
    rw [List.isChain_map]
    exact balanced.apart
  have kinds : ps.map Part.kind ++ [.finish] = ts.map Token.kind ++ us.map Token.kind := by
    rw [← laid_kinds, split, List.map_append]
  have mapped : (ps.map Part.kind).IsChain TokenKind.Apart := by
    rcases List.append_eq_append_iff.mp kinds with ⟨ks, same, _⟩ | ⟨ks, same, after⟩
    · rw [same, List.isChain_append] at chain
      exact chain.1
    · cases ks with
      | nil => rwa [same, List.append_nil]
      | cons k ks =>
        -- The end would stand before a token of the text.
        cases us with
        | nil => cases after
        | cons u us =>
          rw [List.map_cons, List.cons_append] at after
          have ends : k = .finish := by
            rw [← (List.cons.inj after).1]
            exact kind_of_isFinish finish
          have member : k ∈ ps.map Part.kind := by
            rw [same]
            simp
          obtain ⟨p, inside, kind⟩ := List.mem_map.mp member
          exact absurd (kind.trans ends) (h.kind_ne_finish p inside)
  rwa [List.isChain_map] at mapped

theorem replaceText_loosening (strict loose : Mark) {s : List Char} :
    replaceText strict.text loose.text (String.ofList s) =
      String.ofList (replaceFrom (loosening strict loose) none 0 s) := by
  rw [replaceText, String.toList_ofList]
  rfl

theorem Written.substitutes (h : Written rest ps) (blank : AllBlank rest)
    (apart : ps.IsChain fun p q => p.kind.Apart q.kind)
    (near : ∀ a b c d, [a, b, c, d] <:+: ps →
      Predicate.beginsMagnitude ([a, b, c, d].map Part.kind) = true → b.gap = [] ∧ c.gap = [])
    (targets : ∀ n ∈ replacedNames map, IsTarget n.2)
    (sits : ps.IsChain (Part.Sits (replacedNames map)))
    (later : (replacedNames map).Pairwise fun n m => ∀ k ∈ kindsOf n.2, k ≠ .word m.1) :
    ∃ us, tokens (textToKotlin map (String.ofList (joined rest ps))) = .ok us ∧
      us.map Token.kind = substituted (replacedNames map) (ps.map Part.kind ++ [.finish]) := by
  obtain ⟨qs, magnified⟩ := exists_magnified near
  have spares : SparesMagnitude (replacedNames map) := fun n listed =>
    (replacedNames_keys listed).2
  -- The passes, each of which leaves parts that fit together.
  have written₁ := h.loosened .ne blank apart
  have apart₁ := loosened_apart .ne apart
  have written₂ := written₁.loosened .eq blank apart₁
  have magnified₂ := (magnified.loosened .ne).loosened .eq
  have written₃ := magnified₂.written written₂
  have sits₃ := loosened_sits .eq (loosened_sits .ne (magnified.sits spares sits))
  obtain ⟨qs', names, written₄, kinds⟩ := exists_replaced
    (fun n listed => (replacedNames_keys listed).1) targets later written₃ blank sits₃
  have first : replaceText "!==" "!=" (String.ofList (joined rest ps)) =
      String.ofList (joined rest (ps.map (Predicate.loosened .strictNe .looseNe))) :=
    (replaceText_loosening .strictNe .looseNe).trans
      (congrArg String.ofList (loosening_replaces .ne h blank apart))
  have second : replaceText "===" "=="
      (String.ofList (joined rest (ps.map (Predicate.loosened .strictNe .looseNe)))) =
      String.ofList (joined rest ((ps.map (Predicate.loosened .strictNe .looseNe)).map
        (Predicate.loosened .strictEq .looseEq))) :=
    (replaceText_loosening .strictEq .looseEq).trans
      (congrArg String.ofList (loosening_replaces .eq written₁ blank apart₁))
  have third := magnitudeCall_replaces magnified₂ written₂ blank
    (Fresh.of_before (Option.any_none (p := isWordChar)))
  have code : textToKotlin map (String.ofList (joined rest ps)) = String.ofList (joined rest qs') := by
    rw [textToKotlin, first, second, String.toList_ofList, replaceAll, third, foldl_substitute, names]
  refine ⟨laid rest 0 false qs', ?_, ?_⟩
  · rw [code, tokens, String.toList_ofList]
    exact written₄.reads blank
  · rw [laid_kinds, kinds, loosened_kinds, substituted]
    exact (magnified.kinds spares sits false (by rintro ⟨⟩)).symm

/-- The code of an accepted text without comments is the text with each token replaced once. -/
theorem code_substitutes {text : String} {p : Predicate} {ts : List Token}
    (accepted : compile (trimmed text) = .ok p) (bare : NoComment (trimmed text).toList)
    (lexed : tokens (trimmed text) = .ok ts) (targets : ∀ n ∈ replacedNames map, IsTarget n.2)
    (fine : Substitutable (replacedNames map) ts) :
    ∃ code us, Session.ComesTo (Session.predicateToKotlin map text) code ∧ tokens code = .ok us ∧
      us.map Token.kind = substituted (replacedNames map) (ts.map Token.kind) := by
  have allowed := (compile_reads accepted).1
  rw [isAllowed, Bool.and_eq_true, Bool.and_eq_true, List.all_eq_true] at allowed
  obtain ⟨rest, ps, blank, written, whole⟩ := exists_written (Nat.le_refl _) allowed.1.2 bare lexed
  have read := lexed
  rw [tokens, ← whole, written.reads blank] at read
  cases read
  obtain ⟨cs, us, split, balanced, finish⟩ := compile_balanced accepted lexed laid_ended
  obtain ⟨us, lexed', kinds⟩ := written.substitutes blank
    (apart_of_laid split written balanced finish) (gaps_of_laid written fine.closely) targets
    (sits_of_laid written fine.sits) fine.later
  rw [whole, String.ofList_toList] at lexed'
  refine ⟨_, us, predicateToKotlin_comesTo map accepted, lexed', ?_⟩
  rw [kinds, laid_kinds]

theorem code_substitutes_mixed :
    let map : NameMap := [("age", "0"), ("maxAge", "particle.limit"), ("sign", "oldData.sign"),
      ("tick", "-1.5")]
    let text := "Math.abs (sign) !== age || life === Math.floor(maxAge - tick)"
    ∃ p ts code us, compile (trimmed text) = .ok p ∧ NoComment (trimmed text).toList ∧
      tokens (trimmed text) = .ok ts ∧ (∀ n ∈ replacedNames map, IsTarget n.2) ∧
      Substitutable (replacedNames map) ts ∧
      Session.ComesTo (Session.predicateToKotlin map text) code ∧ tokens code = .ok us ∧
      us.map Token.kind = substituted (replacedNames map) (ts.map Token.kind) := by
  intro map text
  obtain ⟨compiles, lexes, lines, blocks, named, closely, sits, later⟩ :
      (compile (trimmed text)).isOk = true ∧ (tokens (trimmed text)).isOk = true ∧
      ¬['/', '/'] <:+: (trimmed text).toList ∧ ¬['/', '*'] <:+: (trimmed text).toList ∧
      replacedNames map = [("age", "0"), ("maxAge", "particle.limit"),
        ("life", "particle.limit"), ("sign", "oldData.sign"), ("tick", "-1.5")] ∧
      closelyWritten ((tokens (trimmed text)).toOption.getD []) = true ∧
      ((tokens (trimmed text)).toOption.getD []).IsChain (fun t u =>
        Sits (replacedNames map) t.kind u.kind (u.position = t.position + 1)) ∧
      (replacedNames map).Pairwise fun n m => ∀ k ∈ kindsOf n.2, k ≠ .word m.1 := by
    decide +kernel
  obtain ⟨p, accepted⟩ := ok_of_isOk compiles
  obtain ⟨ts, lexed⟩ := ok_of_isOk lexes
  have bare : NoComment (trimmed text).toList := ⟨lines, blocks⟩
  have targets : ∀ n ∈ replacedNames map, IsTarget n.2 := by
    have zero : Reading.IsUnsigned Char.isDigit ['0'] [] [] :=
      ⟨List.forall_mem_singleton.mpr rfl, trivial, trivial, (by rintro ⟨⟩)⟩
    have half : Reading.IsUnsigned Char.isDigit ['1'] ['.', '5'] [] :=
      ⟨List.forall_mem_singleton.mpr rfl, ⟨rfl, List.forall_mem_singleton.mpr rfl⟩, trivial, (by rintro ⟨⟩)⟩
    have zero' : IsTarget "0" := @IsTarget.number _ false _ _ _ zero rfl
    have half' : IsTarget "-1.5" := @IsTarget.number _ true _ _ _ half rfl
    have limit : IsTarget "particle.limit" := .name (by decide)
    rw [named]
    simp only [List.forall_mem_cons]
    exact ⟨zero', limit, limit, .name (by decide),
      half', List.forall_mem_nil _⟩
  have fine : Substitutable (replacedNames map) ((tokens (trimmed text)).toOption.getD []) :=
    ⟨closely, sits, later⟩
  rw [lexed] at fine
  obtain ⟨code, us, comes, lexed', kinds⟩ := code_substitutes accepted bare lexed targets fine
  exact ⟨p, ts, code, us, accepted, bare, lexed, targets, fine, comes, lexed', kinds⟩

/-- The name of a member is replaced as well: the call of `Math.sign` becomes one of
`Math.oldData.sign`. -/
theorem code_substitutes_member :
    let map : NameMap := [("sign", "oldData.sign")]
    let text := "Math.sign(age) > 0"
    ∃ p ts code us, compile (trimmed text) = .ok p ∧ NoComment (trimmed text).toList ∧
      tokens (trimmed text) = .ok ts ∧ (∀ n ∈ replacedNames map, IsTarget n.2) ∧
      Session.ComesTo (Session.predicateToKotlin map text) code ∧ tokens code = .ok us ∧
      us.map Token.kind ≠ substituted (replacedNames map) (ts.map Token.kind) := by
  intro map text
  obtain ⟨compiles, lexes, lines, blocks, written, lexes', named, counts⟩ :
      (compile (trimmed text)).isOk = true ∧ (tokens (trimmed text)).isOk = true ∧
      ¬['/', '/'] <:+: (trimmed text).toList ∧ ¬['/', '*'] <:+: (trimmed text).toList ∧
      textToKotlin map (trimmed text) = "Math.oldData.sign(age) > 0" ∧
      (tokens "Math.oldData.sign(age) > 0").isOk = true ∧
      replacedNames map = [("sign", "oldData.sign")] ∧
      ((tokens "Math.oldData.sign(age) > 0").toOption.getD []).length ≠
        (substituted (replacedNames map)
          (((tokens (trimmed text)).toOption.getD []).map Token.kind)).length := by
    decide +kernel
  obtain ⟨p, accepted⟩ := ok_of_isOk compiles
  obtain ⟨ts, lexed⟩ := ok_of_isOk lexes
  obtain ⟨us, lexed'⟩ := ok_of_isOk lexes'
  have comes := predicateToKotlin_comesTo map accepted
  rw [written] at comes
  refine ⟨p, ts, _, us, accepted, ⟨lines, blocks⟩, lexed, ?_, comes, lexed', ?_⟩
  · rw [named]
    exact List.forall_mem_singleton.mpr (.name (by decide))
  · rw [lexed, lexed'] at counts
    intro same
    exact counts (by rw [← List.length_map Token.kind]; exact congrArg List.length same)

end Code

end Predicate

end EmitterLogic
