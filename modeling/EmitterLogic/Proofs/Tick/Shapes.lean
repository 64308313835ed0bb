import EmitterLogic.Proofs.Text.Shapes

namespace EmitterLogic

namespace Tick

open Text

variable {before : Option Char} {c : Char} {g s t v : List Char} {n : Nat}

theorem gap?_eq_some_iff : gap? s = some t ↔ ∃ g, s = g ++ t ∧ Blank g ∧ g ≠ [] ∧ Shown t := by
  constructor
  · rw [gap?]
    split
    · next first =>
      intro h
      cases h
      obtain ⟨g, blank, whole, shown⟩ := trimStart_split s
      refine ⟨g, whole, blank, ?_, shown⟩
      rintro rfl
      rw [List.nil_append] at whole
      rw [← whole] at shown
      cases s with
      | nil => cases first
      | cons c s =>
        have blank : isBlank c = true := first
        rw [shown c rfl] at blank
        cases blank
    · exact nofun
  · rintro ⟨g, rfl, blank, wide, shown⟩
    obtain ⟨c, g, rfl⟩ := List.exists_cons_of_ne_nil wide
    have first : (c :: g ++ t).head?.any isBlank = true := blank c List.mem_cons_self
    rw [gap?, if_pos first, trimStart_append blank shown]

theorem dropSign?_trimStart_eq_some_iff (sign : isBlank c = false) :
    dropSign? c (trimStart s) = some t ↔ ∃ g, Blank g ∧ s = g ++ c :: t := by
  rw [dropSign?_eq_some_iff]
  constructor
  · intro first
    obtain ⟨g, blank, whole, _⟩ := trimStart_split s
    exact ⟨g, blank, by rw [← first, ← whole]⟩
  · rintro ⟨g, blank, rfl⟩
    exact trimStart_append blank (shown_sign sign)

theorem enclosed?_eq_some_iff {e : List Char} :
    enclosed? s = some (e, t) ↔ s = '(' :: (e ++ ')' :: t) ∧ ')' ∉ e := by
  constructor
  · intro h
    obtain ⟨s', opened, h⟩ := Option.bind_eq_some_iff.mp h
    obtain ⟨rest, closed, h⟩ := Option.bind_eq_some_iff.mp h
    cases h
    rw [dropSign?_eq_some_iff] at opened closed
    refine ⟨?_, fun member => by simpa using List.mem_takeWhile_imp member⟩
    rw [opened, ← closed, List.takeWhile_append_dropWhile]
  · rintro ⟨rfl, inner⟩
    have all : ∀ c ∈ e, (c != ')') = true := fun c member => by
      simpa using fun same : c = ')' => inner (same ▸ member)
    have first : (e ++ ')' :: t).takeWhile (· != ')') = e :=
      Script.takeWhile_append_stop all fun c head => by simpa using head.symm
    have second : (e ++ ')' :: t).dropWhile (· != ')') = ')' :: t := by
      rw [List.dropWhile_append_of_pos all]
      rfl
    have opened : dropSign? '(' ('(' :: (e ++ ')' :: t)) = some (e ++ ')' :: t) := rfl
    have closed : dropSign? ')' (')' :: t) = some t := rfl
    simp only [enclosed?, opened, first, second, closed, Option.bind_eq_bind, Option.bind_some]
    rfl

theorem enclosedName?_eq_some_iff : enclosedName? s = some (v, t) ↔
    ∃ g g', s = '(' :: (g ++ (v ++ (g' ++ ')' :: t))) ∧ Blank g ∧ Blank g' ∧
      isNameChars v = true := by
  constructor
  · intro h
    obtain ⟨s', opened, h⟩ := Option.bind_eq_some_iff.mp h
    obtain ⟨⟨name, s''⟩, read, h⟩ := Option.bind_eq_some_iff.mp h
    obtain ⟨rest, closed, h⟩ := Option.bind_eq_some_iff.mp h
    cases h
    obtain ⟨g, blank, first, _⟩ := trimStart_split s'
    obtain ⟨g', blank', rfl⟩ := (dropSign?_trimStart_eq_some_iff (by decide)).mp closed
    obtain ⟨second, name, _⟩ := name?_eq_some_iff.mp read
    exact ⟨g, g', by rw [dropSign?_eq_some_iff.mp opened, ← second, ← first], blank, blank', name⟩
  · rintro ⟨g, g', rfl, blank, blank', name⟩
    have opened : dropSign? '(' ('(' :: (g ++ (v ++ (g' ++ ')' :: t)))) =
        some (g ++ (v ++ (g' ++ ')' :: t))) := rfl
    have read : name? (v ++ (g' ++ ')' :: t)) = some (v, g' ++ ')' :: t) :=
      name?_eq_some_iff.mpr ⟨rfl, name, endsName_sign blank' (by decide)⟩
    have closed : dropSign? ')' (trimStart (g' ++ ')' :: t)) = some t :=
      (dropSign?_trimStart_eq_some_iff (by decide)).mpr ⟨g', blank', rfl⟩
    simp only [enclosedName?, opened, trimStart_append blank (shown_of_isNameChars name), read, closed,
      Option.bind_eq_bind, Option.bind_some]
    rfl

section Words

variable {α : Type} {words : List String} {read : List Char → Option (α × List Char)} {a : α}

theorem of_afterWord (h : afterWord words read before s = some (n, a)) :
    before.any isWordChar = false ∧ ∃ w ∈ words, ∃ t rest, s = w.toList ++ t ∧
      read t = some (a, rest) ∧ n = s.length - rest.length := by
  rw [afterWord] at h
  split at h
  · cases h
  · next fresh =>
    obtain ⟨w, member, h⟩ := List.exists_of_findSome?_eq_some h
    obtain ⟨t, word, h⟩ := Option.bind_eq_some_iff.mp h
    obtain ⟨⟨a', rest⟩, found, h⟩ := Option.bind_eq_some_iff.mp h
    cases h
    exact ⟨Bool.not_eq_true _ ▸ fresh, w, member, t, rest, dropWord?_eq_some_iff.mp word, found, rfl⟩

def PrefixFree (words : List String) : Prop :=
  ∀ w ∈ words, ∀ w' ∈ words, w.toList.isPrefixOf w'.toList = true → w = w'

theorem findSome?_of_only {β γ : Type} {f : β → Option γ} {l : List β} {b : β} {c : γ}
    (member : b ∈ l) (h : f b = some c) (only : ∀ b' ∈ l, b' ≠ b → f b' = none) :
    l.findSome? f = some c := by
  induction l with
  | nil => cases member
  | cons d l ih =>
    by_cases same : d = b
    · rw [List.findSome?_cons, same, h]
    · rw [List.findSome?_cons, only d List.mem_cons_self same]
      exact ih ((List.mem_cons.mp member).resolve_left fun e => same e.symm)
        fun b' m => only b' (List.mem_cons_of_mem d m)

theorem afterWord_of {w : String} {rest : List Char} (free : PrefixFree words)
    (fresh : before.any isWordChar = false) (member : w ∈ words) (found : read t = some (a, rest)) :
    afterWord words read before (w.toList ++ t) =
      some ((w.toList ++ t).length - rest.length, a) := by
  rw [afterWord, if_neg (by rw [fresh]; exact Bool.false_ne_true)]
  refine findSome?_of_only member ?_ fun w' member' other => ?_
  · simp only [dropWord?_append, found, Option.bind_eq_bind, Option.bind_some]
    rfl
  · cases word : dropWord? w'.toList (w.toList ++ t) with
    | none => rfl
    | some t' =>
      have whole := dropWord?_eq_some_iff.mp word
      rcases List.prefix_or_prefix_of_prefix (List.prefix_append w.toList t)
        (whole ▸ List.prefix_append w'.toList t') with first | second
      · exact absurd (free w member w' member' (List.isPrefixOf_iff_prefix.mpr first)).symm other
      · exact absurd (free w' member' w member (List.isPrefixOf_iff_prefix.mpr second)) other

end Words

section Heads

theorem declaration_eq_some_iff : declaration before s = some (n, v) ↔
    before.any isWordChar = false ∧ ∃ w ∈ ["let", "const", "var", "function", "class"], ∃ g t,
      s = w.toList ++ (g ++ (v ++ t)) ∧ Blank g ∧ g ≠ [] ∧ isNameChars v = true ∧ EndsName t ∧
        n = w.toList.length + g.length + v.length := by
  constructor
  · intro h
    obtain ⟨fresh, w, member, t, rest, rfl, found, rfl⟩ := of_afterWord h
    obtain ⟨t', gap, read⟩ := Option.bind_eq_some_iff.mp found
    obtain ⟨g, rfl, blank, wide, _⟩ := gap?_eq_some_iff.mp gap
    obtain ⟨rfl, name, ends⟩ := name?_eq_some_iff.mp read
    refine ⟨fresh, w, member, g, rest, rfl, blank, wide, name, ends, ?_⟩
    simp only [List.length_append]
    omega
  · rintro ⟨fresh, w, member, g, t, rfl, blank, wide, name, ends, rfl⟩
    have gap : gap? (g ++ (v ++ t)) = some (v ++ t) :=
      gap?_eq_some_iff.mpr ⟨g, rfl, blank, wide, shown_of_isNameChars name⟩
    have read : (gap? (g ++ (v ++ t))).bind name? = some (v, t) := by
      rw [gap, Option.bind_some]
      exact name?_eq_some_iff.mpr ⟨rfl, name, ends⟩
    rw [declaration, afterWord_of (by unfold PrefixFree; decide) fresh member read]
    congr 2
    simp only [List.length_append]
    omega

def NameAfterGap (h : List Char) : Prop :=
  h = [] ∨ ∃ g v, h = g ++ v ∧ Blank g ∧ g ≠ [] ∧ isNameChars v = true

theorem functionHead_eq_some_iff {e : List Char} : functionHead before s = some (n, e) ↔
    before.any isWordChar = false ∧ ∃ h g t,
      s = "function".toList ++ (h ++ (g ++ '(' :: (e ++ ')' :: t))) ∧ NameAfterGap h ∧ Blank g ∧
        ')' ∉ e ∧ n = h.length + g.length + e.length + 10 := by
  constructor
  · intro found
    obtain ⟨fresh, w, member, s', rest, rfl, listed, rfl⟩ := of_afterWord found
    obtain rfl := List.mem_singleton.mp member
    obtain ⟨h, s'', rfl, name, left⟩ : ∃ h s'', s' = h ++ s'' ∧ NameAfterGap h ∧
        ((gap? s').bind name?).elim s' (·.2) = s'' := by
      cases named : (gap? s').bind name? with
      | none => exact ⟨[], s', rfl, .inl rfl, rfl⟩
      | some pair =>
        obtain ⟨v, s''⟩ := pair
        obtain ⟨t', gap, read⟩ := Option.bind_eq_some_iff.mp named
        obtain ⟨g, rfl, blank, wide, _⟩ := gap?_eq_some_iff.mp gap
        obtain ⟨rfl, name, _⟩ := name?_eq_some_iff.mp read
        exact ⟨g ++ v, s'', by rw [List.append_assoc], .inr ⟨g, v, rfl, blank, wide, name⟩, rfl⟩
    rw [left] at listed
    obtain ⟨g, blank, whole, _⟩ := trimStart_split s''
    obtain ⟨opened, inner⟩ := enclosed?_eq_some_iff.mp listed
    rw [opened] at whole
    subst whole
    refine ⟨fresh, h, g, rest, rfl, name, blank, inner, ?_⟩
    have eight : "function".toList.length = 8 := by decide
    simp only [List.length_append, List.length_cons, eight]
    omega
  · rintro ⟨fresh, h, g, t, rfl, name, blank, inner, rfl⟩
    have opened : Shown ('(' :: (e ++ ')' :: t)) := shown_sign (by decide)
    have left : ((gap? (h ++ (g ++ '(' :: (e ++ ')' :: t)))).bind name?).elim
        (h ++ (g ++ '(' :: (e ++ ')' :: t))) (·.2) = g ++ '(' :: (e ++ ')' :: t) := by
      rcases name with rfl | ⟨g', v, rfl, blank', wide, name⟩
      · have none : (gap? (g ++ '(' :: (e ++ ')' :: t))).bind name? = none := by
          cases gap : gap? (g ++ '(' :: (e ++ ')' :: t)) with
          | none => rfl
          | some t' =>
            obtain ⟨g', whole, blank', _, shown⟩ := gap?_eq_some_iff.mp gap
            rw [← (blanks_unique whole blank blank' opened shown).2]
            rfl
        rw [List.nil_append, none]
        rfl
      · rw [List.append_assoc, gap?_eq_some_iff.mpr
          ⟨g', rfl, blank', wide, shown_of_isNameChars name⟩, Option.bind_some,
          name?_eq_some_iff.mpr ⟨rfl, name, endsName_sign blank (by decide)⟩]
        rfl
    have read : enclosed? (trimStart (((gap? (h ++ (g ++ '(' :: (e ++ ')' :: t)))).bind name?).elim
        (h ++ (g ++ '(' :: (e ++ ')' :: t))) (·.2))) = some (e, t) := by
      rw [left, trimStart_append blank opened]
      exact enclosed?_eq_some_iff.mpr ⟨rfl, inner⟩
    refine Eq.trans (afterWord_of (by unfold PrefixFree; decide) fresh List.mem_cons_self read) ?_
    have eight : "function".toList.length = 8 := by decide
    congr 2
    simp only [List.length_append, List.length_cons, eight]
    omega

theorem catchHead_eq_some_iff : catchHead before s = some (n, v) ↔
    before.any isWordChar = false ∧ ∃ g₁ g₂ g₃ t,
      s = "catch".toList ++ (g₁ ++ '(' :: (g₂ ++ (v ++ (g₃ ++ ')' :: t)))) ∧ Blank g₁ ∧ Blank g₂ ∧
        Blank g₃ ∧ isNameChars v = true ∧
          n = g₁.length + g₂.length + v.length + g₃.length + 7 := by
  constructor
  · intro h
    obtain ⟨fresh, w, member, s', rest, rfl, read, rfl⟩ := of_afterWord h
    obtain rfl := List.mem_singleton.mp member
    obtain ⟨g₁, blank₁, whole, _⟩ := trimStart_split s'
    obtain ⟨g₂, g₃, named, blank₂, blank₃, name⟩ := enclosedName?_eq_some_iff.mp read
    rw [named] at whole
    subst whole
    refine ⟨fresh, g₁, g₂, g₃, rest, rfl, blank₁, blank₂, blank₃, name, ?_⟩
    have five : "catch".toList.length = 5 := by decide
    simp only [List.length_append, List.length_cons, five]
    omega
  · rintro ⟨fresh, g₁, g₂, g₃, t, rfl, blank₁, blank₂, blank₃, name, rfl⟩
    have opened : Shown ('(' :: (g₂ ++ (v ++ (g₃ ++ ')' :: t)))) := shown_sign (by decide)
    have read : enclosedName? (trimStart (g₁ ++ '(' :: (g₂ ++ (v ++ (g₃ ++ ')' :: t))))) =
        some (v, t) := by
      rw [trimStart_append blank₁ opened]
      exact enclosedName?_eq_some_iff.mpr ⟨g₂, g₃, rfl, blank₂, blank₃, name⟩
    refine Eq.trans (afterWord_of (by unfold PrefixFree; decide) fresh List.mem_cons_self read) ?_
    have five : "catch".toList.length = 5 := by decide
    congr 2
    simp only [List.length_append, List.length_cons, five]
    omega

theorem beforeArrow?_eq_some_iff {α : Type} {read : List Char → Option (α × List Char)} {a : α} :
    beforeArrow? read s = some (n, a) ↔ ∃ g t, read s = some (a, g ++ '=' :: '>' :: t) ∧ Blank g ∧
      n = s.length - t.length := by
  constructor
  · intro h
    obtain ⟨⟨a', rest⟩, found, h⟩ := Option.bind_eq_some_iff.mp h
    obtain ⟨t, arrow, h⟩ := Option.bind_eq_some_iff.mp h
    cases h
    obtain ⟨g, blank, whole, _⟩ := trimStart_split rest
    rw [dropWord?_eq_some_iff.mp arrow] at whole
    subst whole
    exact ⟨g, t, found, blank, rfl⟩
  · rintro ⟨g, t, found, blank, rfl⟩
    have arrow : dropWord? ['=', '>'] ('=' :: '>' :: t) = some t := rfl
    simp only [beforeArrow?, found, trimStart_append blank (shown_sign (t := '>' :: t)
      (c := '=') (by decide)), arrow, Option.bind_eq_bind, Option.bind_some]
    rfl

theorem arrowName_eq_some_iff : arrowName before s = some (n, v) ↔
    isBoundary before s.head? = true ∧ ∃ g t, s = v ++ (g ++ '=' :: '>' :: t) ∧ Blank g ∧
      isNameChars v = true ∧ n = v.length + g.length + 2 := by
  rw [arrowName]
  constructor
  · intro h
    split at h
    · next boundary =>
      obtain ⟨g, t, read, blank, rfl⟩ := beforeArrow?_eq_some_iff.mp h
      obtain ⟨rfl, name, _⟩ := name?_eq_some_iff.mp read
      refine ⟨boundary, g, t, rfl, blank, name, ?_⟩
      simp only [List.length_append, List.length_cons]
      omega
    · cases h
  · rintro ⟨boundary, g, t, rfl, blank, name, rfl⟩
    rw [if_pos boundary]
    refine beforeArrow?_eq_some_iff.mpr ⟨g, t, ?_, blank, ?_⟩
    · exact name?_eq_some_iff.mpr ⟨rfl, name, endsName_sign blank (by decide)⟩
    · simp only [List.length_append, List.length_cons]
      omega

theorem arrowHead_eq_some_iff {e : List Char} : arrowHead before s = some (n, e) ↔
    ∃ g t, s = '(' :: (e ++ ')' :: (g ++ '=' :: '>' :: t)) ∧ Blank g ∧ ')' ∉ e ∧
      n = e.length + g.length + 4 := by
  rw [arrowHead, beforeArrow?_eq_some_iff]
  constructor
  · rintro ⟨g, t, read, blank, rfl⟩
    obtain ⟨rfl, inner⟩ := enclosed?_eq_some_iff.mp read
    refine ⟨g, t, rfl, blank, inner, ?_⟩
    simp only [List.length_append, List.length_cons]
    omega
  · rintro ⟨g, t, rfl, blank, inner, rfl⟩
    refine ⟨g, t, enclosed?_eq_some_iff.mpr ⟨rfl, inner⟩, blank, ?_⟩
    simp only [List.length_append, List.length_cons]
    omega

def MemberName (h : List Char) : Prop := h = [] ∨ ∃ w, h = '.' :: w ∧ isNameChars w = true

theorem MemberName.endsName {h : List Char} (member : MemberName h) (stop : EndsName s) :
    EndsName (h ++ s) := by
  rcases member with rfl | ⟨w, rfl, _⟩
  · exact stop
  · exact endsName_sign (g := []) nofun (by decide)

theorem dropSign?_blank {d : Char} (blank : Blank g) (sign : isBlank c = false) (other : d ≠ c) :
    dropSign? c (g ++ d :: t) = none := by
  cases found : dropSign? c (g ++ d :: t) with
  | none => rfl
  | some t' =>
    have first := dropSign?_eq_some_iff.mp found
    cases g with
    | nil => exact absurd (List.cons.inj first).1 other
    | cons e g =>
      have visible := blank e List.mem_cons_self
      rw [(List.cons.inj first).1, sign] at visible
      cases visible

theorem exists_member (s : List Char) : ∃ h t, s = h ++ t ∧ MemberName h ∧
    (dropSign? '.' s).bind name? = h.tail?.map (·, t) := by
  cases named : (dropSign? '.' s).bind name? with
  | none => exact ⟨[], s, rfl, .inl rfl, rfl⟩
  | some pair =>
    obtain ⟨w, t⟩ := pair
    obtain ⟨t', point, read⟩ := Option.bind_eq_some_iff.mp named
    obtain ⟨rfl, name, _⟩ := name?_eq_some_iff.mp read
    exact ⟨'.' :: w, t, dropSign?_eq_some_iff.mp point, .inr ⟨w, rfl, name⟩, rfl⟩

theorem MemberName.read {h : List Char} (member : MemberName h) (blank : Blank g) :
    (dropSign? '.' (h ++ (g ++ '(' :: t))).bind name? = h.tail?.map (·, g ++ '(' :: t) := by
  rcases member with rfl | ⟨w, rfl, name⟩
  · rw [List.nil_append, dropSign?_blank blank (by decide) (by decide)]
    rfl
  · have point : dropSign? '.' ('.' :: w ++ (g ++ '(' :: t)) = some (w ++ (g ++ '(' :: t)) := rfl
    rw [point, Option.bind_some]
    exact name?_eq_some_iff.mpr ⟨rfl, name, endsName_sign blank (by decide)⟩

theorem calleeAt_eq_some_iff : calleeAt before s = some (n, v) ↔
    ∃ u h g t, s = u ++ (h ++ (g ++ '(' :: t)) ∧ v = u ++ h ∧ isNameChars u = true ∧
      MemberName h ∧ Blank g ∧ n = u.length + h.length + g.length + 1 := by
  have length (u h g t : List Char) :
      (u ++ (h ++ (g ++ '(' :: t))).length - t.length = u.length + h.length + g.length + 1 := by
    simp only [List.length_append, List.length_cons]
    omega
  constructor
  · intro found
    obtain ⟨⟨u, s'⟩, read, found⟩ := Option.bind_eq_some_iff.mp found
    obtain ⟨rfl, name, _⟩ := name?_eq_some_iff.mp read
    obtain ⟨h, s'', rfl, member, named⟩ := exists_member s'
    obtain ⟨t, opened, callee⟩ : ∃ t, dropSign? '(' (trimStart s'') = some t ∧
        ((u ++ (h ++ s'')).length - t.length, u ++ h) = (n, v) := by
      rcases member with rfl | ⟨w, rfl, -⟩
      · simp only [named, List.tail?_nil, Option.map_none] at found
        obtain ⟨t, opened, found⟩ := Option.bind_eq_some_iff.mp found
        exact ⟨t, opened, by rw [List.append_nil]; exact Option.some.inj found⟩
      · simp only [named, List.tail?_cons, Option.map_some] at found
        obtain ⟨t, opened, found⟩ := Option.bind_eq_some_iff.mp found
        exact ⟨t, opened, Option.some.inj found⟩
    cases callee
    obtain ⟨g, blank, rfl⟩ := (dropSign?_trimStart_eq_some_iff (by decide)).mp opened
    exact ⟨u, h, g, t, rfl, rfl, name, member, blank, length u h g t⟩
  · rintro ⟨u, h, g, t, rfl, rfl, name, member, blank, rfl⟩
    have opened : dropSign? '(' (trimStart (g ++ '(' :: t)) = some t :=
      (dropSign?_trimStart_eq_some_iff (by decide)).mpr ⟨g, blank, rfl⟩
    have read : name? (u ++ (h ++ (g ++ '(' :: t))) = some (u, h ++ (g ++ '(' :: t)) :=
      name?_eq_some_iff.mpr ⟨rfl, name, member.endsName (endsName_sign blank (by decide))⟩
    rw [calleeAt]
    simp only [read, member.read blank, Option.bind_eq_bind, Option.bind_some]
    rcases member with rfl | ⟨w, rfl, name'⟩
    · simp only [List.tail?_nil, Option.map_none, List.nil_append, opened, Option.bind_some]
      rw [← length u [] g t, List.append_nil]
      rfl
    · simp only [List.tail?_cons, Option.map_some, opened, Option.bind_some]
      rw [← length u ('.' :: w) g t]
      rfl

end Heads

end Tick

end EmitterLogic
