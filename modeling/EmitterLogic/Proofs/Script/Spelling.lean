import Mathlib.Data.List.Chain
import EmitterLogic.Proofs.Number.Unsigned
import EmitterLogic.Proofs.Number.Written
import EmitterLogic.Proofs.Script.Code
import EmitterLogic.Term.Name
import EmitterLogic.Text.Letter

namespace EmitterLogic.Text

theorem isLetter_cases {c : Char} (h : isLetter c = true) : isIdentStart c = true ∨
    ∃ r ∈ letterRanges, r.1 ≤ c.toNat ∧ c.toNat ≤ r.2 := by
  rw [isLetter] at h
  split at h
  · rw [isIdentStart, h]
    exact .inl rfl
  · rw [inRanges, List.any_eq_true] at h
    obtain ⟨r, inside, range⟩ := h
    rw [Bool.and_eq_true, decide_eq_true_eq, decide_eq_true_eq] at range
    exact .inr ⟨r, inside, range⟩

def apart : List (Nat × Nat) → List (Nat × Nat) → Bool
  | [], _ => true
  | r :: rs, ss =>
    let left := ss.dropWhile fun s => s.2.blt r.1
    (left.head?.all fun s => r.2.blt s.1) && apart rs left

def Rising (rs : List (Nat × Nat)) : Prop := rs.Pairwise fun a b => a.1 ≤ b.1

theorem rising_of_isChain {rs : List (Nat × Nat)} (h : rs.IsChain fun a b => a.1 ≤ b.1) :
    Rising rs :=
  have : IsTrans (Nat × Nat) fun a b => a.1 ≤ b.1 := ⟨fun _ _ _ => Nat.le_trans⟩
  List.isChain_iff_pairwise.mp h

theorem apart_sound {rs ss : List (Nat × Nat)} (letters : Rising rs) (others : Rising ss)
    (h : apart rs ss = true) : ∀ r ∈ rs, ∀ s ∈ ss, r.2 < s.1 ∨ s.2 < r.1 := by
  induction rs generalizing ss with
  | nil => exact nofun
  | cons r rs ih =>
    rw [apart, Bool.and_eq_true] at h
    obtain ⟨next, more⟩ := h
    obtain ⟨first, letters⟩ := List.pairwise_cons.mp letters
    have split := List.takeWhile_append_dropWhile (p := fun s => s.2.blt r.1) (l := ss)
    have passed : ∀ s ∈ ss.takeWhile fun s => s.2.blt r.1, s.2 < r.1 := fun s member =>
      Nat.le_of_ble_eq_true (List.all_eq_true.mp List.all_takeWhile s member)
    generalize ss.takeWhile _ = before at split passed
    generalize ss.dropWhile _ = left at split next more
    subst split
    have ahead : ∀ s ∈ left, r.2 < s.1 := by
      cases left with
      | nil => exact nofun
      | cons s left =>
        have near : r.2 < s.1 := Nat.le_of_ble_eq_true next
        have rising := (List.pairwise_cons.mp (List.pairwise_append.mp others).2.1).1
        exact List.forall_mem_cons.mpr
          ⟨near, fun s' later => Nat.lt_of_lt_of_le near (rising s' later)⟩
    have others' := ih letters (List.pairwise_append.mp others).2.1 more
    intro r' member s side
    rcases List.mem_append.mp side with old | new
    · have : r.1 ≤ r'.1 := (List.mem_cons.mp member).elim (fun e => e ▸ Nat.le_refl _) (first r')
      exact .inr (Nat.lt_of_lt_of_le (passed s old) this)
    · rcases List.mem_cons.mp member with rfl | later
      · exact .inl (ahead s new)
      · exact others' r' later s new

def decimalRanges : List (Nat × Nat) := decimalZeros.map fun z => (z, z + 9)

theorem letters_rising : Rising letterRanges := rising_of_isChain (by decide +kernel)

theorem letters_decimals_apart :
    ∀ r ∈ letterRanges, ∀ s ∈ decimalRanges, r.2 < s.1 ∨ s.2 < r.1 :=
  apart_sound letters_rising (rising_of_isChain (by decide +kernel)) (by decide +kernel)

theorem letters_signs_apart :
    ∀ r ∈ letterRanges, ∀ s ∈ digitSignRanges, r.2 < s.1 ∨ s.2 < r.1 :=
  apart_sound letters_rising (rising_of_isChain (by decide +kernel)) (by decide +kernel)

theorem letters_visible : ∀ r ∈ letterRanges,
    128 ≤ r.1 ∧ ((0xA0 < r.1 ∧ r.2 < 0x1680) ∨ (0x1680 < r.1 ∧ r.2 < 0x2000) ∨
      (0x205F < r.1 ∧ r.2 < 0x3000) ∨ 0x3000 < r.1) := by decide +kernel

theorem isDigitMark_of_range {c : Char} {r : Nat × Nat} (letters : r ∈ letterRanges)
    (low : r.1 ≤ c.toNat) (high : c.toNat ≤ r.2) : isDigitMark c = false := by
  have far := (letters_visible r letters).1
  have decimal : isDecimal c = false := by
    have wide : ¬c.toNat < 128 := by omega
    rw [isDecimal, digitValue?, if_neg wide, Option.isSome_map, Option.isSome_eq_false_iff,
      Option.isNone_iff_eq_none, List.find?_eq_none]
    intro z member inside
    rw [Bool.and_eq_true, decide_eq_true_eq, decide_eq_true_eq] at inside
    have := letters_decimals_apart r letters (z, z + 9) (List.mem_map.mpr ⟨z, member, rfl⟩)
    omega
  rw [isDigitMark, decimal, Bool.false_or, Bool.and_eq_false_iff]
  refine .inr ?_
  rw [inRanges, Bool.eq_false_iff, ne_eq, List.any_eq_true]
  rintro ⟨s, member, inside⟩
  rw [Bool.and_eq_true, decide_eq_true_eq, decide_eq_true_eq] at inside
  have := letters_signs_apart r letters s member
  omega

end EmitterLogic.Text

namespace EmitterLogic.Script

section Words

open Text

theorem beginsWord_of_isWordStart {c : Char} (h : isWordStart c = true) : beginsWord c = true := by
  have cases : isLetter c = true ∨ c = '_' ∨ c = '$' := by
    simpa [isWordStart, or_assoc] using h
  rcases cases with letter | rfl | rfl
  · rcases isLetter_cases letter with ident | ⟨r, member, low, high⟩
    · exact of_isIdentStart (f := beginsWord) (by decide) ident
    · obtain ⟨far, blanks⟩ := letters_visible r member
      have digit := isDigitMark_of_range member low high
      have blank : isBlank c = false := by
        rw [Bool.eq_false_iff]
        intro blank
        simp only [isBlank, Bool.or_eq_true, Bool.and_eq_true, decide_eq_true_eq, beq_iff_eq]
          at blank
        omega
      have other {d : Char} (near : d.toNat < 128) : c ≠ d := by
        rintro rfl
        omega
      simp [beginsWord, visible, isQuote, digit, blank, h, other]
  · decide
  · decide

/-- Can a text stand as a word? -/
def isWord (w : String) : Bool :=
  match w.toList with
  | [] => false
  | c :: cs => isWordStart c && cs.all isWordPart

theorem lexemeAt_isWord {w : String} (h : isWord w = true) {rest : List Char}
    (ends : EndsWord rest) :
    lexemeAt (w.toList ++ rest) = .ok (w.toList.length, .token (.word w)) := by
  cases e : w.toList with
  | nil =>
    rw [isWord, e] at h
    cases h
  | cons c cs =>
    rw [isWord, e] at h
    simp only [Bool.and_eq_true, List.all_eq_true] at h
    have word : (cs ++ rest).takeWhile isWordPart = cs := takeWhile_append_stop h.2 ends
    rw [List.cons_append, lexemeAt_word (beginsWord_of_isWordStart h.1), word, ← e,
      String.ofList_toList]

end Words

section Quotes

/-- A character as it stands between double quotes. -/
def escape (c : Char) : List Char :=
  if c = '\\' then ['\\', '\\'] else if c = '"' then ['\\', '"']
  else if c = '\n' then ['\\', 'n'] else [c]

def quotedChars (cs : List Char) : List Char := '"' :: (cs.flatMap escape ++ ['"'])

theorem quotedBody_escapes (cs rest : List Char) :
    quotedBody '"' (cs.flatMap escape ++ '"' :: rest) =
      some ((cs.flatMap escape).length + 1, cs) := by
  induction cs with
  | nil => rfl
  | cons c cs ih =>
    have signed (sign : Char) (reads : escaped sign = c) (h : escape c = ['\\', sign]) :
        quotedBody '"' ((c :: cs).flatMap escape ++ '"' :: rest) =
          some (((c :: cs).flatMap escape).length + 1, c :: cs) := by
      have unfolded : (c :: cs).flatMap escape ++ '"' :: rest =
          '\\' :: sign :: (cs.flatMap escape ++ '"' :: rest) := by
        rw [List.flatMap_cons, h]
        rfl
      rw [unfolded, quotedBody, ih, reads, List.flatMap_cons, h]
      simp
    by_cases slash : c = '\\'
    · exact signed '\\' slash.symm (by rw [escape, if_pos slash])
    by_cases quote : c = '"'
    · exact signed '"' quote.symm (by rw [escape, if_neg slash, if_pos quote])
    by_cases newline : c = '\n'
    · exact signed 'n' newline.symm
        (by rw [escape, if_neg slash, if_neg quote, if_pos newline])
    have plain : escape c = [c] := by
      rw [escape, if_neg slash, if_neg quote, if_neg newline]
    rw [List.flatMap_cons, plain, List.singleton_append, List.cons_append, quotedBody, ih]
    · simp [slash, quote, newline]
    · exact fun _ _ e _ => slash e

theorem lexemeAt_quoted (s : String) (rest : List Char) :
    lexemeAt (quotedChars s.toList ++ rest) =
      .ok ((quotedChars s.toList).length, .token (.text s)) := by
  have body := quotedBody_escapes s.toList rest
  have unfolded : quotedChars s.toList ++ rest =
      '"' :: (s.toList.flatMap escape ++ '"' :: rest) := by simp [quotedChars]
  have visible : visible '"' = true := by decide
  rw [unfolded, lexemeAt_visible visible, startsNumber_of_ne (by decide), if_neg (by decide),
    if_pos (by decide), body]
  simp [quotedChars, String.ofList_toList]

end Quotes

namespace TokenKind

/-- The spelling of a token. -/
def chars : TokenKind → List Char
  | number x => Shortest.numeral x
  | text s => quotedChars s.toList
  | word w => w.toList
  | mark m => m.text.toList
  | finish => []

def IsSpelled : TokenKind → Prop
  | number x => x.isFinite = true ∧ Binary64.Unsigned x
  | text _ => True
  | word w => isWord w = true
  | mark _ => True
  | finish => False

end TokenKind

def Spaced (rest : List Char) : Prop := ∀ c ∈ rest.head?, c = ' '

theorem Spaced.closes {rest : List Char} (h : Spaced rest) : Closes rest :=
  fun c hc => .inl (h c hc)

theorem lexemeAt_spelled_mark (m : Mark) {rest : List Char} (spaced : Spaced rest) :
    lexemeAt (m.text.toList ++ rest) = .ok (m.text.toList.length, .token (.mark m)) := by
  cases rest with
  | nil => cases m <;> rfl
  | cons c rest =>
    obtain rfl := spaced c rfl
    cases m <;> rfl

theorem lexes_kind {k : TokenKind} (h : k.IsSpelled) :
    Lexes k.chars (fun place => [⟨k, place, false⟩]) Spaced := by
  cases k with
  | number x =>
    obtain ⟨p, parts⟩ := Binary64.isFinite_iff_parts.mp h.1
    obtain ⟨s, chars, rfl⟩ := numeral_spelled parts (h.2 p parts)
    rw [TokenKind.chars, chars]
    exact (lexes_numeral s).weaken fun _ spaced => spaced.closes
  | text s =>
    exact lexes_token (List.cons_ne_nil _ _) fun rest _ => lexemeAt_quoted s rest
  | word w =>
    have some : w.toList ≠ [] := by
      intro none
      rw [TokenKind.IsSpelled, isWord, none] at h
      cases h
    exact lexes_token some fun rest spaced => lexemeAt_isWord h spaced.closes.endsWord
  | mark m =>
    have some : m.text.toList ≠ [] := by cases m <;> exact nofun
    exact lexes_token some fun rest spaced => lexemeAt_spelled_mark m spaced
  | finish => exact h.elim

/-- Spellings with single spaces between them. -/
def spelled : List TokenKind → List Char
  | [] => []
  | [k] => k.chars
  | k :: ks => k.chars ++ ' ' :: spelled ks

def placed : List TokenKind → Nat → List Token
  | [], _ => []
  | k :: ks, place => ⟨k, place, false⟩ :: placed ks (place + k.chars.length + 1)

theorem lexes_spelled {ks : List TokenKind} (h : ∀ k ∈ ks, k.IsSpelled) :
    Lexes (spelled ks) (placed ks) Spaced := by
  induction ks with
  | nil =>
    intro place rest _
    rw [spelled, List.nil_append, List.length_nil, Nat.add_zero]
    cases tokensFrom place 0 false rest <;> rfl
  | cons k ks ih =>
    rw [List.forall_mem_cons] at h
    have first := lexes_kind h.1
    cases ks with
    | nil => exact first
    | cons k' ks =>
      have others := lexes_space.append (ih h.2) fun _ _ => trivial
      exact first.append others fun rest _ => by
        rintro _ ⟨⟩
        rfl

theorem tokens_spelled {ks : List TokenKind} (h : ∀ k ∈ ks, k.IsSpelled) :
    tokens (String.ofList (spelled ks)) =
      .ok (placed ks 0 ++ [⟨.finish, (spelled ks).length, false⟩]) := by
  have all := lexes_spelled h 0 [] (nofun)
  rw [List.append_nil, Nat.zero_add] at all
  rw [tokens, String.toList_ofList, all]
  rfl

end EmitterLogic.Script
