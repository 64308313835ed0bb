import EmitterLogic.Proofs.Number.Spelling
import EmitterLogic.Proofs.Text.Search
import EmitterLogic.Term.Name

namespace EmitterLogic

namespace Text

def identStarts : List Char := "abcdefghijklmnopqrstuvwxyzABCDEFGHIJKLMNOPQRSTUVWXYZ_".toList

theorem mem_identStarts {c : Char} (h : isIdentStart c = true) : c ∈ identStarts := by
  simp only [isIdentStart, isAsciiLetter, Bool.or_eq_true, Bool.and_eq_true,
    decide_eq_true_eq, beq_iff_eq] at h
  have code : c = Char.ofNat c.toNat := (Char.ofNat_toNat c).symm
  have lower : ∀ n < 123, 97 ≤ n → Char.ofNat n ∈ identStarts := by decide
  have upper : ∀ n < 91, 65 ≤ n → Char.ofNat n ∈ identStarts := by decide
  rcases h with (h | h) | rfl
  · rw [code]
    exact lower c.toNat (Nat.lt_succ_of_le h.2) h.1
  · rw [code]
    exact upper c.toNat (Nat.lt_succ_of_le h.2) h.1
  · decide

theorem of_isIdentStart {f : Char → Bool} (all : identStarts.all f = true) {c : Char}
    (h : isIdentStart c = true) : f c = true :=
  List.all_eq_true.mp all c (mem_identStarts h)

theorem isBlank_of_identPart {c : Char} (h : isIdentPart c = true) : isBlank c = false := by
  rw [isIdentPart, Bool.or_eq_true] at h
  rcases h with h | h
  · have all : (identStarts.all fun c => !isBlank c) = true := by decide
    simpa using of_isIdentStart all h
  · have digit : c.isDigit = true := h
    have all : (asciiDigits.all fun c => !isBlank c) = true := by decide
    simpa using of_isDigit all digit

theorem identParts {cs : List Char} (h : isIdentChars cs = true) :
    ∀ c ∈ cs, isIdentPart c = true := by
  cases cs with
  | nil => exact nofun
  | cons c rest =>
    rw [isIdentChars, Bool.and_eq_true, List.all_eq_true] at h
    refine List.forall_mem_cons.mpr ⟨?_, h.2⟩
    rw [isIdentPart, h.1, Bool.true_or]

end Text

open Text

theorem trim_ident {cs : List Char} (h : isIdentChars cs = true) : trim cs = cs :=
  trim_of_visible fun c hc => isBlank_of_identPart (identParts h c hc)

theorem isIdent_of_chars {w : String} (h : isIdentChars w.toList = true) : isIdent w = true := by
  rw [isIdent, trim_ident h, h]

theorem trimmed_ident {w : String} (h : isIdentChars w.toList = true) : trimmed w = w := by
  rw [trimmed, trim_ident h, String.ofList_toList]

theorem isEmpty_ident {w : String} (h : isIdentChars w.toList = true) : w.isEmpty = false := by
  rw [← Bool.not_eq_true, String.isEmpty_iff]
  rintro rfl
  cases h

theorem Builtin.name_ident (b : Builtin) : isIdentChars b.name.toList = true := by
  cases b <;> decide

theorem chars_of_isIdent {w : String} (h : isIdent w = true) :
    isIdentChars (trimmed w).toList = true := by
  rw [trimmed, String.toList_ofList]
  exact h

theorem canonicalName_ident {w : String} (h : isIdentChars w.toList = true) :
    canonicalName w = if w == "life" then "maxAge" else w := by
  simp only [canonicalName, trimmed_ident h]

theorem canonicalName_chars {w : String} (h : isIdentChars w.toList = true) :
    isIdentChars (canonicalName w).toList = true := by
  rw [canonicalName_ident h]
  split
  · decide
  · exact h

end EmitterLogic
