import EmitterLogic.Datum.Json
import EmitterLogic.Proofs.Number.Spelling
import EmitterLogic.Preview.Basic

namespace EmitterLogic.Json

open Text (hexDigit hexDigits)

def front (c : Char) : List Char × List Char → List Char × List Char
  | (cs, left) => (c :: cs, left)

theorem hexValue_hexDigit {n : Nat} (h : n < 16) : hexValue? (hexDigit n) = some n :=
  (by decide : ∀ n < 16, hexValue? (hexDigit n) = some n) n h

theorem hexDigits_four (n : Nat) : hexDigits 4 n =
    [hexDigit (n / 16 / 16 / 16 % 16), hexDigit (n / 16 / 16 % 16), hexDigit (n / 16 % 16),
      hexDigit (n % 16)] := rfl

theorem hexUnit_hexDigits {n : Nat} (h : n < 65536) :
    hexUnit? (hexDigit (n / 16 / 16 / 16 % 16)) (hexDigit (n / 16 / 16 % 16))
      (hexDigit (n / 16 % 16)) (hexDigit (n % 16)) = some n := by
  have digit (m : Nat) : hexValue? (hexDigit (m % 16)) = some (m % 16) :=
    hexValue_hexDigit (Nat.mod_lt m (by decide))
  simp only [hexUnit?, digit, bind, Option.bind]
  exact congrArg some (by omega)

theorem textBody_unitEscape {n : Nat} (h : n < 65536) (pending : Option Nat) (rest : List Char) :
    textBody pending (unitEscape n ++ rest) =
      match pending with
      | some high =>
        if isLowUnit n then (textBody none rest).map
          (front (Char.ofNat (0x10000 + (high - 0xD800) * 0x400 + (n - 0xDC00))))
        else if isHighUnit n then (textBody (some n) rest).map (front (unitChar high))
        else (textBody none rest).map fun (cs, left) => (unitChar high :: unitChar n :: cs, left)
      | none =>
        if isHighUnit n then textBody (some n) rest
        else (textBody none rest).map (front (unitChar n)) := by
  rw [unitEscape, hexDigits_four]
  simp only [List.cons_append, List.nil_append, textBody.eq_1, hexUnit_hexDigits h]
  rfl

theorem textBody_high {n : Nat} (h : n < 65536) (high : isHighUnit n = true) (rest : List Char) :
    textBody none (unitEscape n ++ rest) = textBody (some n) rest := by
  simp only [textBody_unitEscape h, high, if_true]

theorem textBody_low {n h : Nat} (hn : n < 65536) (low : isLowUnit n = true) (rest : List Char) :
    textBody (some h) (unitEscape n ++ rest) = (textBody none rest).map
      (front (Char.ofNat (0x10000 + (h - 0xD800) * 0x400 + (n - 0xDC00)))) := by
  simp only [textBody_unitEscape hn, low, if_true]

theorem textBody_unit {n : Nat} (h : n < 65536) (high : isHighUnit n = false) (rest : List Char) :
    textBody none (unitEscape n ++ rest) = (textBody none rest).map (front (unitChar n)) := by
  simp only [textBody_unitEscape h, high, Bool.false_eq_true, if_false]

theorem textBody_sign {e c : Char} (h : escaped? e = some c) (u : e ≠ 'u') (rest : List Char) :
    textBody none ('\\' :: e :: rest) = (textBody none rest).map (front c) := by
  rw [textBody.eq_3 _ _ _ (fun _ _ _ _ _ is => absurd is u), h]
  rfl

theorem textBody_plain {c : Char} (printable : 32 ≤ c.toNat) (quote : c ≠ '"')
    (backslash : c ≠ '\\') (rest : List Char) :
    textBody none (c :: rest) = (textBody none rest).map (front c) := by
  rw [textBody.eq_4 _ _ _ (fun _ _ _ _ _ is => absurd is backslash) quote
    (fun _ _ is => absurd is backslash)]
  have kept : ¬(decide (c.toNat < 32) || c == '\\') = true := by
    simp only [Bool.or_eq_true, decide_eq_true_eq, beq_iff_eq, backslash, or_false]
    omega
  rw [if_neg kept]
  rfl

theorem toNat_valid (c : Char) : c.toNat < 0xD800 ∨ 0xDFFF < c.toNat ∧ c.toNat < 0x110000 := c.valid

theorem textBody_short {c : Char} (h : c.toNat < 65536) (rest : List Char) :
    textBody none (unitEscape c.toNat ++ rest) = (textBody none rest).map (front c) := by
  have valid := toNat_valid c
  have high : isHighUnit c.toNat = false := by
    simp only [isHighUnit, Bool.and_eq_false_iff, decide_eq_false_iff_not]
    omega
  have low : isLowUnit c.toNat = false := by
    simp only [isLowUnit, Bool.and_eq_false_iff, decide_eq_false_iff_not]
    omega
  have same : unitChar c.toNat = c := by
    rw [unitChar, high, low]
    exact Char.ofNat_toNat c
  rw [textBody_unit h high, same]

theorem textBody_long {c : Char} (h : ¬c.toNat < 65536) (rest : List Char) :
    textBody none (unitEscape (0xD800 + (c.toNat - 0x10000) / 0x400) ++
        (unitEscape (0xDC00 + (c.toNat - 0x10000) % 0x400) ++ rest)) =
      (textBody none rest).map (front c) := by
  have valid := toNat_valid c
  have high : isHighUnit (0xD800 + (c.toNat - 0x10000) / 0x400) = true := by
    simp only [isHighUnit, Bool.and_eq_true, decide_eq_true_eq]
    omega
  have low : isLowUnit (0xDC00 + (c.toNat - 0x10000) % 0x400) = true := by
    simp only [isLowUnit, Bool.and_eq_true, decide_eq_true_eq]
    omega
  have joined : 0x10000 + (0xD800 + (c.toNat - 0x10000) / 0x400 - 0xD800) * 0x400 +
      (0xDC00 + (c.toNat - 0x10000) % 0x400 - 0xDC00) = c.toNat := by omega
  rw [textBody_high (by omega) high, textBody_low (by omega) low, joined, Char.ofNat_toNat]

theorem textBody_escapeChar (c : Char) (rest : List Char) :
    textBody none (escapeChar c ++ rest) = (textBody none rest).map (front c) := by
  unfold escapeChar
  split
  · exact textBody_sign rfl (by decide) rest
  · exact textBody_sign rfl (by decide) rest
  · exact textBody_sign rfl (by decide) rest
  · exact textBody_sign rfl (by decide) rest
  · exact textBody_sign rfl (by decide) rest
  · exact textBody_sign rfl (by decide) rest
  · exact textBody_sign rfl (by decide) rest
  · next quote backslash _ _ _ _ _ =>
    simp only [Bool.and_eq_true, decide_eq_true_eq]
    split
    · next printable => exact textBody_plain printable.1 quote backslash rest
    · split
      · next short => exact textBody_short short rest
      · next long =>
        rw [List.append_assoc]
        exact textBody_long long rest

theorem textBody_escaped (cs rest : List Char) :
    textBody none (cs.flatMap escapeChar ++ '"' :: rest) = some (cs, rest) := by
  induction cs with
  | nil => rfl
  | cons c cs ih =>
    rw [List.flatMap_cons, List.append_assoc, textBody_escapeChar, ih]
    rfl

end EmitterLogic.Json

namespace EmitterLogic.Preview

open Json (escapeChar textBody)

def closing : Char := '\x7d'

def declarationTail (v : Variable) : List Char :=
  (Json.compactEntries v.declaration.tail).toList

theorem renderNumber_closing (x : Float) : closing ∉ (Json.renderNumber (.float x)).toList := by
  rw [Json.renderNumber]
  split
  · decide
  · split
    · split
      · decide
      · decide
    · intro h
      rw [numeral, String.toList_ofList] at h
      exact Shortest.ne_of_isNumeralChar (Shortest.numeral_chars x _ h) (by decide) (by decide) rfl

theorem declarationTail_closing (v : Variable) : closing ∉ declarationTail v := by
  have initial := renderNumber_closing v.initial
  have least := renderNumber_closing v.minValue
  have greatest := renderNumber_closing v.maxValue
  have type : closing ∉ (Json.quote v.typeName).toList := by
    rw [Variable.typeName]
    split
    · decide
    · decide
  have switch (b : Bool) : closing ∉ (if b then "true" else "false" : String).toList := by
    cases b <;> decide
  simp only [declarationTail, Variable.declaration, List.tail_cons, Json.compactEntries,
    Json.compact, Datum.float]
  simp only [String.toList_append, List.mem_append, initial, least, greatest, type, switch]
  decide

def opening : List Char := "\x7b\"name\":\"".toList

def declarationText (v : Variable) (rest : List Char) : List Char :=
  opening ++ (v.name.toList.flatMap escapeChar ++
    '"' :: ',' :: (declarationTail v ++ closing :: rest))

theorem toList_quote (s : String) :
    (Json.quote s).toList = '"' :: s.toList.flatMap escapeChar ++ ['"'] := String.toList_ofList

theorem compact_declaration (v : Variable) :
    (Json.compact (.object v.declaration)).toList = declarationText v [] := by
  have entries : Json.compactEntries v.declaration = Json.quote "name" ++ ":" ++
      Json.quote v.name ++ "," ++ Json.compactEntries v.declaration.tail := rfl
  have name : "\x7b".toList ++ ((Json.quote "name").toList ++ ":".toList) ++ ['"'] = opening := by
    decide
  have comma : ",".toList = [','] := rfl
  have close : "\x7d".toList = [closing] := rfl
  rw [Json.compact, entries, declarationText, ← name, declarationTail]
  simp only [String.toList_append, toList_quote v.name, comma, close, List.append_assoc,
    List.cons_append, List.nil_append]

theorem declarationText_append (v : Variable) (rest more : List Char) :
    declarationText v rest ++ more = declarationText v (rest ++ more) := by
  simp only [declarationText, List.append_assoc, List.cons_append]

def declarationsText : List Variable → List Char
  | [] => []
  | [v] => declarationText v []
  | v :: w :: rest => declarationText v (',' :: declarationsText (w :: rest))

theorem compact_declarations (vs : List Variable) :
    (Json.compactItems (vs.map fun v => .object v.declaration)).toList = declarationsText vs := by
  induction vs with
  | nil => rfl
  | cons v rest ih =>
    cases rest with
    | nil => exact compact_declaration v
    | cons w rest =>
      have comma : ",".toList = [','] := rfl
      have more : Json.compactItems ((v :: w :: rest).map fun v => .object v.declaration) =
          Json.compact (.object v.declaration) ++ "," ++
            Json.compactItems ((w :: rest).map fun v => .object v.declaration) := rfl
      rw [more, String.toList_append, String.toList_append, ih, compact_declaration, comma,
        declarationsText, declarationText_append, declarationText_append]
      rfl

theorem declarationText_inj {v w : Variable} {rest rest' : List Char}
    (h : declarationText v rest = declarationText w rest') : v.name = w.name ∧ rest = rest' := by
  have texts := List.append_cancel_left h
  have read (v : Variable) (rest : List Char) := Json.textBody_escaped v.name.toList
    (',' :: (declarationTail v ++ closing :: rest))
  have same := (read v rest).symm.trans ((congrArg (textBody none) texts).trans (read w rest'))
  obtain ⟨names, tails⟩ := Prod.mk.inj (Option.some.inj same)
  refine ⟨String.toList_inj.mp names, ?_⟩
  have skipped (v : Variable) (rest : List Char) :
      (declarationTail v ++ closing :: rest).dropWhile (· != closing) = closing :: rest := by
    have inside : ∀ c ∈ declarationTail v, (c != closing) = true := by
      intro c hc
      refine bne_iff_ne.mpr ?_
      rintro rfl
      exact declarationTail_closing v hc
    rw [List.dropWhile_append_of_pos inside, List.dropWhile_cons_of_neg (by decide)]
  have ends := congrArg (List.dropWhile (· != closing)) (List.cons.inj tails).2
  rw [skipped, skipped] at ends
  exact (List.cons.inj ends).2

theorem declarationText_ne_nil (v : Variable) (rest : List Char) : declarationText v rest ≠ [] :=
  List.cons_ne_nil _ _

theorem declarationsText_names {vs ws : List Variable}
    (h : declarationsText vs = declarationsText ws) : vs.map (·.name) = ws.map (·.name) := by
  induction vs generalizing ws with
  | nil =>
    match ws with
    | [] => rfl
    | [w] => exact absurd h.symm (declarationText_ne_nil w _)
    | w :: w' :: ws => exact absurd h.symm (declarationText_ne_nil w _)
  | cons v vs ih =>
    match vs, ws with
    | [], [] => exact absurd h (declarationText_ne_nil v _)
    | v' :: vs, [] => exact absurd h (declarationText_ne_nil v _)
    | [], [w] => exact congrArg (· :: []) (declarationText_inj h).1
    | v' :: vs, [w] => exact absurd (declarationText_inj h).2 (List.cons_ne_nil _ _)
    | [], w :: w' :: ws => exact absurd (declarationText_inj h).2.symm (List.cons_ne_nil _ _)
    | v' :: vs, w :: w' :: ws =>
      obtain ⟨same, rest⟩ := declarationText_inj h
      have names := ih (List.cons.inj rest).2
      rw [List.map_cons, names, same, ← List.map_cons]

theorem toList_signatureOf (vs : List Variable) :
    (signatureOf vs).toList = '[' :: (declarationsText (stored vs) ++ [']']) := by
  rw [signatureOf, Json.compact, String.toList_append, String.toList_append, compact_declarations]
  rfl

theorem signatureOf_names {vs ws : List Variable} (h : signatureOf vs = signatureOf ws) :
    (stored vs).map (·.name) = (stored ws).map (·.name) := by
  have texts := congrArg String.toList h
  rw [toList_signatureOf, toList_signatureOf] at texts
  exact declarationsText_names (List.append_cancel_right (List.cons.inj texts).2)

theorem signatureOf_ne_empty (vs : List Variable) : signatureOf vs ≠ "" := by
  intro empty
  have text := toList_signatureOf vs
  rw [empty] at text
  exact List.cons_ne_nil _ _ text.symm

end EmitterLogic.Preview
