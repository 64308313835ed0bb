import EmitterLogic.Proofs.Condition.Equality
import EmitterLogic.Proofs.Condition.Worth

namespace EmitterLogic

open Session Text

section Numerals

variable {cs : List Char}

def numeralMarks : List Char := ['.', 'e', 'E', '+', '-']

def IsNumeralPart (c : Char) : Prop := isDecimal c = true ∨ c ∈ numeralMarks

theorem mem_skipDecimals {c : Char} (h : c ∈ cs) : isDecimal c = true ∨ c ∈ skipDecimals cs := by
  rw [← List.takeWhile_append_dropWhile (p := isDecimal) (l := cs), List.mem_append] at h
  exact h.imp (List.all_eq_true.mp List.all_takeWhile c) id

theorem mem_signOf {c : Char} (h : c ∈ cs) : c = '-' ∨ c = '+' ∨ c ∈ (Reading.signOf cs).2 := by
  unfold Reading.signOf
  split
  · exact (List.mem_cons.mp h).imp id .inr
  · exact .inr (List.mem_cons.mp h)
  · exact .inr (.inr h)

theorem exponentTail_parts (h : isExponentTail cs = true) : ∀ c ∈ cs, IsNumeralPart c := by
  cases cs with
  | nil => exact nofun
  | cons e rest =>
    simp only [isExponentTail, Bool.and_eq_true, Bool.or_eq_true, beq_iff_eq,
      List.isEmpty_iff] at h
    obtain ⟨⟨mark, _⟩, none⟩ := h
    refine List.forall_mem_cons.mpr ⟨?_, fun c hc => ?_⟩
    · rcases mark with rfl | rfl <;> exact .inr (by decide)
    · rcases mem_signOf hc with rfl | rfl | hc
      · exact .inr (by decide)
      · exact .inr (by decide)
      · rcases mem_skipDecimals hc with digit | hc
        · exact .inl digit
        · rw [none] at hc
          cases hc

theorem numeral_parts (h : isNumeralChars cs = true) : ∀ c ∈ cs, IsNumeralPart c := by
  intro c hc
  rcases mem_signOf hc with rfl | rfl | hc
  · exact .inr (by decide)
  · exact .inr (by decide)
  simp only [isNumeralChars] at h
  split at h
  · rcases mem_skipDecimals hc with digit | hc
    · exact .inl digit
    · split at h
      · next rest fraction =>
        rw [fraction] at hc
        rcases List.mem_cons.mp hc with rfl | hc
        · exact .inr (by decide)
        · rcases mem_skipDecimals hc with digit | hc
          · exact .inl digit
          · exact exponentTail_parts h c hc
      · exact exponentTail_parts h c hc
  · split at h
    · next rest fraction =>
      rw [fraction] at hc
      rw [Bool.and_eq_true] at h
      rcases List.mem_cons.mp hc with rfl | hc
      · exact .inr (by decide)
      · rcases mem_skipDecimals hc with digit | hc
        · exact .inl digit
        · exact exponentTail_parts h.2 c hc
    · cases h

end Numerals

section Tokens

structure IsTokenChar (c : Char) : Prop where
  visible : isBlank c = false
  joint : c ≠ '&' ∧ c ≠ '|'
  sign : c ≠ '='

theorem isTokenChar_identPart {c : Char} (h : isIdentPart c = true) : IsTokenChar c := by
  refine ⟨isBlank_of_identPart h, ⟨?_, ?_⟩, ?_⟩
  all_goals
    rintro rfl
    revert h
    decide

theorem isTokenChar_numeralPart {c : Char} (h : IsNumeralPart c) : IsTokenChar c := by
  rcases h with digit | mark
  · exact ⟨isDecimal_not_blank digit, ⟨isDecimal_ne digit (by decide), isDecimal_ne digit (by decide)⟩,
      isDecimal_ne digit (by decide)⟩
  · have all : ∀ c ∈ numeralMarks, isBlank c = false ∧ (c ≠ '&' ∧ c ≠ '|') ∧ c ≠ '=' :=
      forall_mem_of_all (by decide)
    obtain ⟨visible, joint, sign⟩ := all c mark
    exact ⟨visible, joint, sign⟩

/-- The right side of a segment: a name, or the numeral of a finite number. -/
inductive Comparand where
  | name (w : String) (word : isIdentChars w.toList = true) (free : w ≠ "number" ∧ w ≠ "var")
  | numeral (t : String) (x : Float) (numeral : isNumeralChars t.toList = true)
    (reads : Reading.float? t.toList = some x) (finite : x.isFinite = true)

namespace Comparand

def text : Comparand → String
  | name w _ _ => w
  | numeral t _ _ _ _ => t

/-- What the right side is worth; a name that is missing counts as zero. -/
def worth (s : Sight) : Comparand → Float
  | name w _ _ => s.worth w
  | numeral _ x _ _ _ => x

/-- The side that a rule holds for it. -/
def side : Comparand → RightSide
  | name w _ _ => ((builtin? w).map .builtin).getD (.named w)
  | numeral _ x _ _ _ => .number x

theorem tokenChars (b : Comparand) : ∀ c ∈ b.text.toList, IsTokenChar c := by
  cases b with
  | name w word free => exact fun c hc => isTokenChar_identPart (identParts word c hc)
  | numeral t x numeral reads finite =>
    exact fun c hc => isTokenChar_numeralPart (numeral_parts numeral c hc)

theorem text_ne_nil (b : Comparand) : b.text.toList ≠ [] := by
  intro none
  cases b with
  | name w word free =>
    rw [text] at none
    rw [none] at word
    cases word
  | numeral t x numeral reads finite =>
    rw [text] at none
    rw [none] at numeral
    cases numeral

end Comparand

/-- A comparison of a name with a name or a number, with blanks around its sign. -/
structure Segment where
  name : String
  op : Comparison
  right : Comparand
  gapLeft : List Char := []
  gapRight : List Char := []
  word : isIdentChars name.toList = true
  free : name ≠ "var"
  blankLeft : ∀ c ∈ gapLeft, isBlank c = true
  blankRight : ∀ c ∈ gapRight, isBlank c = true

/-- A link between two segments, with blanks around it. -/
structure Joint where
  link : Link
  before : List Char := []
  after : List Char := []
  blankBefore : ∀ c ∈ before, isBlank c = true
  blankAfter : ∀ c ∈ after, isBlank c = true

/-- A line of segments, with blanks around it. -/
structure Line where
  first : Segment
  rest : List (Joint × Segment)
  before : List Char := []
  after : List Char := []
  blankBefore : ∀ c ∈ before, isBlank c = true
  blankAfter : ∀ c ∈ after, isBlank c = true

def Link.joint : Link → List Char
  | and => ['&', '&']
  | or => ['|', '|']

def Segment.chars (g : Segment) : List Char :=
  g.name.toList ++ (g.gapLeft ++ (g.op.sign.toList ++ (g.gapRight ++ g.right.text.toList)))

def Joint.chars (j : Joint) : List Char := j.before ++ (j.link.joint ++ j.after)

/-- The text of segments after the first one. -/
def tailChars (rest : List (Joint × Segment)) : List Char :=
  rest.flatMap fun p => p.1.chars ++ p.2.chars

namespace Line

def body (l : Line) : List Char := l.first.chars ++ tailChars l.rest

def text (l : Line) : String := String.ofList (l.before ++ (l.body ++ l.after))

/-- The segments, each with the link before it; the first is joined to nothing. -/
def segments (l : Line) : List (Link × Segment) :=
  (.and, l.first) :: l.rest.map fun p => (p.1.link, p.2)

end Line

/-- A difference is within the tolerance. -/
def isNear (d : Float) : Bool := d.abs ≤ tolerance

namespace Segment

/-- What a segment comes to. A name that is missing counts as zero; equality compares the left side
less zero with the right side, up to the tolerance. -/
def holds (s : Sight) (g : Segment) : Bool :=
  match g.op with
  | .eq => (s.worth g.name - 0.0).isFinite && isNear (s.worth g.name - 0.0 - g.right.worth s)
  | op => op.holds (s.worth g.name) (g.right.worth s)

end Segment

/-- What a line comes to: its segments joined from the left. -/
def Line.holds (s : Sight) (l : Line) : Bool :=
  l.rest.foldl (fun decided p => p.1.link.join decided (p.2.holds s)) (l.first.holds s)

end Tokens

section Splitting

namespace Segment

variable (g : Segment)

theorem chars_first : ∀ c ∈ g.chars.head?, isBlank c = false := by
  intro c first
  have word := g.word
  rw [chars] at first
  cases name : g.name.toList with
  | nil =>
    rw [name] at word
    cases word
  | cons d rest =>
    rw [name] at first word
    cases first
    exact isBlank_of_identPart (identParts word c List.mem_cons_self)

theorem chars_ne_nil : g.chars ≠ [] := by
  intro none
  have word := g.word
  rw [(List.append_eq_nil_iff.mp none).1] at word
  cases word

theorem chars_last : ∀ c ∈ g.chars.getLast?, isBlank c = false := by
  intro c last
  have some := List.getLast?_isSome.mpr g.right.text_ne_nil
  obtain ⟨d, hd⟩ := Option.isSome_iff_exists.mp some
  simp only [chars, List.getLast?_append, hd, Option.some_or] at last
  cases last
  exact (g.right.tokenChars c (List.mem_of_mem_getLast? hd)).visible

theorem chars_unjointed : ∀ c ∈ g.chars, c ≠ '&' ∧ c ≠ '|' := by
  have blank {cs : List Char} (h : ∀ c ∈ cs, isBlank c = true) : ∀ c ∈ cs, c ≠ '&' ∧ c ≠ '|' := by
    intro c hc
    constructor
    all_goals
      rintro rfl
      cases h _ hc
  simp only [chars, List.forall_mem_append]
  refine ⟨fun c hc => ?_, blank g.blankLeft, ?_, blank g.blankRight, fun c hc => ?_⟩
  · exact (isTokenChar_identPart (identParts g.word c hc)).joint
  · cases g.op <;> exact forall_mem_of_all (by decide)
  · exact (g.right.tokenChars c hc).joint

def afterSign : List Char := g.gapRight ++ g.right.text.toList

theorem trimStart_afterSign : trimStart g.afterSign = g.right.text.toList :=
  trimStart_padded g.blankRight fun c first =>
    (g.right.tokenChars c (List.mem_of_mem_head? first)).visible

theorem dropWord_afterSign : dropWord? ['='] g.afterSign = none := by
  have other : ∀ c ∈ g.afterSign, c ≠ '=' := by
    rw [afterSign, List.forall_mem_append]
    refine ⟨fun c hc => ?_, fun c hc => (g.right.tokenChars c hc).sign⟩
    rintro rfl
    cases g.blankRight _ hc
  cases rest : g.afterSign with
  | nil => rfl
  | cons c rest' =>
    have different : ('=' == c) = false := by
      rw [beq_eq_false_iff_ne]
      exact (other c (by rw [rest]; exact List.mem_cons_self)).symm
    rw [dropWord?, different, if_neg Bool.false_ne_true]

theorem findSome_sign {α : Type} (f : Comparison → List Char → Option α) {a : α}
    (found : f g.op g.afterSign = some a) :
    ([.eq, .ne, .ge, .le, .gt, .lt] : List Comparison).findSome? (fun op =>
      (dropWord? op.sign.toList (g.op.sign.toList ++ g.afterSign)).bind (f op)) = some a := by
  have none := g.dropWord_afterSign
  cases op : g.op
  all_goals
    rw [op] at found
    simp [List.findSome?, Comparison.sign, dropWord?, none, found]

theorem segment_chars : Rule.segment? g.chars = some (g.name, g.op, g.right.text) := by
  obtain ⟨c, rest, name⟩ : ∃ c rest, g.name.toList = c :: rest :=
    List.exists_cons_of_ne_nil fun none => by
      have word := g.word
      rw [none] at word
      cases word
  have word := g.word
  rw [name, isIdentChars, Bool.and_eq_true, List.all_eq_true] at word
  have parts : ∀ d ∈ rest, Rule.isNameChar d = true := fun d hd => by
    rw [Rule.isNameChar, word.2 d hd, Bool.true_or]
  have signed : ∀ d ∈ (g.op.sign.toList ++ g.afterSign).head?, Rule.isNameChar d = false ∧
      isBlank d = false := by
    intro d first
    cases op : g.op
    all_goals
      rw [op] at first
      cases first
      decide
  have gap : ∀ d ∈ (g.gapLeft ++ (g.op.sign.toList ++ g.afterSign)).head?,
      Rule.isNameChar d = false := by
    intro d first
    cases blanks : g.gapLeft with
    | nil =>
      rw [blanks] at first
      exact (signed d first).1
    | cons b bs =>
      have blank := g.blankLeft b (by rw [blanks]; exact List.mem_cons_self)
      rw [blanks] at first
      cases first
      rw [Rule.isNameChar, Bool.or_eq_false_iff, beq_eq_false_iff_ne]
      refine ⟨?_, ?_⟩
      · rw [← Bool.not_eq_true]
        intro part
        rw [isBlank_of_identPart part] at blank
        cases blank
      · rintro rfl
        cases blank
  have whole : g.chars = c :: (rest ++ (g.gapLeft ++ (g.op.sign.toList ++ g.afterSign))) := by
    rw [chars, name, afterSign]
    rfl
  have visible : g.right.text.toList.isEmpty = false := by
    rw [List.isEmpty_eq_false_iff]
    exact g.right.text_ne_nil
  have oneLine : g.right.text.toList.contains '\n' = false := by
    rw [← Bool.not_eq_true, List.contains_iff_mem]
    intro mem
    cases (g.right.tokenChars _ mem).visible
  have taken := Script.takeWhile_append_stop parts gap
  have dropped : (rest ++ (g.gapLeft ++ (g.op.sign.toList ++ g.afterSign))).dropWhile
      Rule.isNameChar = g.gapLeft ++ (g.op.sign.toList ++ g.afterSign) := dropWhile_padded parts gap
  rw [whole]
  simp only [Rule.segment?, word.1, taken, dropped,
    trimStart_padded g.blankLeft fun d first => (signed d first).2]
  refine g.findSome_sign (fun op right => if (trimStart right).isEmpty ||
    (trimStart right).contains '\n' then none else
      some (String.ofList (c :: rest), op, String.ofList (trimStart right))) ?_
  simp only [g.trimStart_afterSign, visible, oneLine, Bool.or_self, Bool.false_eq_true, if_false]
  rw [← name, String.ofList_toList, String.ofList_toList]

end Segment

theorem pieces_plain {c : Char} (h : c ≠ '&' ∧ c ≠ '|') (link : Link) (piece rest : List Char) :
    Rule.pieces link piece (c :: rest) = Rule.pieces link (c :: piece) rest := by
  rw [Rule.pieces]
  · rintro rest' rfl
    exact absurd rfl h.1
  · rintro rest' rfl
    exact absurd rfl h.2

theorem pieces_unjointed {cs : List Char} (h : ∀ c ∈ cs, c ≠ '&' ∧ c ≠ '|') (link : Link)
    (piece rest : List Char) :
    Rule.pieces link piece (cs ++ rest) = Rule.pieces link (cs.reverse ++ piece) rest := by
  induction cs generalizing piece with
  | nil => rfl
  | cons c cs ih =>
    obtain ⟨first, others⟩ := List.forall_mem_cons.mp h
    rw [List.cons_append, pieces_plain first, ih others, List.reverse_cons, List.append_assoc]
    rfl

theorem pieces_joint (before link : Link) (piece rest : List Char) :
    Rule.pieces before piece (link.joint ++ rest) =
      (before, piece.reverse) :: Rule.pieces link [] rest := by
  cases link with
  | and => exact Rule.pieces.eq_2 before piece rest
  | or => exact Rule.pieces.eq_3 before piece rest

theorem pieces_segments (link : Link) {blanks : List Char} (blank : ∀ c ∈ blanks, isBlank c = true)
    (g : Segment) (rest : List (Joint × Segment)) :
    List.Forall₂ (fun p q => p.1 = q.1 ∧ trim p.2 = q.2.chars)
      (Rule.pieces link blanks.reverse (g.chars ++ tailChars rest))
      ((link, g) :: rest.map fun p => (p.1.link, p.2)) := by
  have unjointed {cs : List Char} (h : ∀ c ∈ cs, isBlank c = true) : ∀ c ∈ cs, c ≠ '&' ∧ c ≠ '|' := by
    intro c hc
    constructor
    all_goals
      rintro rfl
      cases h _ hc
  rw [pieces_unjointed g.chars_unjointed, ← List.reverse_append]
  -- Along the joints; the blanks in front of a segment belong to the piece that is being read.
  induction rest generalizing link blanks g with
  | nil =>
    have piece : Rule.pieces link (blanks ++ g.chars).reverse (tailChars []) =
        [(link, (blanks ++ g.chars).reverse.reverse)] := rfl
    have none : ∀ c ∈ ([] : List Char), isBlank c = true := List.forall_mem_nil _
    have core := trim_padded blank none g.chars_first g.chars_last
    rw [List.append_nil] at core
    rw [piece, List.reverse_reverse]
    exact .cons ⟨rfl, core⟩ .nil
  | cons p rest ih =>
    obtain ⟨j, g'⟩ := p
    have tail : tailChars ((j, g') :: rest) =
        j.before ++ (j.link.joint ++ (j.after ++ (g'.chars ++ tailChars rest))) := by
      simp only [tailChars, List.flatMap_cons, Joint.chars, List.append_assoc]
    have core := trim_padded blank j.blankBefore g.chars_first g.chars_last
    rw [tail, pieces_unjointed (unjointed j.blankBefore), pieces_joint,
      pieces_unjointed (unjointed j.blankAfter), pieces_unjointed g'.chars_unjointed,
      List.append_nil, ← List.reverse_append, ← List.reverse_append, List.reverse_reverse,
      List.append_assoc]
    exact .cons ⟨rfl, core⟩ (ih j.link j.blankAfter g')

end Splitting

end EmitterLogic
