import EmitterLogic.Proofs.Condition.Normal
import EmitterLogic.Proofs.Datum.InRange

namespace EmitterLogic

namespace Rule

variable {d : Datum}

theorem rightOf_ok (h : d.InRange) (allowReason : Bool) :
    ∃ right, rightOf d allowReason = .ok right := by
  simp only [rightOf]
  split
  · exact ⟨_, rfl⟩
  · split
    · exact ⟨_, rfl⟩
    · split
      · exact ⟨_, rfl⟩
      · obtain ⟨x, value⟩ := (h.getD "rightValue").finiteOrZero
        exact ⟨.number x, by rw [value, Except.map]⟩

theorem ofDatum_ok (h : d.InRange) (allowReason : Bool) : ∃ r, ofDatum d allowReason = .ok r := by
  obtain ⟨right, found⟩ := rightOf_ok h allowReason
  obtain ⟨c, computed⟩ :=
    computedOf_ok (leftOf d allowReason) right fun key _ => (h.getD (key ++ "TermValue")).finite?
  rw [ofDatum, found]
  simp only [bind, Except.bind, computed]
  exact ⟨_, rfl⟩

theorem template_inRange : ∀ f ∈ template, f.2.InRange := by
  simp only [template, List.forall_mem_cons]
  exact ⟨.text _, .text _, .text _, .text _, .text _, .text _, .int_zero, .text _, .text _, .text _,
    .text _, .text _, .text _, .text _, .int_zero, .text _, .int_zero, List.forall_mem_nil _⟩

theorem create_ok {seed : Fields Datum} (h : ∀ f ∈ seed, f.2.InRange) (allowReason : Bool) :
    ∃ r, create seed allowReason = .ok r := by
  refine ofDatum_ok (.object (Fields.forall_merge template_inRange fun f given => ?_)) allowReason
  exact h f (List.mem_of_mem_filter given)

section Lines

variable {allowReason : Bool}

theorem rightSeed_inRange (s : String) (allowReason : Bool) : (rightSeed s allowReason).2.InRange := by
  simp only [rightSeed]
  split
  · exact .float _
  · split
    · exact .text _
    · split
      · exact .text _
      · split
        · exact .int_zero
        · split
          · exact .int_zero
          · split
            · exact .text _
            · exact .int_zero

theorem termEntries_inRange (key : String) (t : Term) : ∀ f ∈ termEntries key t, f.2.InRange := by
  have value : t.value.InRange := by
    cases t with
    | number x => exact .float x
    | named w => exact .text w
    | builtin b => exact .int_zero
  simp only [termEntries, List.forall_mem_cons]
  exact ⟨.text _, value, List.forall_mem_nil _⟩

theorem equalitySeed_ok (left : String × String) {right : String × Datum} (h : right.2.InRange) :
    ∃ seed, equalitySeed left right = .ok seed ∧ ∀ f ∈ seed, f.2.InRange := by
  rw [equalitySeed]
  split
  · exact ⟨[], rfl, List.forall_mem_nil _⟩
  · have value : (if left.1 == "var" then Datum.text left.2 else .int 0).InRange := by
      split
      · exact .text _
      · exact .int_zero
    have none : ∃ x?, ({} : RawTerm).value.finite? = .ok x? := ⟨some 0.0, Term.zero_finite⟩
    obtain ⟨t, first⟩ := Term.normalize_ok (.text left.1) {} value.finite? none
    obtain ⟨u, second⟩ := Term.normalize_ok (.text right.1) {} h.finite? none
    simp only [first, second, bind, Except.bind]
    refine ⟨_, rfl, ?_⟩
    simp only [List.forall_mem_append, List.forall_mem_cons]
    exact ⟨⟨termEntries_inRange _ t, .text _, .int_zero, List.forall_mem_nil _⟩,
      termEntries_inRange _ u⟩

def segmentSeed (link : Link) (op : Comparison) (left : String × String) (right : String × Datum) :
    Fields Datum := [
  ("link", .text link.name),
  ("op", .text op.sign),
  ("left", .text left.1),
  ("leftVar", .text left.2),
  ("right", .text right.1),
  ("rightValue", right.2)]

def termsOfSegment (op : Comparison) (left : String × String) (right : String × Datum) :
    Except Fault (Fields Datum) := if op == .eq then equalitySeed left right else .ok []

theorem ofSegment_eq (link : Link) (name : String) (op : Comparison) (right : String)
    (allowReason : Bool) : ofSegment link name op right allowReason =
      termsOfSegment op (leftSeed name allowReason) (rightSeed right allowReason) >>= fun terms =>
        create ((segmentSeed link op (leftSeed name allowReason)
          (rightSeed right allowReason)).merge terms) allowReason := by
  simp only [ofSegment, termsOfSegment]
  split <;> rfl

theorem termsOfSegment_ok (op : Comparison) (left : String × String) {right : String × Datum}
    (h : right.2.InRange) :
    ∃ terms, termsOfSegment op left right = .ok terms ∧ ∀ f ∈ terms, f.2.InRange := by
  rw [termsOfSegment]
  split
  · exact equalitySeed_ok left h
  · exact ⟨[], rfl, List.forall_mem_nil _⟩

theorem segmentSeed_inRange (link : Link) (op : Comparison) (left : String × String)
    {right : String × Datum} (h : right.2.InRange) :
    ∀ f ∈ segmentSeed link op left right, f.2.InRange := by
  simp only [segmentSeed, List.forall_mem_cons]
  exact ⟨.text _, .text _, .text _, .text _, .text _, h, List.forall_mem_nil _⟩

theorem ofSegment_ok (link : Link) (name : String) (op : Comparison) (right : String)
    (allowReason : Bool) : ∃ r, ofSegment link name op right allowReason = .ok r := by
  have value := rightSeed_inRange right allowReason
  obtain ⟨terms, found, inRange⟩ := termsOfSegment_ok op (leftSeed name allowReason) value
  have seed := segmentSeed_inRange link op (leftSeed name allowReason) value
  rw [ofSegment_eq, bind_of_ok found]
  exact create_ok (Fields.forall_merge seed inRange) allowReason

theorem ofPieces_ok (done : List Rule) (pieces : List (Link × List Char)) (allowReason : Bool) :
    ∃ rules, ofPieces allowReason done pieces = .ok rules := by
  induction pieces generalizing done with
  | nil => exact ⟨done.reverse, rfl⟩
  | cons p rest ih =>
    obtain ⟨link, piece⟩ := p
    rw [ofPieces]
    split
    · exact ih done
    · next name op right _ =>
      obtain ⟨r, made⟩ :=
        ofSegment_ok (if done.isEmpty then .and else link) name op right allowReason
      simp only [made, bind, Except.bind]
      exact ih (r :: done)

end Lines

end Rule

namespace Filter

variable {raw : Datum}

theorem ofObject_ok (h : raw.InRange) (allowReason : Bool) :
    ∃ f, ofObject raw allowReason = .ok f := by
  obtain ⟨given, found⟩ : ∃ rules, givenRules raw allowReason = .ok rules := by
    rw [givenRules]
    split
    · next items listed =>
      have inRange := h.getD "rules"
      rw [listed] at inRange
      cases inRange with
      | list items => exact exists_mapM_ok fun d hd => Rule.ofDatum_ok (items d hd) allowReason
    · exact Rule.ofPieces_ok _ _ _
  obtain ⟨rules, some⟩ : ∃ rules, someRules given allowReason = .ok rules := by
    rw [someRules]
    split
    · obtain ⟨r, made⟩ := Rule.create_ok (List.forall_mem_nil _) allowReason
      exact ⟨[r], by rw [made, Except.map]⟩
    · exact ⟨given, rfl⟩
  rw [ofObject_eq, found]
  simp only [bind, Except.bind, some]
  exact ⟨_, rfl⟩

theorem objectOfText_inRange (s : String) : (objectOfText s).InRange := by
  refine .object ?_
  simp only [List.forall_mem_cons]
  exact ⟨.bool _, .text _, List.forall_mem_nil _⟩

theorem ofDatum_ok (h : raw.InRange) (allowReason : Bool) :
    ∃ f, ofDatum raw allowReason = .ok f := by
  cases raw with
  | object entries => exact ofObject_ok h allowReason
  | text s => exact ofObject_ok (objectOfText_inRange s) allowReason
  | _ => exact ofObject_ok (.object (List.forall_mem_nil _)) allowReason

end Filter

end EmitterLogic
