import EmitterLogic.Proofs.Condition.SegmentRules

namespace EmitterLogic

open Session Text

section Lines

namespace Line

variable (l : Line) {s : Sight}

theorem body_ends : (∀ c ∈ l.body.head?, isBlank c = false) ∧
    ∀ c ∈ l.body.getLast?, isBlank c = false := by
  have ends (g : Segment) (rest : List (Joint × Segment)) :
      ∀ c ∈ (g.chars ++ tailChars rest).getLast?, isBlank c = false := by
    induction rest generalizing g with
    | nil =>
      have alone : g.chars ++ tailChars [] = g.chars := List.append_nil _
      rw [alone]
      exact g.chars_last
    | cons p rest ih =>
      obtain ⟨j, g'⟩ := p
      have split : g.chars ++ tailChars ((j, g') :: rest) =
          (g.chars ++ j.chars) ++ (g'.chars ++ tailChars rest) := by
        simp only [tailChars, List.flatMap_cons, List.append_assoc]
      have some : g'.chars ++ tailChars rest ≠ [] := List.append_ne_nil_of_left_ne_nil g'.chars_ne_nil _
      intro c last
      rw [split, List.getLast?_append_of_ne_nil _ some] at last
      exact ih g' c last
  refine ⟨?_, ends l.first l.rest⟩
  rw [body, List.head?_append_of_ne_nil _ l.first.chars_ne_nil]
  exact l.first.chars_first

theorem ofText_line : ∃ rules, Rule.ofText l.text = .ok rules ∧
    List.Forall₂ (fun q r => r.link = q.1 ∧ q.2.Gives r) l.segments rules := by
  have none : ∀ c ∈ ([] : List Char), isBlank c = true := nofun
  have cut := pieces_segments .and none l.first l.rest
  obtain ⟨rules, made, gives⟩ := ofPieces_segments cut [] fun _ q head => by
    cases head
    rfl
  obtain ⟨first, last⟩ := l.body_ends
  refine ⟨rules, ?_, gives⟩
  rw [Rule.ofText, text, String.toList_ofList, trim_padded l.blankBefore l.blankAfter first last]
  exact made

theorem text_visible : (trimmed l.text != "") = true := by
  obtain ⟨first, last⟩ := l.body_ends
  have core : trimmed l.text = String.ofList l.body := by
    rw [trimmed, text, String.toList_ofList, trim_padded l.blankBefore l.blankAfter first last]
  rw [core, bne_iff_ne]
  intro none
  have empty := congrArg String.toList none
  rw [String.toList_ofList] at empty
  exact l.first.chars_ne_nil (List.append_eq_nil_iff.mp empty).1

theorem ofDatum_text {rules : List Rule} (made : Rule.ofText l.text = .ok rules) (some : rules ≠ [])
    (headed : Filter.headed rules = rules) :
    Filter.ofDatum (.text l.text) = .ok ⟨true, rules⟩ := by
  have present : (Datum.text l.text).isTruthy = true := by
    rw [Datum.isTruthy, bne_iff_ne]
    intro none
    have visible := l.text_visible
    rw [none] at visible
    cases visible
  have given : Filter.givenRules (Filter.objectOfText l.text) false = .ok rules := by
    have expr : ((Filter.objectOfText l.text).getD "expr").orElse
        ((Filter.objectOfText l.text).getD "condition") = .text l.text := if_pos present
    have unlisted : Filter.givenRules (Filter.objectOfText l.text) false =
        Rule.ofText (((Filter.objectOfText l.text).getD "expr").orElse
          ((Filter.objectOfText l.text).getD "condition")).textOrEmpty false := rfl
    rw [unlisted, expr, Datum.textOrEmpty_text, made]
  have chosen : Filter.someRules rules false = .ok rules :=
    if_neg fun empty => some (List.isEmpty_iff.mp empty)
  have enabled : ((Filter.objectOfText l.text).getD "enabled").isTruthy = true := l.text_visible
  have unchanged (r : Rule) : Filter.withReasonRight false r = r := by
    rw [Filter.withReasonRight, Bool.false_and, if_neg Bool.false_ne_true]
  have object : Filter.ofDatum (.text l.text) =
      Filter.ofObject (Filter.objectOfText l.text) false := rfl
  rw [object, Filter.ofObject_eq, bind_of_ok given, bind_of_ok chosen, enabled, headed,
    List.map_congr_left fun r _ => unchanged r, List.map_id']
  rfl

/-- A line of text gives an enabled filter with the rules of its segments, in order and joined by its
links, and the filter is decided by joining what the segments come to from the left. -/
theorem ofDatum_decides (inRange : s.InRange) : ∃ f, Filter.ofDatum (.text l.text) = .ok f ∧
    f.enabled = true ∧ List.Forall₂ (fun q r => r.link = q.1 ∧ q.2.Gives r) l.segments f.rules ∧
      Answers (f.holds s) (.ok (l.holds s)) := by
  obtain ⟨rules, made, gives⟩ := l.ofText_line
  refine ⟨⟨true, rules⟩, ?_, rfl, gives, ?_⟩
  · cases gives with
    | @cons q r segments rest first others =>
      have head : { r with link := .and } = r := by
        obtain ⟨id, link⟩ := r
        obtain rfl : link = .and := first.1
        rfl
      exact l.ofDatum_text made (List.cons_ne_nil _ _) (congrArg (· :: rest) head)
  · cases gives with
    | @cons q r segments rest first others =>
      have unfolded : Filter.holds ⟨true, r :: rest⟩ s =
          r.holds s >>= fun ok => Filter.holdsFrom s ok rest := rfl
      rw [unfolded]
      refine (first.2.holds inRange).seq (Filter.holdsFrom_answers ?_ _)
      exact (List.forall₂_map_left_iff.mp others).imp fun p r same => ⟨same.1, same.2.holds inRange⟩

theorem oneBlank : ∀ c ∈ [' '], isBlank c = true := List.forall_mem_singleton.mpr rfl

theorem noBlanks : ∀ c ∈ ([] : List Char), isBlank c = true := List.forall_mem_nil _

/-- `age == 5 || hp<-1.5 && life != gone`, which precedence would decide otherwise. -/
def mixed : Line where
  first := ⟨"age", .eq, .numeral "5" 5.0 rfl rfl rfl, [' '], [' '], rfl, by decide, oneBlank, oneBlank⟩
  rest := [
    (⟨.or, [' '], [' '], oneBlank, oneBlank⟩,
      ⟨"hp", .lt, .numeral "-1.5" (-1.5) rfl rfl rfl, [], [], rfl, by decide, noBlanks, noBlanks⟩),
    (⟨.and, [' '], [' '], oneBlank, oneBlank⟩,
      ⟨"life", .ne, .name "gone" rfl (by decide), [' '], [' '], rfl, by decide, oneBlank, oneBlank⟩)]
  blankBefore := noBlanks
  blankAfter := noBlanks

theorem ofDatum_decides_mixed :
    let s : Sight := ⟨[("age", .int 5)], [("hp", .float 2.0)]⟩
    mixed.text = "age == 5 || hp<-1.5 && life != gone" ∧ s.InRange ∧
      ∃ f, Filter.ofDatum (.text mixed.text) = .ok f ∧ f.rules.map (·.link) = [.and, .or, .and] ∧
        Answers (f.holds s) (.ok false) := by
  intro s
  have inRange : s.InRange := by
    exact ⟨.of_forall (List.forall_mem_singleton.mpr (.number ⟨5.0, rfl⟩)),
      .of_forall (List.forall_mem_singleton.mpr (.float _))⟩
  obtain ⟨f, made, enabled, gives, decided⟩ := mixed.ofDatum_decides inRange
  have links : f.rules.map (·.link) = mixed.segments.map (·.1) := by
    generalize mixed.segments = segments at gives
    generalize f.rules = rules at gives
    induction gives with
    | nil => rfl
    | cons first _ ih => rw [List.map_cons, List.map_cons, first.1, ih]
  have joined : mixed.holds s = false := by decide +kernel
  rw [joined] at decided
  exact ⟨by decide, inRange, f, made, links, decided⟩

end Line

end Lines

end EmitterLogic
