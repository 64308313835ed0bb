import EmitterLogic.Proofs.Script.Phrases

namespace EmitterLogic.Script

open Script.Parser

variable {l : Nat} {ks ls : List TokenKind} {e p : Expr}

section Operators

theorem phrase_chained {a b : Expr} {m : Mark} {make : Expr → Expr → Expr} (c : Chained l)
    (sign : operators l m = some make)
    (alike : ∀ a' b', a'.forget = a.forget → b'.forget = b.forget →
      (make a' b').forget = e.forget)
    (left : Phrase ks l a) (right : Phrase ls (l - 1) b) : Phrase (ks ++ .mark m :: ls) l e := by
  have level := operators_looseness sign
  have arrow : m ≠ .arrow := by
    rintro rfl
    cases c <;> cases level
  have room : l - 1 < l ∧ l ≤ 11 := by cases c <;> decide
  refine ⟨left.opens.append _, left.shown.append (right.shown.mark arrow), ?_⟩
  rw [leads_chained c]
  intro n ts rest deep spells follow
  obtain ⟨us, vs, rfl, first, others⟩ := spells.append
  obtain ⟨place, vs, rfl, second⟩ := others.cons
  simp only [List.length_append, List.length_cons] at deep
  have arrows := (right.shown.noArrow second).append follow.arrows
  have enters := left.leads
  rw [leads_chained c] at enters
  obtain ⟨a', k, same, long, read⟩ := enters n us _ (by omega) first
    (follows_mark (m := m) (level ▸ room.1) arrow place arrows)
  obtain ⟨b', same', read'⟩ := right.reads (Nat.le_refl _) (by omega) n vs rest (by omega) second
    follow
  obtain ⟨k, rfl⟩ := Nat.exists_succ long
  refine ⟨make a' b', k, alike a' b' same same', ?_, ?_⟩
  · simp only [List.length_append, List.length_cons] at long
    omega
  · rw [List.append_assoc]
    refine read.trans ?_
    rw [goOn_chained c]
    exact chainFrom_go sign (right.opens.ne_nil second rest) read'

theorem BinaryOp.chained (op : BinaryOp) :
    Chained op.looseness ∧ operators op.looseness op.mark = some (.binary op) := by
  rcases op with _ | _ | _ | _ | _ | r | o
  · exact ⟨.sequence, rfl⟩
  · exact ⟨.equality, rfl⟩
  · exact ⟨.equality, rfl⟩
  · exact ⟨.equality, rfl⟩
  · exact ⟨.equality, rfl⟩
  · cases r <;> exact ⟨.relation, rfl⟩
  · cases o <;> first | exact ⟨.sum, rfl⟩ | exact ⟨.product, rfl⟩

theorem LogicalOp.chained (op : LogicalOp) :
    Chained op.looseness ∧ operators op.looseness op.mark = some (.logical op) := by
  cases op with
  | and => exact ⟨.conjunction, rfl⟩
  | or => exact ⟨.disjunction, rfl⟩

end Operators

section Assignments

theorem phrase_conditional {ms : List TokenKind} {test yes no : Expr} (first : Phrase ks 9 test)
    (second : Phrase ls 10 yes) (third : Phrase ms 10 no) :
    Phrase (ks ++ .mark .question :: (ls ++ .mark .colon :: ms)) 10 (.conditional test yes no) := by
  refine ⟨(first.opens.looser (by decide)).append _, first.shown.append
    ((second.shown.append (third.shown.mark (by decide))).mark (by decide)), ?_⟩
  intro n ts rest deep spells follow
  obtain ⟨us, vs, rfl, one, others⟩ := spells.append
  obtain ⟨question, vs, rfl, branches⟩ := others.cons
  obtain ⟨vs, ws, rfl, two, last⟩ := branches.append
  obtain ⟨colon, ws, rfl, three⟩ := last.cons
  simp only [List.length_append, List.length_cons] at deep
  obtain ⟨d, rfl⟩ : ∃ d, n = d + 1 := ⟨n - 1, by omega⟩
  have arrows := (third.shown.noArrow three).append follow.arrows
  have arrows' := (second.shown.noArrow two).append
    (noArrow_mark (m := .colon) (by decide) colon arrows)
  obtain ⟨test', same, read⟩ := first.reads (Nat.le_refl 9) (by decide) (d + 1) us _ (by omega) one
    (follows_mark (m := .question) (by decide) (by decide) question arrows')
  obtain ⟨yes', same', read'⟩ := second.reads (Nat.le_refl 10) (by decide) d vs _ (by omega) two
    (follows_mark (m := .colon) (by decide) (by decide) colon arrows)
  obtain ⟨no', same'', read''⟩ := third.reads (Nat.le_refl 10) (by decide) d ws rest (by omega)
    three follow
  refine ⟨.conditional test' yes' no', by simp only [Expr.forget, same, same', same''], ?_⟩
  have all : NoArrow (us ++ ⟨.mark .question, question, false⟩ ::
      (vs ++ ⟨.mark .colon, colon, false⟩ :: (ws ++ rest))) :=
    (first.shown.noArrow one).append (noArrow_mark (by decide) question arrows')
  obtain ⟨t, more, rfl, stops⟩ := follow.stops
  have conditional := conditionalOver_choice read rfl (second.opens.ne_nil two _) read' rfl
    (third.opens.ne_nil three _) read''
  simp only [List.append_assoc, List.cons_append]
  exact assignmentOver_ok all conditional
    (stops.none_of fun m op found => (assignOp?_looseness found).le)

theorem phrase_assign (op : AssignOp) {target : Target} (left : Phrase ks 1 target.toExpr)
    (right : Phrase ls 10 e) : Phrase (ks ++ .mark op.mark :: ls) 10 (.assign op target e) := by
  have found : assignOp? op.mark = some op := by
    rcases op with _ | o
    · rfl
    · cases o <;> rfl
  have level := assignOp?_looseness found
  have arrow : op.mark ≠ .arrow := by
    intro e
    rw [e] at level
    cases level
  refine ⟨(left.opens.looser (by decide)).append _, left.shown.append (right.shown.mark arrow), ?_⟩
  intro n ts rest deep spells follow
  obtain ⟨us, vs, rfl, first, others⟩ := spells.append
  obtain ⟨place, vs, rfl, second⟩ := others.cons
  simp only [List.length_append, List.length_cons] at deep
  obtain ⟨d, rfl⟩ : ∃ d, n = d + 1 := ⟨n - 1, by omega⟩
  have arrows := (right.shown.noArrow second).append follow.arrows
  have follow' : MayFollow 9 (⟨.mark op.mark, place, false⟩ :: (vs ++ rest)) :=
    follows_mark (level ▸ by decide) arrow place arrows
  obtain ⟨e', same, read⟩ := left.reads (by decide) (by decide) (d + 1) us _ (by omega) first follow'
  obtain ⟨value', same', read'⟩ := right.reads (Nat.le_refl 10) (by decide) d vs rest (by omega)
    second follow
  obtain ⟨target', assignable, alike⟩ := target?_of_forget same
  refine ⟨.assign op target' value', by simp only [Expr.forget, alike, same'], ?_⟩
  have question : (⟨.mark op.mark, place, false⟩ : Token).isMark .question = false := by
    refine not_isMark rfl ?_
    intro e
    rw [e] at found
    cases found
  rw [List.append_assoc]
  exact assignmentOver_set ((left.shown.noArrow first).append (noArrow_mark arrow place arrows))
    (conditionalOver_ok read question) found (right.opens.ne_nil second rest) assignable read'

end Assignments

section Trees

theorem phrase_number {x : Float} (h : (Expr.number x).Printable) : Phrase [.number x] 0 (.number x) :=
  phrase_token trivial h nofun fun _ _ _ _ => ⟨_, rfl, primaryOver_number rfl⟩

theorem phrase_text (s : String) : Phrase [.text s] 0 (.text s) :=
  phrase_token trivial trivial nofun fun _ _ _ _ => ⟨_, rfl, primaryOver_text rfl⟩

theorem phrase_literal (l : Literal) : Phrase [.word l.word] 0 (.literal l) := by
  have reserved : l.word ≠ "typeof" := by rcases l with (_ | _) | _ | _ <;> decide
  have word : isWord l.word = true := by rcases l with (_ | _) | _ | _ <;> decide
  have literal : literalOf? l.word = some l := by rcases l with (_ | _) | _ | _ <;> rfl
  exact phrase_token (fun _ => reserved) word nofun fun _ _ _ _ =>
    ⟨_, rfl, primaryOver_literal rfl literal⟩

theorem phrase_name {w : String} (word : isWord w = true) (free : isReserved w = false)
    (place : Nat) : Phrase [.word w] 0 (.name w place) := by
  refine phrase_token ?_ word nofun fun _ here _ _ =>
    ⟨.name w here, by simp only [Expr.forget], primaryOver_word rfl free⟩
  rintro _ rfl
  cases free

theorem phrase_binary (op : BinaryOp) {a b : Expr} (left : Phrase ks op.looseness a)
    (right : Phrase ls (op.looseness - 1) b) :
    Phrase (ks ++ .mark op.mark :: ls) op.looseness (.binary op a b) :=
  phrase_chained op.chained.1 op.chained.2
    (fun _ _ same same' => by simp only [Expr.forget, same, same']) left right

theorem phrase_logical (op : LogicalOp) {a b : Expr} (left : Phrase ks op.looseness a)
    (right : Phrase ls (op.looseness - 1) b) :
    Phrase (ks ++ .mark op.mark :: ls) op.looseness (.logical op a b) :=
  phrase_chained op.chained.1 op.chained.2
    (fun _ _ same same' => by simp only [Expr.forget, same, same']) left right

theorem Expr.looseness_le (e : Expr) : e.looseness ≤ 11 := by
  have chained {l : Nat} (c : Chained l) : l ≤ 11 := by cases c <;> decide
  cases e with
  | binary op a b => exact chained op.chained.1
  | logical op a b => exact chained op.chained.1
  | update op before t => cases before <;> exact Nat.le_of_ble_eq_true rfl
  | _ => exact Nat.le_of_ble_eq_true rfl

theorem Phrase.grouped {e : Expr} (h : Phrase e.kinds e.looseness e) {level : Nat}
    (top : level ≤ 11) : Phrase (group level e.looseness e.kinds) level e :=
  phrase_group h e.looseness_le top

mutual

theorem Expr.phrase : (e : Expr) → e.Printable → Phrase e.kinds e.looseness e
  | .number x, h => by
    rw [Expr.kinds]
    exact phrase_number h
  | .text s, _ => by
    rw [Expr.kinds]
    exact phrase_text s
  | .literal l, _ => by
    rw [Expr.kinds]
    exact phrase_literal l
  | .name id place, h => by
    rw [Expr.Printable] at h
    rw [Expr.kinds]
    exact phrase_name h.1 h.2 place
  | .member e p, h => by
    rw [Expr.Printable] at h
    rw [Expr.kinds]
    exact phrase_member ((e.phrase h.1).grouped (by decide)) h.2
  | .index e p, h => by
    rw [Expr.Printable] at h
    rw [Expr.kinds]
    exact phrase_index ((e.phrase h.1).grouped (by decide)) (p.phrase h.2) p.looseness_le
  | .call e args, h => by
    rw [Expr.Printable] at h
    rw [Expr.kinds]
    have callee : Phrase (group 1 e.looseness e.kinds) 1 e := (e.phrase h.1).grouped (by decide)
    cases args with
    | nil => exact phrase_emptyCall callee
    | cons a args => exact phrase_call callee (phrases_kinds (a :: args) nofun h.2)
  | .unary op e, h => by
    rw [Expr.Printable] at h
    rw [Expr.kinds]
    exact phrase_unary op ((e.phrase h).grouped (by decide))
  | .update op true t, h => by
    rw [Expr.Printable] at h
    rw [Expr.kinds]
    exact phrase_before op ((t.phrase h).looser (by decide) (by decide))
  | .update op false t, h => by
    rw [Expr.Printable] at h
    rw [Expr.kinds]
    exact phrase_after op (t.phrase h)
  | .binary op a b, h => by
    rw [Expr.Printable] at h
    rw [Expr.kinds]
    have top := (Expr.binary op a b).looseness_le
    exact phrase_binary op ((a.phrase h.1).grouped top)
      ((b.phrase h.2).grouped (Nat.le_trans (Nat.sub_le _ 1) top))
  | .logical op a b, h => by
    rw [Expr.Printable] at h
    rw [Expr.kinds]
    have top := (Expr.logical op a b).looseness_le
    exact phrase_logical op ((a.phrase h.1).grouped top)
      ((b.phrase h.2).grouped (Nat.le_trans (Nat.sub_le _ 1) top))
  | .conditional test yes no, h => by
    rw [Expr.Printable] at h
    rw [Expr.kinds]
    exact phrase_conditional ((test.phrase h.1).grouped (by decide))
      ((yes.phrase h.2.1).grouped (by decide)) ((no.phrase h.2.2).grouped (by decide))
  | .assign op t e, h => by
    rw [Expr.Printable] at h
    rw [Expr.kinds]
    exact phrase_assign op (t.phrase h.1) ((e.phrase h.2).grouped (by decide))
  | .list items, h => by
    rw [Expr.Printable] at h
    rw [Expr.kinds]
    cases items with
    | nil => exact phrase_emptyList
    | cons a items => exact phrase_list (phrases_kinds (a :: items) nofun h)

theorem Target.phrase : (t : Target) → t.Printable → Phrase t.kinds 1 t.toExpr
  | .name id place, h => by
    rw [Target.Printable] at h
    rw [Target.kinds]
    exact (phrase_name h.1 h.2 place).looser (by decide) (by decide)
  | .member e p, h => by
    rw [Target.Printable] at h
    rw [Target.kinds]
    exact phrase_member ((e.phrase h.1).grouped (by decide)) h.2
  | .index e p, h => by
    rw [Target.Printable] at h
    rw [Target.kinds]
    exact phrase_index ((e.phrase h.1).grouped (by decide)) (p.phrase h.2) p.looseness_le

theorem phrases_kinds : (es : List Expr) → es ≠ [] → AllPrintable es → Phrases (listKinds es) es
  | [], nonempty, _ => absurd rfl nonempty
  | [e], _, h => by
    rw [AllPrintable] at h
    rw [listKinds]
    exact .one ((e.phrase h.1).grouped (by decide))
  | e :: e' :: es, _, h => by
    rw [AllPrintable] at h
    rw [listKinds]
    · exact .more ((e.phrase h.1).grouped (by decide)) (phrases_kinds (e' :: es) nofun h.2)
    · exact nofun

end

end Trees

section Reading

theorem spells_placed (ks : List TokenKind) (place : Nat) : Spells (placed ks place) ks := by
  induction ks generalizing place with
  | nil => exact ⟨rfl, nofun⟩
  | cons k ks ih =>
    have others := ih (place + k.chars.length + 1)
    exact ⟨congrArg (k :: ·) others.kinds, List.forall_mem_cons.mpr ⟨rfl, others.unbroken⟩⟩

theorem Phrase.parse {l : Nat} (h : Phrase ks l e) (top : l ≤ 11) :
    ∃ e', e'.forget = e.forget ∧ parseExpression (String.ofList (spelled ks)) = .ok e' := by
  let finish : Token := ⟨.finish, (spelled ks).length, false⟩
  let all := placed ks 0 ++ [finish]
  have spells := spells_placed ks 0
  have deep : ks.length ≤ all.length := by
    rw [List.length_append, spells.length]
    exact Nat.le_add_right _ _
  obtain ⟨e', same, read⟩ := h.reads top (Nat.le_refl 11) all.length (placed ks 0) [finish] deep
    spells ⟨.cons rfl nofun, finish, [], rfl, nofun⟩
  have begun : (front all).isFinish = false := by
    obtain ⟨k, more, rfl, opens⟩ := h.opens
    cases k with
    | finish => exact opens.elim
    | _ => rfl
  have whole : wholeExpression all = .ok (e', [finish]) := by
    refine (bind_read rfl _).trans ?_
    rw [begun]
    have entered : expression all = .ok (e', [finish]) := (bind_read rfl _).trans read
    exact (bind_read entered _).trans ((bind_read (a := finish) rfl _).trans rfl)
  refine ⟨e', same, ?_⟩
  rw [parseExpression, parseWith, tokens_spelled fun k member => (h.shown k member).1]
  have run : (Except.ok all >>= fun ts => wholeExpression.run ts) = wholeExpression all := rfl
  rw [run, whole]

/-- A printed expression is read as the expression it was printed from, up to the places of its
names. -/
theorem parse_printed {e : Expr} (h : e.Printable) :
    (parseExpression e.printed).map Expr.forget = .ok e.forget := by
  obtain ⟨e', same, parsed⟩ := (e.phrase h).parse e.looseness_le
  rw [Expr.printed, parsed, Except.map, same]

/-- A call of a choice between a list and a name, a difference of differences, and texts and commas
inside. -/
def mingled : Expr :=
  .assign (.compound .sub)
    (.member (.call (.conditional (.name "a" 4) (.list []) (.name "b" 9))
      [.text "\"\\\n", .binary .sequence (.name "c" 0) (.literal .null)]) "d")
    (.binary (.arith .sub) (.unary .negate (.update .increment false (.name "e" 0)))
      (.binary (.arith .sub) (.number 1.5)
        (.index (.name "f" 0) (.binary .sequence (.number 0) (.name "g" 0)))))

example : mingled.printed = "( a ? [ ] : b ) ( \"\\\"\\\\\\n\" , ( c , null ) ) . d -= " ++
    "- e ++ - ( 1.5 - f [ 0.0 , g ] )" := by decide +kernel

theorem mingled_printable : mingled.Printable := by
  have finite : (1.5 : Float).isFinite = true ∧ (0 : Float).isFinite = true := by decide
  have number : Binary64.parts? 1.5 = some ⟨false, 6755399441055744, -52⟩ := by decide +kernel
  have zero : Binary64.parts? 0 = some ⟨false, 0, -1074⟩ := by decide
  have words : ∀ w ∈ ["a", "b", "c", "d", "e", "f", "g"], isWord w = true ∧ isReserved w = false := by
    decide
  simp only [List.forall_mem_cons] at words
  simp [mingled, Expr.Printable, Target.Printable, AllPrintable, Binary64.Unsigned, finite, number,
    zero, words]

theorem parse_printed_mingled : mingled.Printable ∧
    (parseExpression mingled.printed).map Expr.forget = .ok mingled.forget :=
  ⟨mingled_printable, parse_printed mingled_printable⟩

end Reading

end EmitterLogic.Script
