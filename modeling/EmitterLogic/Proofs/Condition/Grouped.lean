import EmitterLogic.Condition.Kotlin
import EmitterLogic.Proofs.Predicate.Embedded

/-!
Predicates that are joined. A predicate in parentheses is one operand of whatever stands around it, so
that the code of a chain of predicates groups as the chain is decided; unless a text ends in a comment,
which hides the parenthesis after it.
-/

namespace EmitterLogic

open Script Script.Parser

namespace Predicate

structure Group (ts : List Token) (e : Expr) : Prop where
  begins : ∃ t us, ts = t :: us ∧ t.kind = .mark .leftParen
  noArrow : NoArrow ts
  reads : ∀ n t more, ts.length ≤ n → NoArrow (t :: more) → ∃ e', Same e e' ∧
    primaryOver (assignment n) (statement n) (ts ++ t :: more) = .ok (e', t :: more)

structure Reads (ts : List Token) (e : Expr) : Prop where
  begins : ∃ t us, ts = t :: us ∧ t.kind = .mark .leftParen
  noArrow : NoArrow ts
  reads : ∀ n t more, ts.length ≤ n → NoArrow (t :: more) → Rank.whole.Follow t →
    ∃ e', Same e e' ∧ assignment (n + 1) (ts ++ t :: more) = .ok (e', t :: more)

def Grouped (s : List Char) (e : Expr) : Prop :=
  ∃ ts : Nat → List Token, Lexes s ts (fun _ => True) ∧ ∀ place, Group (ts place) e

def Spells (s : List Char) (e : Expr) : Prop :=
  ∃ ts : Nat → List Token, Lexes s ts (fun _ => True) ∧ ∀ place, Reads (ts place) e

/-- A text that spells a predicate and does not end in a comment. -/
structure Embeds (text : String) (p : Predicate) : Prop where
  compiled : compile text = .ok p
  closed : endsInComment 0 text.toList = false

section Parentheses

variable {text : String} {p : Predicate}

theorem Embeds.grouped (h : Embeds text p) : Grouped ('(' :: (text.toList ++ [')'])) p.expr := by
  obtain ⟨allowed, parsed⟩ := compile_reads h.compiled
  obtain ⟨ts, vs, lexed, whole⟩ := parseExpression_ok parsed
  obtain ⟨read, ended⟩ := wholeExpression_ok whole
  have quotes : ∀ c ∈ text.toList, isQuote c = false := fun c hc =>
    isQuote_of_allowed ((permitted_of_isAllowed allowed).chars c hc)
  obtain ⟨us, last, rfl, finish, goes, lexes⟩ := lexes_enclosed quotes h.closed lexed
  have plain : ∀ t ∈ us, IsPlain t.kind := fun t ht =>
    tokens_plain allowed lexed t (List.mem_append_left _ ht)
  have whole := lexes_opening.append lexes fun _ _ => trivial
  refine ⟨_, whole, fun place => ?_⟩
  let d := place + 1
  let close : Token := ⟨.mark .rightParen, d + text.toList.length, last.afterBreak⟩
  have carried (more : List Token) :
      Carried d (close :: more) (us ++ [last]) (us.map (Token.moved d) ++ close :: more) :=
    .append goes plain finish
  have arrows : NoArrow [close] := List.forall_mem_singleton.mpr rfl
  refine ⟨⟨_, _, rfl, rfl⟩, .cons rfl ?_, fun n t more deep later => ?_⟩
  · exact (carried []).noArrow' arrows
  · have moves : Moves d (close :: t :: more) (assignment ((us ++ [last]).length + 1))
        (assignment n) := by
      refine Carries.assignment rfl (arrows.append later) ?_
      simp only [List.length_append, List.length_map, List.length_cons, List.length_nil] at deep ⊢
      omega
    obtain ⟨e', vs', read', same, left, _⟩ :=
      Carries.expressionOver rfl moves _ _ (carried (t :: more)) _ _ read
    rw [left.of_finish ended] at read'
    refine ⟨e', same, ?_⟩
    have grouped := primaryOver_parens (S := statement n) (u := Code.markAt .leftParen place) rfl
      (carried (t :: more)).ne_nil' read' rfl
    have tokens : [Code.markAt .leftParen place] ++ (us.map (Token.moved d) ++ [close]) ++ t :: more =
        Code.markAt .leftParen place :: (us.map (Token.moved d) ++ close :: t :: more) := by
      simp
    exact (congrArg _ tokens).trans grouped

end Parentheses

namespace Group

variable {ts us : List Token} {e a b : Expr} {t : Token} {more : List Token} {n : Nat}

theorem unary (h : Group ts e) (deep : ts.length ≤ n) (arrows : NoArrow (t :: more))
    (follow : Rank.operand.Follow t) : ∃ e', Same e e' ∧
      unaryOver (assignment n) (statement n) (ts ++ t :: more) = .ok (e', t :: more) := by
  obtain ⟨e', same, read⟩ := h.reads n t more deep arrows
  obtain ⟨u, us, rfl, opening⟩ := h.begins
  have access : accessOver (assignment n) (statement n) (u :: us ++ t :: more) =
      .ok (e', t :: more) := (bind_read read _).trans ((bind_read rfl _).trans (accessFrom_stop _ follow _))
  have after := afterOver_ok access (follow.none_of rfl)
  have unary : unaryOp? u = none := by rw [unaryOp?, opening]
  have update : u.mark?.bind updateOp? = none := by
    rw [Token.mark?, opening]
    rfl
  exact ⟨e', same, (bind_read rfl _).trans (unaryFrom_operand unary update after _)⟩

theorem single (h : Group ts e) : Reads ts e where
  begins := h.begins
  noArrow := h.noArrow
  reads n t more deep arrows follow := by
    obtain ⟨e', same, read⟩ := h.unary deep arrows follow.operand
    refine ⟨e', same, ?_⟩
    rw [assignment]
    exact assignmentOver_whole (h.noArrow.append arrows) (operatorsOver_single read follow) follow

theorem joined (first : Group ts a) (second : Group us b) (l : Link) {sign : Token}
    (mark : sign.mark? = some (Connective.link l).mark) :
    Reads (ts ++ sign :: us) ((Connective.link l).make a b) := by
  have signArrow : sign.isMark .arrow = false := not_isMark mark (by cases l <;> decide)
  refine ⟨?_, first.noArrow.append (.cons signArrow second.noArrow),
    fun n t more deep arrows follow => ?_⟩
  · obtain ⟨u, vs, rfl, opening⟩ := first.begins
    exact ⟨u, _, rfl, opening⟩
  rw [List.length_append, List.length_cons] at deep
  have rightArrows : NoArrow (us ++ t :: more) := second.noArrow.append arrows
  have follows : Rank.operand.Follow sign := by
    intro m hm
    rw [mark] at hm
    cases hm
    cases l <;> decide
  obtain ⟨a', sameLeft, left⟩ :=
    first.unary (n := n) (by omega) (.cons signArrow rightArrows) follows
  obtain ⟨b', sameRight, right⟩ := second.unary (n := n) (by omega) arrows follow.operand
  have some : us ++ t :: more ≠ [] := List.append_ne_nil_of_right_ne_nil _ (List.cons_ne_nil _ _)
  refine ⟨(Connective.link l).make a' b', ?_, ?_⟩
  · have forgets : a'.forget = a.forget ∧ b'.forget = b.forget := ⟨sameLeft, sameRight⟩
    cases l
    all_goals
      simp only [Same, Connective.make, Expr.forget]
      rw [forgets.1, forgets.2]
  · rw [assignment, List.append_assoc, List.cons_append]
    exact assignmentOver_whole (first.noArrow.append (.cons signArrow rightArrows))
      (operatorsOver_joined left mark some right follow) follow

end Group

theorem Reads.group {ts : List Token} {e : Expr} (h : Reads ts e) {opening closing : Token}
    (opens : opening.kind = .mark .leftParen) (closes : closing.kind = .mark .rightParen) :
    Group (opening :: (ts ++ [closing])) e := by
  have mark : closing.mark? = some .rightParen := by rw [Token.mark?, closes]
  have single : NoArrow [closing] := List.forall_mem_singleton.mpr (not_isMark mark (by decide))
  have mark' : opening.mark? = some .leftParen := by rw [Token.mark?, opens]
  refine ⟨⟨_, _, rfl, opens⟩, .cons (not_isMark mark' (by decide)) (h.noArrow.append single),
    fun n t more deep arrows => ?_⟩
  simp only [List.length_append, List.length_cons, List.length_nil] at deep
  obtain ⟨m, rfl⟩ : ∃ m, n = m + 1 := ⟨n - 1, by omega⟩
  have follow : Rank.whole.Follow closing := by
    intro m hm
    rw [mark] at hm
    exact (Option.some.inj hm).symm
  obtain ⟨e', same, read⟩ := h.reads m closing (t :: more) (by omega) (single.append arrows) follow
  have some : ts ++ closing :: t :: more ≠ [] :=
    List.append_ne_nil_of_right_ne_nil _ (List.cons_ne_nil _ _)
  refine ⟨e', same, ?_⟩
  rw [List.cons_append, List.append_assoc]
  exact primaryOver_group opens some read closes

namespace Grouped

variable {s s' : List Char} {a b e : Expr}

theorem spells (h : Grouped s e) : Spells s e := by
  obtain ⟨ts, lexes, groups⟩ := h
  exact ⟨ts, lexes, fun place => (groups place).single⟩

theorem joined (first : Grouped s a) (second : Grouped s' b) (l : Link) :
    Spells (s ++ (' ' :: (l.toKotlin.toList ++ ' ' :: s'))) ((Connective.link l).make a b) := by
  obtain ⟨ts, lexes, groups⟩ := first
  obtain ⟨us, lexes', groups'⟩ := second
  have right := lexes_space.append lexes' fun _ _ => trivial
  have sign := (lexes_connective (.link l)).append right fun rest _ => ⟨_, rfl⟩
  have spaced := lexes_space.append sign fun _ _ => trivial
  have whole := lexes.append spaced fun _ _ => trivial
  have text : (Connective.link l).mark.text = l.toKotlin := by cases l <;> rfl
  rw [text] at whole
  exact ⟨_, whole, fun place => (groups _).joined (groups' _) l rfl⟩

end Grouped

namespace Spells

variable {s : List Char} {e : Expr}

theorem grouped (h : Spells s e) : Grouped ('(' :: (s ++ [')'])) e := by
  obtain ⟨ts, lexes, reads⟩ := h
  have inside := lexes.append lexes_closing fun _ _ => trivial
  exact ⟨_, lexes_opening.append inside fun _ _ => trivial, fun place => (reads _).group rfl rfl⟩

theorem parses (h : Spells s e) : ∃ g, parseExpression (String.ofList s) = .ok g ∧ Same e g := by
  obtain ⟨ts, lexes, reads⟩ := h
  let finish : Token := ⟨.finish, s.length, false⟩
  have lexed : tokens (String.ofList s) = .ok (ts 0 ++ [finish]) := by
    have all := lexes 0 [] trivial
    rw [List.append_nil, Nat.zero_add] at all
    rw [tokens, String.toList_ofList, all]
    rfl
  have follow : Rank.whole.Follow finish := by rintro _ ⟨⟩
  obtain ⟨g, same, read⟩ := (reads 0).reads (ts 0 ++ [finish]).length finish [] (by simp)
    (List.forall_mem_singleton.mpr rfl) follow
  have expression : expression (ts 0 ++ [finish]) = .ok (g, [finish]) :=
    (bind_read rfl _).trans (expressionOver_ok read follow)
  have started : (front (ts 0 ++ [finish])).isFinish = false := by
    obtain ⟨t, us, split, opening⟩ := (reads 0).begins
    rw [split]
    refine not_finish_of_kind ?_
    rw [front, List.cons_append, List.head?_cons, Option.getD_some, opening]
    rintro ⟨⟩
  have whole : wholeExpression (ts 0 ++ [finish]) = .ok (g, [finish]) := by
    refine (bind_read rfl _).trans ?_
    rw [started]
    exact (bind_read expression _).trans ((bind_read (a := finish) rfl _).trans rfl)
  exact ⟨g, parseExpression_of lexed whole, same⟩

end Spells

end Predicate

section Emitted

open Session

/-- In every session a computation comes to one result. -/
def Session.ComesTo {α : Type} (x : Live α) (a : α) : Prop := ∀ σ, (x σ).1 = .ok a

namespace Session.ComesTo

variable {α β : Type} {x : Live α} {f : α → Live β} {a : α} {b : β}

theorem value (a : α) : ComesTo (pure a) a := fun _ => rfl

theorem after (first : ∀ σ, ∃ a, (x σ).1 = .ok a) (second : ∀ a σ, (x σ).1 = .ok a → ComesTo (f a) b) :
    ComesTo (x >>= f) b := by
  intro σ
  obtain ⟨a, found⟩ := first σ
  have next := second a σ found
  rcases ran : x σ with ⟨result, σ'⟩
  rw [ran] at found
  cases found
  simp only [bind, ExceptT.bind, ExceptT.mk, StateT.bind, ran]
  exact next σ'

theorem seq (first : ComesTo x a) (second : ComesTo (f a) b) : ComesTo (x >>= f) b :=
  after (fun σ => ⟨a, first σ⟩) fun a' σ found => by
    cases (first σ).symm.trans found
    exact second

end Session.ComesTo

theorem predicateToKotlin_comesTo (map : Kotlin.NameMap) {text : String} {p : Predicate}
    (h : Predicate.compile (trimmed text) = .ok p) :
    ComesTo (predicateToKotlin map text) (Predicate.textToKotlin map (trimmed text)) := by
  have allowed := (Predicate.compile_reads h).1
  have some : (trimmed text).isEmpty = false := by
    rw [Predicate.isAllowed, Bool.and_eq_true, Bool.and_eq_true, Bool.not_eq_true'] at allowed
    rw [← Bool.not_eq_true, String.isEmpty_iff]
    intro empty
    rw [empty] at allowed
    exact Bool.noConfusion allowed.1.1
  have accepted : ComesTo (predicateError? (trimmed text)) none := by
    simp only [predicateError?, trimmed_trimmed, some, allowed, h, Bool.not_true,
      Bool.false_eq_true, if_false]
    refine .after (fun σ => ⟨_, rfl⟩) fun p? _ _ => ?_
    cases p? <;> exact .value _
  simp only [predicateToKotlin, some, Bool.false_eq_true, if_false]
  exact accepted.seq (.value _)

/-- A rule that decides by a predicate whose code is one that can stand in parentheses. -/
structure Rule.Embeds (map : Kotlin.NameMap) (r : Rule) (p : Predicate) : Prop where
  computed : r.usesComputed = true
  free : r.computed.valueMode = .expr
  accepted : ∃ q, Predicate.compile (trimmed r.booleanExpr) = .ok q
  embeds : Predicate.Embeds (Predicate.textToKotlin map (trimmed r.booleanExpr)) p

theorem Rule.Embeds.grouped {map : Kotlin.NameMap} {r : Rule} {p : Predicate}
    (h : r.Embeds map p) (style : Kotlin.NumberStyle) :
    ∃ code, ComesTo (r.toKotlin map style) code ∧ Predicate.Grouped code.toList p.expr := by
  obtain ⟨q, accepted⟩ := h.accepted
  refine ⟨"(" ++ Predicate.textToKotlin map (trimmed r.booleanExpr) ++ ")", ?_, ?_⟩
  · rw [Rule.toKotlin, h.computed, if_pos rfl, Rule.computedToKotlin, h.free]
    exact (predicateToKotlin_comesTo map accepted).seq (.value _)
  · rw [String.toList_append, String.toList_append, List.append_assoc]
    exact h.embeds.grouped

namespace Filter

/-- Trees that are joined one after the other, as the rules of a filter are. -/
def joinedExpr (done : Expr) (rest : List (Link × Expr)) : Expr :=
  rest.foldl (fun e x => (Connective.link x.1).make e x.2) done

theorem toKotlinFrom_grouped {map : Kotlin.NameMap} {style : Kotlin.NumberStyle} {rules : List Rule}
    {ps : List Predicate} (embeds : List.Forall₂ (Rule.Embeds map) rules ps) {done : String}
    {e : Expr} (h : Predicate.Grouped done.toList e) :
    ∃ code, ComesTo (toKotlinFrom map style done rules) code ∧ Predicate.Grouped code.toList
      (joinedExpr e ((rules.map Rule.link).zip (ps.map Predicate.expr))) := by
  induction embeds generalizing done e with
  | nil => exact ⟨done, .value done, h⟩
  | @cons r p rules ps first _ ih =>
    obtain ⟨next, comesTo, grouped⟩ := first.grouped style
    have joined := (h.joined grouped r.link).grouped
    have text : '(' :: (done.toList ++ (' ' :: (r.link.toKotlin.toList ++ ' ' :: next.toList)) ++ [')'])
        = ("(" ++ done ++ " " ++ r.link.toKotlin ++ " " ++ next ++ ")").toList := by
      simp
    rw [text] at joined
    obtain ⟨code, comesTo', grouped'⟩ := ih joined
    exact ⟨code, comesTo.seq comesTo', grouped'⟩

end Filter

/-- Predicates in parentheses are operands of what joins them: two of them, and those of the code of a
filter, which groups them in the order in which the filter is decided. -/
theorem Predicate.embedded_groups (map : Kotlin.NameMap) (style : Kotlin.NumberStyle) :
    (∀ (t u : String) (p q : Predicate), Embeds t p → Embeds u q →
      ∃ g, parseExpression ("(" ++ t ++ ") && (" ++ u ++ ")") = .ok g ∧
        g.forget = (Expr.logical .and p.expr q.expr).forget) ∧
    ∀ (f : Filter) (r : Rule) (rest : List Rule) (p : Predicate) (ps : List Predicate),
      f.enabled = true → f.rules = r :: rest →
      r.Embeds map p → List.Forall₂ (Rule.Embeds map) rest ps →
      ∃ code g, ComesTo (f.toKotlin map style) code ∧ parseExpression code = .ok g ∧
        g.forget =
          (Filter.joinedExpr p.expr ((rest.map Rule.link).zip (ps.map Predicate.expr))).forget := by
  constructor
  · intro t u p q first second
    obtain ⟨g, read, same⟩ := (first.grouped.joined second.grouped .and).parses
    have text : String.ofList ('(' :: (t.toList ++ [')']) ++
        (' ' :: (Link.and.toKotlin.toList ++ ' ' :: '(' :: (u.toList ++ [')'])))) =
        "(" ++ t ++ ") && (" ++ u ++ ")" := by
      refine String.toList_inj.mp ?_
      simp [Link.toKotlin]
    rw [text] at read
    exact ⟨g, read, same⟩
  · intro f r rest p ps enabled rules first others
    obtain ⟨start, comesTo, grouped⟩ := first.grouped style
    obtain ⟨code, comesTo', grouped'⟩ := Filter.toKotlinFrom_grouped others grouped
    obtain ⟨g, read, same⟩ := grouped'.spells.parses
    rw [String.ofList_toList] at read
    refine ⟨code, g, ?_, read, same⟩
    rw [Filter.toKotlin, enabled, rules]
    exact comesTo.seq comesTo'

theorem Predicate.embedded_groups_mixed :
    let raw : Datum := .object [("op", .text "calc_eq"), ("calcValueMode", .text "expr"),
      ("calcBooleanExpr", .text "age > 1 || tick === 2")]
    let raw' : Datum := .object [("link", .text "or"), ("op", .text "calc_eq"),
      ("calcValueMode", .text "expr"), ("calcBooleanExpr", .text "hp // so far\n < 3")]
    let map := [("age", "state.age")]
    (∃ p q g, Embeds "age > 1 ? a : b" p ∧ Embeds "/* x */ a = 2" q ∧
      parseExpression ("(" ++ "age > 1 ? a : b" ++ ") && (" ++ "/* x */ a = 2" ++ ")") = .ok g ∧
        g.forget = (Expr.logical .and p.expr q.expr).forget) ∧
    ∃ r r' p q code g, Rule.ofDatum raw = .ok r ∧ Rule.ofDatum raw' = .ok r' ∧ r.Embeds map p ∧
      r'.Embeds map q ∧ ComesTo (Filter.toKotlin ⟨true, [r, r']⟩ map .full) code ∧
        parseExpression code = .ok g ∧ g.forget = (Expr.logical .or p.expr q.expr).forget := by
  intro raw raw' map
  have embeds (text : String)
      (h : ((compile text).isOk && !endsInComment 0 text.toList) = true) : ∃ p, Embeds text p := by
    rw [Bool.and_eq_true, Bool.not_eq_true'] at h
    obtain ⟨p, compiled⟩ := ok_of_isOk h.1
    exact ⟨p, compiled, h.2⟩
  constructor
  · obtain ⟨p, first⟩ := embeds "age > 1 ? a : b" (by decide +kernel)
    obtain ⟨q, second⟩ := embeds "/* x */ a = 2" (by decide +kernel)
    obtain ⟨g, read, same⟩ := (embedded_groups map .full).1 _ _ p q first second
    exact ⟨p, q, g, first, second, read, same⟩
  · have rule (d : Datum) (text : String) (link : Link) (h : (Rule.ofDatum d).toOption.any
        (fun r => r.usesComputed && r.computed.valueMode == .expr && r.link == link &&
          trimmed r.booleanExpr == text && (compile text).isOk &&
          (compile (textToKotlin map text)).isOk &&
          !endsInComment 0 (textToKotlin map text).toList) = true) :
        ∃ r p, Rule.ofDatum d = .ok r ∧ r.link = link ∧ r.Embeds map p := by
      obtain ⟨r, found, shape⟩ := (Option.any_eq_true _ _).mp h
      simp only [Bool.and_eq_true, Bool.not_eq_true', beq_iff_eq] at shape
      obtain ⟨⟨⟨⟨⟨⟨computed, free⟩, linked⟩, same⟩, accepted⟩, code⟩, closed⟩ := shape
      subst same
      obtain ⟨p, compiled⟩ := ok_of_isOk code
      exact ⟨r, p, ok_of_toOption found, linked, computed, free, ok_of_isOk accepted, compiled, closed⟩
    obtain ⟨r, p, read, _, first⟩ := rule raw "age > 1 || tick === 2" .and (by decide +kernel)
    obtain ⟨r', q, read', linked, second⟩ := rule raw' "hp // so far\n < 3" .or (by decide +kernel)
    obtain ⟨code, g, written, parsed, same⟩ := (embedded_groups map .full).2 ⟨true, [r, r']⟩ r
      [r'] p [q] rfl rfl first (.cons second .nil)
    have joined : Filter.joinedExpr p.expr ([r'].map Rule.link |>.zip ([q].map Predicate.expr)) =
        .logical .or p.expr q.expr := by
      rw [List.map_singleton, linked]
      rfl
    rw [joined] at same
    exact ⟨r, r', p, q, code, g, read, read', first, second, written, parsed, same⟩

/-- `a // x` is a predicate, and `(a // x) && (b)` is none. -/
theorem Predicate.embedded_groups_comment :
    ∃ p q, compile "a // x" = .ok p ∧ compile "b" = .ok q ∧
      ∀ g, parseExpression ("(" ++ "a // x" ++ ") && (" ++ "b" ++ ")") ≠ .ok g := by
  have shape : ((compile "a // x").isOk && (compile "b").isOk &&
      !(parseExpression ("(" ++ "a // x" ++ ") && (" ++ "b" ++ ")")).isOk) = true := by
    decide +kernel
  simp only [Bool.and_eq_true, Bool.not_eq_true'] at shape
  obtain ⟨⟨first, second⟩, joined⟩ := shape
  obtain ⟨p, compiled⟩ := ok_of_isOk first
  obtain ⟨q, compiled'⟩ := ok_of_isOk second
  refine ⟨p, q, compiled, compiled', fun g read => ?_⟩
  rw [read] at joined
  cases joined

end Emitted

end EmitterLogic
