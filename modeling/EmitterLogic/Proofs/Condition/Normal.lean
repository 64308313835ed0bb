import EmitterLogic.Proofs.Condition.NormalRule

namespace EmitterLogic

namespace Filter

open Rule

variable {raw : Datum} {allowReason : Bool} {f : Filter}

structure Normal (f : Filter) : Prop where
  nonempty : f.rules ≠ []
  headed : headed f.rules = f.rules
  rules : ∀ r ∈ f.rules, r.Normal

theorem headed_map (g : Rule → Rule) (same : ∀ r link, g { r with link } = { g r with link })
    (rules : List Rule) : headed ((headed rules).map g) = (headed rules).map g := by
  cases rules with
  | nil => rfl
  | cons r rest =>
    rw [headed, List.map_cons, headed, same]

theorem withReasonRight_link (allowReason : Bool) (r : Rule) (link : Link) :
    withReasonRight allowReason { r with link } = { withReasonRight allowReason r with link } := by
  rw [withReasonRight, withReasonRight]
  split <;> rfl

def givenRules (d : Datum) (allowReason : Bool) : Except Fault (List Rule) :=
  match d.getD "rules" with
  | .list items => rulesOf items allowReason
  | _ => Rule.ofText ((d.getD "expr").orElse (d.getD "condition")).textOrEmpty allowReason

def someRules (given : List Rule) (allowReason : Bool) : Except Fault (List Rule) :=
  if given.isEmpty then (Rule.create [] allowReason).map ([·]) else .ok given

theorem ofObject_eq (d : Datum) (allowReason : Bool) : ofObject d allowReason = do
    let rules ← givenRules d allowReason >>= (someRules · allowReason)
    return ⟨(d.getD "enabled").isTruthy, (headed rules).map (withReasonRight allowReason)⟩ := by
  have later (given : List Rule) : (do
      let rules ← if given.isEmpty then (Rule.create [] allowReason).map ([·]) else .ok given
      return ⟨(d.getD "enabled").isTruthy, (headed rules).map (withReasonRight allowReason)⟩) =
      someRules given allowReason >>= fun rules => (pure ⟨(d.getD "enabled").isTruthy,
        (headed rules).map (withReasonRight allowReason)⟩ : Except Fault Filter) := by
    rw [someRules]
    split <;> rfl
  rw [ofObject]
  split
  · next items listed =>
    have given : givenRules d allowReason = rulesOf items allowReason := by rw [givenRules, listed]
    rw [given]
    cases rulesOf items allowReason with
    | error e => rfl
    | ok given => exact later given
  · next unlisted =>
    have given : givenRules d allowReason =
        Rule.ofText ((d.getD "expr").orElse (d.getD "condition")).textOrEmpty allowReason := by
      rw [givenRules]
      split
      · next items listed => exact absurd listed (unlisted items)
      · rfl
    rw [given]
    cases Rule.ofText _ allowReason with
    | error e => rfl
    | ok given => exact later given

section Rules

variable {P : Rule → Prop}

theorem someRules_nonempty {given rules : List Rule} (h : someRules given allowReason = .ok rules) :
    rules ≠ [] := by
  rw [someRules] at h
  split at h
  · obtain ⟨r, made, rfl⟩ := map_ok h
    exact List.cons_ne_nil _ _
  · next some =>
    cases h
    exact fun none => some (List.isEmpty_iff.mpr none)

theorem someRules_all (given : ∀ d r, Rule.ofDatum d allowReason = .ok r → P r)
    {found rules : List Rule} (all : ∀ r ∈ found, P r)
    (h : someRules found allowReason = .ok rules) : ∀ r ∈ rules, P r := by
  rw [someRules] at h
  split at h
  · obtain ⟨r, made, rfl⟩ := map_ok h
    exact List.forall_mem_singleton.mpr (given _ _ made)
  · cases h
    exact all

theorem givenRules_all (given : ∀ d r, Rule.ofDatum d allowReason = .ok r → P r)
    {rules : List Rule} (h : givenRules raw allowReason = .ok rules) : ∀ r ∈ rules, P r := by
  rw [givenRules] at h
  split at h
  · exact forall_of_mapM_ok (fun d r made => given d r made) h
  · exact ofText_all given h

theorem headed_all (link : ∀ r link, P r → P { r with link }) {rules : List Rule}
    (all : ∀ r ∈ rules, P r) : ∀ r ∈ headed rules, P r := by
  cases rules with
  | nil => exact all
  | cons r rest =>
    rw [headed, List.forall_mem_cons]
    rw [List.forall_mem_cons] at all
    exact ⟨link r .and all.1, all.2⟩

theorem ofObject_all (given : ∀ d r, Rule.ofDatum d allowReason = .ok r → P r)
    (link : ∀ r link, P r → P { r with link })
    (right : ∀ r reason, r.left = .reason → P r → P { r with right := .reason reason })
    (h : ofObject raw allowReason = .ok f) : ∀ r ∈ f.rules, P r := by
  rw [ofObject_eq] at h
  obtain ⟨rules, read, made⟩ := bind_ok h
  obtain ⟨found, read, chosen⟩ := bind_ok read
  cases made
  intro r hr
  obtain ⟨r', hr', rfl⟩ := List.mem_map.mp hr
  have all := headed_all link (someRules_all given (givenRules_all given read) chosen) r' hr'
  rw [withReasonRight]
  split
  · next reason => exact right r' _ (beq_iff_eq.mp (Bool.and_eq_true_iff.mp reason).2) all
  · exact all

end Rules

theorem ofObject_normal (h : ofObject raw allowReason = .ok f) : f.Normal := by
  have rules := ofObject_all (P := Rule.Normal) (fun _ _ made => Rule.ofDatum_normal made)
    (fun _ _ normal => ⟨normal.left, normal.right⟩)
    (fun _ _ _ normal => ⟨normal.left, nofun, nofun⟩) h
  rw [ofObject_eq] at h
  obtain ⟨chosen, read, made⟩ := bind_ok h
  obtain ⟨found, _, chose⟩ := bind_ok read
  cases made
  have first := headed_map (withReasonRight allowReason) (withReasonRight_link allowReason) chosen
  refine ⟨?_, first, rules⟩
  cases chosen with
  | nil => exact absurd rfl (someRules_nonempty chose)
  | cons r rest => exact List.cons_ne_nil _ _

theorem ofDatum_eq (raw : Datum) (allowReason : Bool) :
    ∃ d, ofDatum raw allowReason = ofObject d allowReason := by
  cases raw with
  | object entries => exact ⟨.object entries, rfl⟩
  | text s => exact ⟨objectOfText s, rfl⟩
  | _ => exact ⟨.object [], rfl⟩

theorem ofDatum_normal (h : ofDatum raw allowReason = .ok f) : f.Normal := by
  obtain ⟨d, object⟩ := ofDatum_eq raw allowReason
  rw [object] at h
  exact ofObject_normal h

theorem rulesOf_toDatum {rules : List Rule} (allowReason : Bool)
    (plain : ∀ r ∈ rules, r.Normal ∧ r.usesComputed = false ∧ r.hasReasonSide = false) :
    ∃ rules', rulesOf (rules.map Rule.toDatum) allowReason = .ok rules' ∧
      List.Forall₂ Rule.Alike rules rules' := by
  induction rules with
  | nil => exact ⟨[], rfl, .nil⟩
  | cons r rest ih =>
    obtain ⟨normal, uncomputed, noReason⟩ := plain r List.mem_cons_self
    obtain ⟨r', read, alike⟩ := Rule.ofDatum_toDatum normal uncomputed noReason allowReason
    obtain ⟨rest', more, all⟩ := ih fun r hr => plain r (List.mem_cons_of_mem _ hr)
    refine ⟨r' :: rest', ?_, .cons alike all⟩
    rw [rulesOf] at more ⊢
    rw [List.map_cons, List.mapM_cons, read]
    simp only [bind, Except.bind, more]
    rfl

theorem alike_headed {rules rules' : List Rule} (first : headed rules = rules)
    (alike : List.Forall₂ Rule.Alike rules rules') : List.Forall₂ Rule.Alike rules (headed rules') := by
  cases alike with
  | nil => exact .nil
  | @cons r r' rest rest' here there =>
    have link : { r with link := .and } = r := (List.cons.inj first).1
    have same : r.link = .and := by rw [← link]
    exact .cons ⟨same.symm, here.left, here.op, here.right⟩ there

theorem ofDatum_toDatum (normal : f.Normal)
    (plain : ∀ r ∈ f.rules, r.usesComputed = false ∧ r.hasReasonSide = false) :
    ∃ rules, ofDatum f.toDatum = .ok ⟨f.enabled, rules⟩ ∧ List.Forall₂ Rule.Alike f.rules rules := by
  obtain ⟨rules, read, alike⟩ :=
    rulesOf_toDatum false fun r hr => ⟨normal.rules r hr, plain r hr⟩
  have nonempty : rules ≠ [] := by
    rintro rfl
    exact normal.nonempty (List.forall₂_nil_right_iff.mp alike)
  have given : givenRules f.toDatum false = .ok rules := read
  have some : someRules rules false = .ok rules :=
    if_neg fun empty => nonempty (List.isEmpty_iff.mp empty)
  have enabled : (f.toDatum.getD "enabled").isTruthy = f.enabled := rfl
  have object : ofDatum f.toDatum = ofObject f.toDatum false := rfl
  refine ⟨(headed rules).map (withReasonRight false), ?_, ?_⟩
  · rw [object, ofObject_eq, given]
    simp only [bind, Except.bind, some, enabled]
    rfl
  · have unchanged (r : Rule) : withReasonRight false r = r := by
      rw [withReasonRight, Bool.false_and, if_neg Bool.false_ne_true]
    rw [List.map_congr_left fun r _ => unchanged r, List.map_id']
    exact alike_headed normal.headed alike

end Filter

section Computed

/-- A term as documents give it. -/
structure Term.Normal (t : Term) : Prop where
  number : ∀ x, t = .number x → x.isFinite = true
  name : ∀ w, t = .named w → identOrEmpty w = w

theorem Term.ofNumber_normal {d : Datum} {t : Term} (h : Term.ofNumber d = .ok t) : t.Normal := by
  obtain ⟨x, finite, rfl⟩ := map_ok h
  refine ⟨fun y same => ?_, nofun⟩
  cases same
  exact finiteOrZero_isFinite finite

theorem Term.normalize_normal {kind value : Datum} {fallback : RawTerm} {t : Term}
    (h : Term.normalize kind value fallback = .ok t) : t.Normal := by
  delta Term.normalize at h
  simp only at h
  generalize TermKind.ofText _ = k at h
  cases k with
  | number => exact ofNumber_normal h
  | named =>
    cases h
    refine ⟨nofun, fun w same => ?_⟩
    cases same
    exact identOrEmpty_identOrEmpty _
  | builtin b =>
    cases h
    exact ⟨nofun, nofun⟩

namespace Computed

/-- The terms of a computed comparison, each with its text. -/
def parts (c : Computed) : List (Term × String) :=
  [(c.leftTerm, c.leftExpr), (c.rightTerm, c.rightExpr), (c.fixedTerm, c.expectExpr),
    (c.expectLeftTerm, c.expectLeftExpr), (c.expectRightTerm, c.expectRightExpr)]

theorem mem_parts (c : Computed) : (c.leftTerm, c.leftExpr) ∈ c.parts ∧
    (c.rightTerm, c.rightExpr) ∈ c.parts ∧ (c.fixedTerm, c.expectExpr) ∈ c.parts ∧
      (c.expectLeftTerm, c.expectLeftExpr) ∈ c.parts ∧
        (c.expectRightTerm, c.expectRightExpr) ∈ c.parts := by
  simp [parts]

/-- A comparison on terms, whose texts are those of the terms. -/
structure Boxed (c : Computed) : Prop where
  mode : c.valueMode = .box
  parts : ∀ p ∈ c.parts, p.1.Normal ∧ p.2 = p.1.toExpr

end Computed

theorem Rule.termOf_normal {d : Datum} {key exprKey : String} {fallback t : Term}
    (h : Rule.termOf d key exprKey fallback = .ok t) : t.Normal := by
  obtain ⟨_, _, normalized⟩ := bind_ok h
  exact Term.normalize_normal normalized

theorem Rule.computedOf_parts {d : Datum} {left : LeftSide} {right : RightSide} {c : Computed}
    (h : computedOf d left right = .ok c) : ∀ p ∈ c.parts, p.1.Normal ∧ ∃ key, p.2 =
      match c.valueMode with
      | .box => p.1.toExpr
      | .expr => exprOf (d.getD key) p.1.toExpr := by
  rw [computedOf] at h
  generalize chosen [.box, .expr] ValueMode.name .box (wordOf (d.getD "calcValueMode")) = mode at h
  obtain ⟨given, _, h⟩ := bind_ok h
  obtain ⟨a, ha, h⟩ := bind_ok h
  obtain ⟨b, hb, h⟩ := bind_ok h
  obtain ⟨fixed, hf, h⟩ := bind_ok h
  obtain ⟨x, hx, h⟩ := bind_ok h
  obtain ⟨y, hy, h⟩ := bind_ok h
  cases Except.ok.inj h
  simp only [Computed.parts, List.forall_mem_cons]
  exact ⟨⟨termOf_normal ha, _, rfl⟩, ⟨termOf_normal hb, _, rfl⟩, ⟨termOf_normal hf, _, rfl⟩,
    ⟨termOf_normal hx, _, rfl⟩, ⟨termOf_normal hy, _, rfl⟩, List.forall_mem_nil _⟩

theorem Rule.computedOf_boxed {d : Datum} {left : LeftSide} {right : RightSide} {c : Computed}
    (h : computedOf d left right = .ok c) (box : c.valueMode = .box) : c.Boxed := by
  refine ⟨box, fun p hp => ?_⟩
  obtain ⟨normal, key, text⟩ := computedOf_parts h p hp
  rw [box] at text
  exact ⟨normal, text⟩

/-- A rule that a document gives, alone or in a filter. -/
inductive Rule.Normalized : Rule → Prop where
  | alone {raw : Datum} {allowReason : Bool} {r : Rule}
    (given : Rule.ofDatum raw allowReason = .ok r) : Normalized r
  | chained {raw : Datum} {allowReason : Bool} {f : Filter} {r : Rule}
    (given : Filter.ofDatum raw allowReason = .ok f) (mem : r ∈ f.rules) : Normalized r

theorem Rule.ofDatum_boxed {raw : Datum} {allowReason : Bool} {r : Rule}
    (given : Rule.ofDatum raw allowReason = .ok r) (box : r.computed.valueMode = .box) :
    r.computed.Boxed := by
  obtain ⟨right, _, given⟩ := bind_ok given
  obtain ⟨computed, made, given⟩ := bind_ok given
  cases given
  exact computedOf_boxed made box

theorem Rule.Normalized.boxed {r : Rule} (normalized : r.Normalized)
    (box : r.computed.valueMode = .box) : r.computed.Boxed := by
  cases normalized with
  | alone given => exact ofDatum_boxed given box
  | @chained raw allowReason f _ given mem =>
    obtain ⟨d, object⟩ := Filter.ofDatum_eq raw allowReason
    rw [object] at given
    exact Filter.ofObject_all (P := fun r => r.computed.valueMode = .box → r.computed.Boxed)
      (fun _ _ made => ofDatum_boxed made) (fun _ _ boxed => boxed) (fun _ _ _ boxed => boxed)
      given r mem box

end Computed

end EmitterLogic
