import EmitterLogic.Proofs.Behavior.Settled
import EmitterLogic.Proofs.Condition.Equality

/-!
Three readings of a term: its own number, the value of its text as a formula, and the number of the term
that its text spells. They are the same number; only the sign of a zero is lost in the text.
-/

namespace EmitterLogic

open Binary64 Session

namespace Term

/-- Whatever is normalized or inferred, with whatever fallback. -/
inductive Made : Term → Prop where
  | normalized {kind value : Datum} {fallback : RawTerm} {t : Term}
    (given : normalize kind value fallback = .ok t) : Made t
  | inferred {token : Datum} {fallback : RawTerm} {t : Term} (given : infer token fallback = .ok t) :
    Made t

variable {s : Sight} {t : Term}

section Names

theorem trimmed_canonicalName (w : String) : trimmed (canonicalName w) = canonicalName w := by
  have named : canonicalName w = if trimmed w == "life" then "maxAge" else trimmed w := rfl
  rw [named]
  split
  · decide
  · exact trimmed_trimmed w

theorem ofToken_cases {w : String} (h : ofToken? (canonicalName w) = some t) :
    (∃ x, t = number x) ∨ t.Normal := by
  rw [ofToken?] at h
  split at h
  · cases h
    exact .inl ⟨_, rfl⟩
  · split at h
    · next b _ =>
      cases h
      exact .inr (normal_builtin b)
    · obtain ⟨ident, same⟩ := Option.ite_none_right_eq_some.mp h
      cases same
      refine .inr (normal_named ?_)
      rw [identOrEmpty, if_pos ident, trimmed_canonicalName]

theorem Made.cases (made : t.Made) : (∃ x, t = number x) ∨ t.Normal := by
  cases made with
  | normalized given => exact .inr (normalize_normal given)
  | @inferred token fallback _ given =>
    cases spelled : ofToken? (canonicalName token.textOrEmpty) with
    | some u =>
      rw [infer_of_some spelled] at given
      cases given
      exact ofToken_cases spelled
    | none =>
      rw [infer_of_none spelled] at given
      exact .inr (normalize_normal given)

end Names

theorem Made.alike (made : t.Made) :
    ∃ u : Term, u.Normal ∧ t.toExpr = u.toExpr ∧ ∀ s, t.resolve s = u.resolve s := by
  rcases made.cases with ⟨x, rfl⟩ | normal
  · by_cases finite : x.isFinite = true
    · exact ⟨number x, normal_number finite, rfl, fun _ => rfl⟩
    · have text : (number 0.0).toExpr = "0" := by decide +kernel
      have zero : finiteOnly 0.0 = some 0.0 := by decide
      refine ⟨number 0.0, normal_number zero_isFinite, ?_, fun s => ?_⟩
      · rw [text, toExpr, if_neg finite]
      · rw [resolve, resolve, finiteOnly, if_neg finite, zero]
        rfl
  · exact ⟨t, normal, rfl, fun _ => rfl⟩

theorem resolve_worth (normal : t.Normal) (inRange : s.InRange) :
    ∃ x, t.resolve s = .ok x ∧ x.isFinite = true ∧ units x = units (t.worth s) := by
  cases t with
  | number x =>
    have finite := normal.number x rfl
    refine ⟨x, ?_, finite, (units_unsignedZero finite).symm⟩
    rw [resolve, finiteOnly, if_pos finite]
    rfl
  | builtin b => exact ⟨_, inRange.readD_eq b.name, s.worth_isFinite b.name, rfl⟩
  | named w =>
    refine ⟨_, inRange.readD_eq w, s.worth_isFinite w, ?_⟩
    rw [worth_named]

/-- A term resolves to a finite number, which is the value of its text as a formula and the number of
the term that its text spells. -/
theorem readings_agree (made : t.Made) (inRange : s.InRange) (fallback : Number) :
    ∃ x y z u, t.resolve s = .ok x ∧ Answers (evalFormula s t.toExpr fallback) (.ok (.float y)) ∧
      inferText t.toExpr = .ok u ∧ u.resolve s = .ok z ∧
        x.isFinite = true ∧ (y == x) = true ∧ (z == x) = true := by
  obtain ⟨t', normal, text, number⟩ := made.alike
  rw [text, number]
  obtain ⟨x, own, finite, same⟩ := resolve_worth normal inRange
  have value := evalFormula_toExpr normal (inRange.readable t'.operands) fallback
  obtain ⟨u, spelled, normal', worth⟩ := inferText_toExpr normal
  obtain ⟨z, again, finite', same'⟩ := resolve_worth normal' inRange
  rw [worth] at same'
  exact ⟨x, t'.worth s, z, u, own, value, spelled, again, finite,
    (beq_iff (worth_isFinite normal) finite).mpr same.symm,
    (beq_iff finite' finite).mpr (same'.trans same.symm)⟩

theorem life_readings_agree :
    normalize (.text "var") (.text " life ") = .ok (.named "life") ∧
    (Sight.mk [("life", .float 2.5)] [("maxAge", .int 3)]).InRange ∧
    ∃ x y z u, (named "life").resolve ⟨[("life", .float 2.5)], [("maxAge", .int 3)]⟩ = .ok x ∧
      Answers (evalFormula ⟨[("life", .float 2.5)], [("maxAge", .int 3)]⟩ (named "life").toExpr (.int 7))
        (.ok (.float y)) ∧
      inferText (named "life").toExpr = .ok u ∧
      u.resolve ⟨[("life", .float 2.5)], [("maxAge", .int 3)]⟩ = .ok z ∧
        x.isFinite = true ∧ (y == x) = true ∧ (z == x) = true := by
  have given : normalize (.text "var") (.text " life ") = .ok (.named "life") := by rfl
  have context : Fields.InRange [("life", .float 2.5)] :=
    Fields.InRange.of_forall (List.forall_mem_singleton.mpr (.float 2.5))
  have vars : Fields.InRange [("maxAge", .int 3)] :=
    Fields.InRange.of_forall (List.forall_mem_singleton.mpr (.number ⟨3.0, by rfl⟩))
  exact ⟨given, ⟨context, vars⟩, readings_agree (.normalized given) ⟨context, vars⟩ (.int 7)⟩

end Term

end EmitterLogic
