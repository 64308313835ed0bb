import EmitterLogic.Proofs.Formula.Heights

namespace EmitterLogic.Formula

open Kotlin Binary64

section Code

/-- The code of a tree, each operation in parentheses. -/
def Tree.toKotlin (map : NameMap) (style : NumberStyle) : Tree → Except Fault String
  | number x => style.write (.float x)
  | name w => nameText map style w
  | negation t => do return "(-(" ++ (← t.toKotlin map style) ++ "))"
  | binary o left right => do
    let a ← left.toKotlin map style
    return "((" ++ a ++ ") " ++ o.sign ++ " (" ++ (← right.toKotlin map style) ++ "))"

theorem writeFrom_postorder (map : NameMap) (style : NumberStyle) (t : Tree) (rest : List Instr)
    (stack : List String) : writeFrom map style (t.postorder ++ rest) stack =
      t.toKotlin map style >>= fun text => writeFrom map style rest (text :: stack) := by
  induction t generalizing rest stack with
  | number x => rfl
  | name w => rfl
  | negation t ih =>
    rw [Tree.postorder, List.append_assoc, ih, Tree.toKotlin]
    cases t.toKotlin map style with
    | error f => rfl
    | ok text => rfl
  | binary o left right ihl ihr =>
    rw [Tree.postorder, List.append_assoc, List.append_assoc, ihl, Tree.toKotlin]
    cases left.toKotlin map style with
    | error f => rfl
    | ok a =>
      refine (ihr _ _).trans ?_
      cases right.toKotlin map style with
      | error f => rfl
      | ok b => rfl

theorem toKotlin_postorder (map : NameMap) (style : NumberStyle) (source : String) (t : Tree) :
    Formula.toKotlin map style ⟨source, t.postorder⟩ = t.toKotlin map style := by
  have written := writeFrom_postorder map style t [] []
  rw [List.append_nil] at written
  rw [Formula.toKotlin, written]
  cases t.toKotlin map style with
  | error f => rfl
  | ok text => rfl

theorem full_infinite {x : Float} (infinite : x.isFinite = false) :
    Kotlin.full (.float x) = .ok "0.0" := by
  have none : (Datum.float x).finite? = .ok none := by
    rw [Datum.float, Datum.finite?, Number.toFloat_float, Except.map, finiteOnly, infinite]
    rfl
  rw [Kotlin.full, none]
  rfl

theorem full_unsigned {x : Float} (unsigned : Unsigned x) :
    ∃ s : Numeral, Kotlin.full (.float x) = .ok (String.ofList s.chars) ∧
      s.value = finiteOrZero x := by
  cases finite : x.isFinite with
  | true =>
    obtain ⟨p, parts⟩ := isFinite_iff_parts.mp finite
    have positive := unsigned p parts
    obtain ⟨text, written, s, rfl, value⟩ := full_spelled parts
    have same : ofBits false p.bits = x := by
      refine eq_of_parts ?_ parts
      rw [← positive]
      exact parts_ofBits_canonical (canonical_of_parts parts)
    refine ⟨s, ?_, ?_⟩
    · rw [written, belowZero, positive]
      rfl
    · rw [value, same, finiteOrZero, if_pos finite]
  | false =>
    exact ⟨.zero, full_infinite finite, by rw [finiteOrZero, finite]; exact Numeral.zero_value⟩

theorem writable_full (program : List Instr) : Writable .full program := by
  intro x _
  cases finite : x.isFinite with
  | true =>
    obtain ⟨p, parts⟩ := isFinite_iff_parts.mp finite
    obtain ⟨text, written, _⟩ := full_spelled parts
    exact ⟨text, written⟩
  | false => exact ⟨"0.0", full_infinite finite⟩

/-- What is read from the code of a tree. -/
def Tree.ReadAs : Tree → Script.Expr → Prop
  | number x, e => e = .number (finiteOrZero x)
  | name w, e => ∃ place, e = .call (.member (.name (canonicalName w) place) "toDouble") []
  | negation t, e => ∃ a, e = .unary .negate a ∧ t.ReadAs a
  | binary o left right, e => ∃ a b, e = .binary (.arith o) a b ∧ left.ReadAs a ∧ right.ReadAs b

theorem nameText_ident (style : NumberStyle) {w : String}
    (word : Text.isIdentChars w.toList = true) :
    nameText [] style w = .ok ("(" ++ canonicalName w ++ ").toDouble()") := by
  simp only [nameText]
  cases found : Builtin.ofName? (canonicalName w) with
  | some b =>
    have same := Builtin.name_of_ofName? found
    simp only [builtin_nil, same]
  | none => simp only [isIdent_of_chars (canonicalName_chars word), if_true]

theorem canonicalName_unreserved {w : String} (word : Text.isIdentChars w.toList = true)
    (h : Script.isReserved w = false) : Script.isReserved (canonicalName w) = false := by
  rw [canonicalName_ident word]
  split
  · decide
  · exact h

open Script in
theorem Tree.code (t : Tree) (unsigned : ∀ x, .number x ∈ t.postorder → Unsigned x)
    (words : ∀ w, .name w ∈ t.postorder → Text.isIdentChars w.toList = true) :
    ∃ c : Code .operand, ((∀ w, .name w ∈ t.postorder → isReserved w = false) → c.WellNamed) ∧
      t.toKotlin [] .full = .ok c.text ∧ ∀ place, t.ReadAs (c.expr place) := by
  -- Over the tree; a number or a name is one piece of code, an operation is put in parentheses.
  induction t with
  | number x =>
    obtain ⟨s, written, value⟩ := full_unsigned (unsigned x List.mem_cons_self)
    exact ⟨.numeral s, fun _ => trivial, written, fun _ => congrArg Expr.number value⟩
  | name w =>
    have word := words w List.mem_cons_self
    refine ⟨.toDouble (.single (.plain (.name (canonicalName w)))), fun free => ?_, ?_,
      fun place => ⟨_, rfl⟩⟩
    · exact ⟨canonicalName_chars word, canonicalName_unreserved word (free w List.mem_cons_self)⟩
    · rw [toKotlin, nameText_ident .full word, Code.text_toDouble]
      exact congrArg (fun s => Except.ok ("(" ++ s ++ ").toDouble()")) (Code.text_name _).symm
  | negation t ih =>
    have inside {i : Instr} (hi : i ∈ t.postorder) : i ∈ (negation t).postorder :=
      List.mem_append_left _ hi
    obtain ⟨c, named, written, reads⟩ :=
      ih (fun x hx => unsigned x (inside hx)) fun w hw => words w (inside hw)
    refine ⟨.group (.single (.negated (.group (.single (.plain c))))),
      fun free => named fun w hw => free w (inside hw), ?_, fun place => ⟨_, rfl, reads _⟩⟩
    have text : (Code.group (.single (.negated (.group (.single (.plain c)))))).text =
        "(-(" ++ c.text ++ "))" := by
      simp only [Code.text_group, Code.text_single, Code.text_negated, Code.text_plain,
        String.append_assoc]
      rfl
    rw [toKotlin, written, text]
    rfl
  | binary o left right ihl ihr =>
    have insideLeft {i : Instr} (hi : i ∈ left.postorder) : i ∈ (binary o left right).postorder :=
      List.mem_append_left _ (List.mem_append_left _ hi)
    have insideRight {i : Instr} (hi : i ∈ right.postorder) : i ∈ (binary o left right).postorder :=
      List.mem_append_left _ (List.mem_append_right _ hi)
    obtain ⟨a, namedA, writtenA, readsA⟩ :=
      ihl (fun x hx => unsigned x (insideLeft hx)) fun w hw => words w (insideLeft hw)
    obtain ⟨b, namedB, writtenB, readsB⟩ :=
      ihr (fun x hx => unsigned x (insideRight hx)) fun w hw => words w (insideRight hw)
    refine ⟨.group (.joined (.plain (.group (.single (.plain a)))) (.arith o)
      (.plain (.group (.single (.plain b))))), fun free => ?_, ?_,
      fun place => ⟨_, _, rfl, readsA _, readsB _⟩⟩
    · exact ⟨namedA fun w hw => free w (insideLeft hw), namedB fun w hw => free w (insideRight hw)⟩
    have text : (Code.group (.joined (.plain (.group (.single (.plain a)))) (.arith o)
        (.plain (.group (.single (.plain b)))))).text =
          "((" ++ a.text ++ ") " ++ o.sign ++ " (" ++ b.text ++ "))" := by
      simp only [Code.text_group, Code.text_single, Code.text_joined, Code.text_plain,
        Connective.text_arith, String.append_assoc]
      rfl
    rw [toKotlin, writtenA, writtenB, text]
    rfl

end Code

section Results

theorem textToKotlin_paren (map : NameMap) (style : NumberStyle) {text : String} {c : Char}
    {rest : List Char} (start : text.toList = c :: rest) (paren : c = '(' ∨ c = ')') :
    textToKotlin map style text = style.write (.int 0) := by
  have numeral : isNumeral text = false := by
    rcases paren with rfl | rfl <;>
      rw [isNumeral, start, Text.trim_cons_of_not rest (by decide)] <;> rfl
  have name : isIdent text = false := by
    rcases paren with rfl | rfl <;>
      rw [isIdent, start, Text.trim_cons_of_not rest (by decide)] <;> rfl
  rw [textToKotlin, numeral, name]
  rfl

theorem eval_treeless {f : Formula} (s : Sight) (treeless : treeOf? f.program = none) :
    f.eval s = (runFrom s f.program []).map fun _ => 0.0 := by
  have height := treeOf_isSome f.program
  rw [treeless] at height
  rw [Formula.eval]
  cases ran : runFrom s f.program [] with
  | error e => rfl
  | ok r =>
    have same := runFrom_height ran
    rcases r with _ | _ | ⟨x, _ | _⟩
    case some.cons.nil => exact absurd (height.mpr same.symm) Bool.false_ne_true
    all_goals rfl

theorem toKotlin_treeless {f : Formula} (map : NameMap) (style : NumberStyle)
    (treeless : treeOf? f.program = none) :
    f.toKotlin map style = writeFrom map style f.program [] >>= fun _ => style.write (.int 0) := by
  have height := treeOf_isSome f.program
  rw [treeless] at height
  rw [Formula.toKotlin]
  cases ran : writeFrom map style f.program [] with
  | error e => rfl
  | ok r =>
    have same := writeFrom_height ran
    match r with
    | none => rfl
    | some [] => rfl
    | some [x] => exact absurd (height.mpr same.symm) Bool.false_ne_true
    | some (_ :: _ :: _) => rfl

open Session (codeOf source_of_compile Answers formulaToKotlin)

variable {text : String} {f : Formula}

theorem codeOf_treeless (map : NameMap) (style : NumberStyle)
    (compiled : compile (trimmed text) = .ok f) (treeless : treeOf? f.program = none) :
    codeOf map style f = writeFrom map style f.program [] >>= fun _ => style.write (.int 0) := by
  cases program : f.program with
  | cons i rest =>
    have nonempty : f.program.isEmpty = false := by
      rw [program]
      rfl
    rw [codeOf, nonempty, ← program]
    exact toKotlin_treeless map style treeless
  | nil =>
    have empty : f.program.isEmpty = true := by
      rw [program]
      rfl
    have written : codeOf map style f = textToKotlin map style (trimmed text) := by
      rw [codeOf, empty, source_of_compile compiled, if_pos rfl]
    have spelled : (trimmed text).toList = Text.trim text.toList := String.toList_ofList
    refine written.trans ?_
    cases trim : Text.trim text.toList with
    | nil =>
      rw [trimmed, trim]
      rfl
    | cons c rest =>
      have start : Text.trimStart (trimmed text).toList = c :: rest := by
        rw [spelled, trim, Text.trimStart_cons_of_not rest (Text.trim_head trim)]
      exact textToKotlin_paren map style (spelled.trans trim) (compile_empty compiled program start)

theorem Tree.postorder_ne_nil (t : Tree) : t.postorder ≠ [] := by
  cases t with
  | number x => exact nofun
  | name w => exact nofun
  | negation t => exact List.concat_ne_nil _ _
  | binary o left right => exact List.concat_ne_nil _ _

theorem codeOf_tree (map : NameMap) (style : NumberStyle) {t : Tree}
    (tree : treeOf? f.program = some t) : codeOf map style f = t.toKotlin map style := by
  obtain ⟨source, program⟩ := f
  obtain rfl : program = t.postorder := postorder_of_treeOf tree
  have nonempty : t.postorder.isEmpty = false := List.isEmpty_eq_false_iff.mpr t.postorder_ne_nil
  rw [codeOf, nonempty]
  exact toKotlin_postorder map style source t

/-- The two machines on a program. Each returns unless a number is beyond the range of the format, and
where both return their stacks have the same height, or both lack operands. -/
structure Lockstep (program : List Instr) : Prop where
  numbers : ∀ s : Sight, s.InRange → ∀ k, ∃ xs, runFrom s (program.take k) [] = .ok xs
  texts : ∀ map style, Writable style program →
    ∀ k, ∃ ws, writeFrom map style (program.take k) [] = .ok ws
  writable : Writable .full program
  together : ∀ s map style k xs ws, runFrom s (program.take k) [] = .ok xs →
    writeFrom map style (program.take k) [] = .ok ws → xs.map List.length = ws.map List.length

theorem lockstep (program : List Instr) : Lockstep program where
  numbers _ h k := runFrom_ok h (program.take k) []
  texts map _ writable _ := writeFrom_ok map (fun x hx => writable x (List.mem_of_mem_take hx)) []
  writable := writable_full program
  together _ _ _ _ _ _ ran written := (runFrom_height ran).trans (writeFrom_height written).symm

/-- A formula that does not leave one value counts as zero. -/
structure Treeless (text : String) (f : Formula) : Prop where
  left : ∀ s x, runFrom s f.program [] ≠ .ok (some [x])
  value : ∀ s, f.eval s = (runFrom s f.program []).map fun _ => 0.0
  returns : ∀ s : Sight, s.InRange → f.eval s = .ok 0.0
  code : ∀ map style, Writable style f.program →
    Answers (formulaToKotlin map style text) (style.write (.int 0))

theorem treeless (nonempty : (trimmed text).isEmpty = false)
    (compiled : compile (trimmed text) = .ok f) (treeless : treeOf? f.program = none) :
    Treeless text f where
  left s x ran := by
    have tree := (treeOf_isSome f.program).mpr (runFrom_height ran).symm
    rw [treeless] at tree
    cases tree
  value s := eval_treeless s treeless
  returns s h := by
    obtain ⟨r, ran⟩ := runFrom_ok h f.program []
    rw [eval_treeless s treeless, ran]
    rfl
  code map style writable := by
    obtain ⟨r, written⟩ := writeFrom_ok map writable []
    have answers := Session.formulaToKotlin_answers map style nonempty compiled
    rw [codeOf_treeless map style compiled treeless, written] at answers
    exact answers

/-- A formula that leaves one value has the value of its tree and the code of its tree, and the code
is read as the tree. -/
structure Treelike (text : String) (f : Formula) (t : Tree) : Prop where
  program : f.program = t.postorder
  left : ∀ s, runFrom s f.program [] = (t.value s).map fun x => some [x]
  value : ∀ s, f.eval s = (t.value s).map finiteOrZero
  returns : ∀ s : Sight, s.InRange → ∃ x, t.value s = .ok x
  code : ∀ map style, Answers (formulaToKotlin map style text) (t.toKotlin map style)
  reads : (∀ w, .name w ∈ f.program → Script.isReserved w = false) →
    ∃ code e, Answers (formulaToKotlin [] .full text) (.ok code) ∧
      Script.parseExpression code = .ok e ∧ t.ReadAs e

theorem treelike (nonempty : (trimmed text).isEmpty = false)
    (compiled : compile (trimmed text) = .ok f) {t : Tree} (tree : treeOf? f.program = some t) :
    Treelike text f t where
  program := postorder_of_treeOf tree
  left s := by
    have ran := runFrom_postorder s t [] []
    rw [List.append_nil, ← postorder_of_treeOf tree] at ran
    rw [ran]
    cases t.value s <;> rfl
  value s := by
    obtain ⟨source, program⟩ := f
    obtain rfl : program = t.postorder := postorder_of_treeOf tree
    exact eval_postorder s source t
  returns s h := t.value_ok h
  code map style := by
    rw [← codeOf_tree map style tree]
    exact Session.formulaToKotlin_answers map style nonempty compiled
  reads unreserved := by
    have program := postorder_of_treeOf tree
    obtain ⟨unsigned, words⟩ := compile_proper compiled
    rw [program] at unsigned words unreserved
    obtain ⟨c, named, written, reads⟩ := t.code unsigned words
    have answers := Session.formulaToKotlin_answers [] .full nonempty compiled
    rw [codeOf_tree [] .full tree, written] at answers
    exact ⟨c.text, _, answers,
      Script.Code.parse_text (.single (.plain c)) (named unreserved), reads 0⟩

/-- The evaluator and the writer of code on any formula: they run in lockstep, and either both give
zero or both give what one tree gives. -/
theorem evaluation_and_code_agree (nonempty : (trimmed text).isEmpty = false)
    (compiled : compile (trimmed text) = .ok f) :
    Lockstep f.program ∧
      match treeOf? f.program with
      | none => Treeless text f
      | some t => Treelike text f t := by
  refine ⟨lockstep f.program, ?_⟩
  split
  · next none => exact treeless nonempty compiled none
  · next t tree => exact treelike nonempty compiled tree

theorem evaluation_and_code_agree_signs :
    (∃ f t, compile (trimmed "-a * 1e400 % (life - 0.1)") = .ok f ∧ Lockstep f.program ∧
      Treelike "-a * 1e400 % (life - 0.1)" f t) ∧
    ∃ f, compile (trimmed "a (b + 2)") = .ok f ∧ Lockstep f.program ∧ Treeless "a (b + 2)" f := by
  refine ⟨?_, ?_⟩
  · have shape : ((compile (trimmed "-a * 1e400 % (life - 0.1)")).toOption.bind fun f =>
        treeOf? f.program).isSome = true := by decide +kernel
    obtain ⟨t, found⟩ := Option.isSome_iff_exists.mp shape
    obtain ⟨f, compiled, tree⟩ := Option.bind_eq_some_iff.mp found
    have compiled := ok_of_toOption compiled
    have agree := evaluation_and_code_agree (by decide) compiled
    rw [tree] at agree
    exact ⟨f, t, compiled, agree⟩
  · have shape : ((compile (trimmed "a (b + 2)")).toOption.map fun f =>
        (treeOf? f.program).isNone) = some true := by decide +kernel
    obtain ⟨f, compiled, tree⟩ := Option.map_eq_some_iff.mp shape
    have compiled := ok_of_toOption compiled
    have agree := evaluation_and_code_agree (by decide) compiled
    rw [Option.isNone_iff_eq_none.mp tree] at agree
    exact ⟨f, compiled, agree⟩

end Results

end EmitterLogic.Formula
