import EmitterLogic.Proofs.Behavior.Reread
import EmitterLogic.Proofs.Datum.Fields
import EmitterLogic.Behavior.Kotlin

/-!
The properties of generated code. A behavior declares a property for each variable whose name is an
identifier, also where another variable has the same name, while the lint and the runtime count each name
once. In scripts a name may also hold dollar signs, and such a variable has no property.
-/

namespace EmitterLogic

open Text

namespace Kotlin

/-- The property that a line of code declares, if it declares one. -/
def property? (line : String) : Option String :=
  (dropWord? "var ".toList line.toList).map fun rest => String.ofList (rest.takeWhile (· != ':'))

/-- The properties that some lines of code declare. -/
def properties (lines : List String) : List String := lines.filterMap property?

end Kotlin

section Names

variable {w : String}

theorem isNamePart_of_ne {c : Char} (h : isNamePart c = true) (plain : c ≠ '$') :
    isIdentPart c = true := by
  rw [isNamePart, Bool.or_eq_true, beq_iff_eq] at h
  exact h.resolve_right plain

theorem isIdentChars_iff_isNameChars {cs : List Char} :
    isIdentChars cs = true ↔ isNameChars cs = true ∧ '$' ∉ cs := by
  cases cs with
  | nil => simp [isIdentChars, isNameChars]
  | cons c rest =>
    rw [isIdentChars, isNameChars, Bool.and_eq_true, Bool.and_eq_true, isNameStart, Bool.or_eq_true,
      List.all_eq_true, List.all_eq_true, beq_iff_eq]
    constructor
    · rintro ⟨start, parts⟩
      refine ⟨⟨.inl start, fun d hd => ?_⟩, fun dollar => ?_⟩
      · rw [isNamePart, parts d hd, Bool.true_or]
      · rcases List.mem_cons.mp dollar with rfl | inside
        · exact absurd start (by decide)
        · exact absurd (parts _ inside) (by decide)
    · rintro ⟨⟨start, parts⟩, plain⟩
      rw [List.mem_cons, not_or] at plain
      refine ⟨start.resolve_right fun same => plain.1 same.symm, fun d hd => ?_⟩
      exact isNamePart_of_ne (parts d hd) fun same => plain.2 (same ▸ hd)

theorem isIdent_iff_isName (trim : trimmed w = w) :
    isIdent w = true ↔ Tick.isName w = true ∧ '$' ∉ w.toList := by
  rw [Tick.isName, ← isIdentChars_iff_isNameChars]
  refine ⟨fun h => ?_, isIdent_of_chars⟩
  rw [← trim]
  exact chars_of_isIdent h

end Names

namespace Variable

variable {v : Variable} {vs : List Variable} {w : String} {lines : List String}

theorem property?_declaration (word : isIdentChars w.toList = true) (rest : String) :
    Kotlin.property? ("var " ++ w ++ ": " ++ rest) = some w := by
  have named : ∀ c ∈ w.toList, (c != ':') = true := by
    intro c hc
    rw [bne_iff_ne]
    rintro rfl
    exact absurd (identParts word _ hc) (by decide)
  have line : ("var " ++ w ++ ": " ++ rest).toList =
      "var ".toList ++ (w.toList ++ ':' :: ' ' :: rest.toList) := by
    simp only [String.toList_append, List.append_assoc]
    rfl
  rw [Kotlin.property?, line, dropWord?_append, Option.map_some, List.takeWhile_append_of_pos named,
    List.takeWhile_cons_of_neg (by decide), List.append_nil, String.ofList_toList]

theorem properties_toKotlin (name : trimmed v.name = v.name) (h : v.toKotlin = .ok lines) :
    Kotlin.properties lines = [v.name].filter isIdent := by
  by_cases word : isIdent v.name = true
  · have code : v.hasCode = true := word
    rw [toKotlin, code] at h
    obtain ⟨number, _, h⟩ := bind_ok h
    cases h
    have chars := chars_of_isIdent word
    rw [name] at chars
    have middle := property?_declaration chars ((if v.isInt then "Int" else "Double") ++ " = " ++ number)
    simp only [String.append_assoc] at middle ⊢
    rw [Kotlin.properties, List.filterMap_cons_none rfl, List.filterMap_cons_some middle,
      List.filterMap_cons_none rfl, List.filter_cons_of_pos word]
    rfl
  · have code : v.hasCode = false := Bool.eq_false_iff.mpr word
    rw [toKotlin, code] at h
    cases h
    rw [List.filter_cons_of_neg word]
    rfl

theorem properties_flatten {all : List (List String)} (names : ∀ v ∈ vs, trimmed v.name = v.name)
    (h : vs.mapM toKotlin = .ok all) :
    Kotlin.properties all.flatten = (vs.map (·.name)).filter isIdent := by
  induction vs generalizing all with
  | nil =>
    cases h
    rfl
  | cons v vs ih =>
    obtain ⟨first, others, here, there, rfl⟩ := mapM_cons_ok h
    rw [List.forall_mem_cons] at names
    have own := properties_toKotlin names.1 here
    have rest := ih names.2 there
    rw [Kotlin.properties] at own rest ⊢
    rw [List.flatten_cons, List.filterMap_append, own, rest, ← List.filter_append]
    rfl

theorem properties_listToKotlin (names : ∀ v ∈ vs, trimmed v.name = v.name)
    (h : listToKotlin vs = .ok lines) :
    Kotlin.properties lines = (vs.map (·.name)).filter isIdent := by
  obtain ⟨all, each, h⟩ := bind_ok h
  cases h
  exact properties_flatten names each

theorem name_ofDatum {d : Datum} (h : ofDatum d = .ok v) :
    v.name = trimmed (d.getD "name").textOrEmpty := by
  obtain ⟨x, _, h⟩ := bind_ok h
  obtain ⟨lo, _, h⟩ := bind_ok h
  obtain ⟨hi, _, h⟩ := bind_ok h
  cases h
  rw [inOrder]
  split <;> rfl

theorem names_of_mapM {items : List Datum} (h : items.mapM ofDatum = .ok vs) :
    vs.map (·.name) = (items.map fun item => (item.getD "name").textOrEmpty).map trimmed := by
  induction items generalizing vs with
  | nil =>
    cases h
    rfl
  | cons item items ih =>
    obtain ⟨v, vs', first, rest, rfl⟩ := mapM_cons_ok h
    simp only [List.map_cons, name_ofDatum first, ih rest]

end Variable

namespace Behavior

variable {d : Datum} {b : Behavior} {lines : List String}

theorem declaredVariables_document (document : ∀ items, d ≠ .list items) :
    Tick.declaredVariables d = Tick.declaredVariables (.object [("emitterVars", d.getD "emitterVars")]) := by
  cases d with
  | list items => exact absurd rfl (document items)
  | _ => rfl

theorem declaredVariables_eq (given : ofDatum d = .ok b) (document : ∀ items, d ≠ .list items) :
    Tick.declaredVariables d = ((b.vars.map (·.name)).filter Tick.isName).eraseDups := by
  rw [declaredVariables_document document]
  have vars : variablesOf (d.getD "emitterVars") = .ok b.vars := by
    rw [ofDatum] at given
    split at given
    · obtain ⟨vs, read, given⟩ := bind_ok given
      obtain ⟨actions, _, given⟩ := bind_ok given
      obtain ⟨death, _, given⟩ := bind_ok given
      cases given
      exact read
    · next other =>
      obtain ⟨death, _, given⟩ := bind_ok given
      cases given
      cases d with
      | object entries => exact absurd rfl other
      | _ => rfl
  cases found : d.getD "emitterVars" with
  | list items =>
    rw [found] at vars
    rw [Variable.names_of_mapM vars]
    rfl
  | _ =>
    rw [found] at vars
    rw [← Except.ok.inj vars]
    rfl

theorem isIdent_names {names : List String} (trim : ∀ w ∈ names, trimmed w = w) :
    names.filter isIdent = (names.filter Tick.isName).filter isIdent := by
  rw [List.filter_filter]
  refine List.filter_congr fun w hw => ?_
  by_cases ident : isIdent w = true
  · rw [ident, ((isIdent_iff_isName (trim w hw)).mp ident).1]
    rfl
  · rw [Bool.eq_false_iff.mpr ident]
    rfl

theorem filter_isIdent_eq {names : List String} (trim : ∀ w ∈ names, trimmed w = w)
    (plain : ∀ w ∈ names, Tick.isName w = true → '$' ∉ w.toList) :
    names.filter isIdent = names.filter Tick.isName := by
  rw [isIdent_names trim]
  refine List.filter_eq_self.mpr fun w hw => ?_
  obtain ⟨there, name⟩ := List.mem_filter.mp hw
  exact (isIdent_iff_isName (trim w there)).mpr ⟨name, plain w there name⟩

/-- The properties of a behavior are its variables named by identifiers, those of one name repeated. They
are the names that the behavior has and that scripts may use just if no such name is given twice and no
name that scripts may spell holds a dollar sign. -/
theorem properties_agree_iff (given : ofDatum d = .ok b) (document : ∀ items, d ≠ .list items)
    (written : Variable.listToKotlin b.vars = .ok lines) :
    b.variableNames = (Kotlin.properties lines).eraseDups ∧
    b.variableNames = (Tick.declaredVariables d).filter isIdent ∧
    ((Kotlin.properties lines).Nodup ∧ Kotlin.properties lines = b.variableNames ∧
        Kotlin.properties lines = Tick.declaredVariables d ↔
      ((b.vars.map (·.name)).filter isIdent).Nodup ∧
        ∀ v ∈ b.vars, Tick.isName v.name = true → '$' ∉ v.name.toList) := by
  have trim : ∀ w ∈ b.vars.map (·.name), trimmed w = w :=
    List.forall_mem_map.mpr fun v hv => ((ofDatum_settled given).vars v hv).name
  have code := Variable.properties_listToKotlin (List.forall_mem_map.mp trim) written
  have names : b.variableNames = (Kotlin.properties lines).eraseDups := by
    rw [code]
    rfl
  have declared := declaredVariables_eq given document
  refine ⟨names, ?_, ?_, ?_⟩
  · rw [declared, ← eraseDups_filter, ← isIdent_names trim]
    rfl
  · rintro ⟨distinct, _, same⟩
    refine ⟨code ▸ distinct, fun v hv name => ?_⟩
    have there : v.name ∈ b.vars.map (·.name) := List.mem_map_of_mem hv
    have listed : v.name ∈ Kotlin.properties lines := by
      rw [same, declared, List.mem_eraseDups]
      exact List.mem_filter.mpr ⟨there, name⟩
    rw [code] at listed
    exact ((isIdent_iff_isName (trim _ there)).mp (List.mem_filter.mp listed).2).2
  · rintro ⟨distinct, plain⟩
    rw [← code] at distinct
    have once := eraseDups_eq_self_iff.mpr distinct
    refine ⟨distinct, by rw [names, once], ?_⟩
    rw [declared, ← filter_isIdent_eq trim (List.forall_mem_map.mpr plain), ← code, once]

theorem properties_agree_hp :
    let raw : Datum := .object [("emitterVars",
      .list [.object [("name", .text " hp "), ("type", .text "int")], .object [("name", .text "1x")]])]
    ∃ b lines, ofDatum raw = .ok b ∧ Variable.listToKotlin b.vars = .ok lines ∧
      Kotlin.properties lines = ["hp"] ∧ b.variableNames = ["hp"] ∧
        Tick.declaredVariables raw = ["hp"] := by
  intro raw
  have read : (ofDatum raw).toOption.map (fun b => b.vars.map (·.name)) = some ["hp", "1x"] := by
    decide +kernel
  have code : (ofDatum raw >>= fun b => Variable.listToKotlin b.vars).toOption.map
      Kotlin.properties = some ["hp"] := by decide +kernel
  obtain ⟨b, given, names⟩ := Option.map_eq_some_iff.mp read
  obtain ⟨lines, written, properties⟩ := Option.map_eq_some_iff.mp code
  have given := ok_of_toOption given
  have written := ok_of_toOption written
  rw [bind_of_ok given] at written
  have document : ∀ items, raw ≠ .list items := fun items same => Datum.noConfusion same
  have plain : ∀ w ∈ b.vars.map (·.name), Tick.isName w = true → '$' ∉ w.toList := by
    rw [names]
    decide
  have distinct : ((b.vars.map (·.name)).filter isIdent).Nodup := by
    rw [names]
    decide
  obtain ⟨_, same, same'⟩ := (properties_agree_iff given document written).2.2.mpr
    ⟨distinct, List.forall_mem_map.mp plain⟩
  exact ⟨b, lines, given, written, properties, same ▸ properties, same' ▸ properties⟩

/-- Two variables of one name have two properties of this name. -/
theorem properties_repeated :
    let raw : Datum := .object [("emitterVars",
      .list [.object [("name", .text "a"), ("type", .text "int")],
        .object [("name", .text "a"), ("type", .text "int")]])]
    ∃ b lines, ofDatum raw = .ok b ∧ Variable.listToKotlin b.vars = .ok lines ∧
      Kotlin.properties lines = ["a", "a"] ∧ b.variableNames = ["a"] ∧
        Tick.declaredVariables raw = ["a"] := by
  intro raw
  have names : (ofDatum raw).toOption.map variableNames = some ["a"] := by decide +kernel
  have code : (ofDatum raw >>= fun b => Variable.listToKotlin b.vars).toOption.map
      Kotlin.properties = some ["a", "a"] := by decide +kernel
  obtain ⟨b, given, names⟩ := Option.map_eq_some_iff.mp names
  obtain ⟨lines, written, properties⟩ := Option.map_eq_some_iff.mp code
  have given := ok_of_toOption given
  have written := ok_of_toOption written
  rw [bind_of_ok given] at written
  exact ⟨b, lines, given, written, properties, names, by decide +kernel⟩

end Behavior

end EmitterLogic
