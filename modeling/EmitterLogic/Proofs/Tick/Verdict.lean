import EmitterLogic.Proofs.Fault
import EmitterLogic.Proofs.Script.Faultless
import EmitterLogic.Proofs.Script.Unreadable
import EmitterLogic.Proofs.Tick.Cleaning

/-!
What a verdict on a script depends on: the text, once it is clean, and of the names only whether they
change the first unknown one. What looking at a script leaves behind is a record with a verdict, unless
the scanner comes to a numeral that spells no number.
-/

namespace EmitterLogic

namespace Tick

theorem cleanSource_ne_empty {text : String} (h : cleanSource text ≠ "") :
    cleanSource (cleanSource text) ≠ "" := by
  rw [ne_eq, ← String.isEmpty_iff, isEmpty_cleanSource (isClean_cleanSource text),
    String.isEmpty_iff]
  exact h

/-- What a compiled script tells of itself. -/
structure Report where
  isOk : Bool
  kind : String
  name : String
  message : String
  program? : Option Script.Program

def report : Verdict → Report
  | .ok program? => ⟨true, "", "", "", program?⟩
  | .error defect => ⟨false, defect.kind, defect.name, defect.message, none⟩

def Compiled.report (c : Compiled) : Report := Tick.report c.verdict

theorem ofText_ok {text : String} {names : List String} {v : Verdict}
    (h : verdict (cleanSource text) names = .ok v) :
    Compiled.ofText text names = .ok ⟨cleanSource text, v⟩ := by
  simp only [Compiled.ofText, h]
  rfl

theorem of_ofText_ok {text : String} {names : List String} {c : Compiled}
    (h : Compiled.ofText text names = .ok c) :
    c.source = cleanSource text ∧ verdict (cleanSource text) names = .ok c.verdict := by
  obtain ⟨v, found, h⟩ := bind_ok h
  rw [← Except.ok.inj h]
  exact ⟨rfl, found⟩

def verdictOn (program : Script.Program) : Option Defect → Verdict
  | some defect => .error defect
  | none => .ok (some program)

theorem verdict_of_parse {source : String} {program : Script.Program} (visible : source ≠ "")
    (parses : Script.parseProgram source = .ok program) (names : List String) :
    verdict source names = .ok (verdictOn program (nameDefect? source.toList names)) := by
  rw [verdict, if_neg (by simpa using visible), parses]
  cases nameDefect? source.toList names with
  | none => rfl
  | some defect => rfl

theorem verdict_congr {source : String} {names names' : List String}
    (h : (∀ program, Script.parseProgram source ≠ .ok program) ∨
      unknownName? names source.toList = unknownName? names' source.toList) :
    verdict source names = verdict source names' := by
  rw [verdict, verdict]
  split
  · rfl
  · cases parsed : Script.parseProgram source with
    | error e => cases e <;> rfl
    | ok program =>
      rcases h with unparsed | same
      · exact absurd parsed (unparsed program)
      · simp only [nameDefect?, same]

theorem forbidden_report (program : Script.Program) (callee? : Option String) :
    (report (verdictOn program (callee?.map .forbiddenCall))).kind ≠ "unknown_identifier" := by
  cases callee? with
  | none => exact (by decide : "" ≠ "unknown_identifier")
  | some callee => exact (by decide : "disallowed_call" ≠ "unknown_identifier")

theorem unknownName?_of_report {source : List Char} {program : Script.Program}
    {names names' : List String}
    (h : report (verdictOn program (nameDefect? source names)) =
      report (verdictOn program (nameDefect? source names'))) :
    unknownName? names source = unknownName? names' source := by
  simp only [nameDefect?] at h
  cases first : unknownName? names source with
  | none =>
    cases second : unknownName? names' source with
    | none => rfl
    | some name =>
      rw [first, second] at h
      exact absurd (congrArg Report.kind h) (forbidden_report program _)
  | some name =>
    cases second : unknownName? names' source with
    | none =>
      rw [first, second] at h
      exact absurd (congrArg Report.kind h).symm (forbidden_report program _)
    | some name' =>
      rw [first, second] at h
      exact congrArg some (congrArg Report.name h)

theorem exists_report_iff {source : String} (visible : source ≠ "") {names names' : List String}
    {v : Verdict} (h : verdict source names = .ok v) :
    (∃ v', verdict source names' = .ok v' ∧ report v' = report v) ↔
      (∀ program, Script.parseProgram source ≠ .ok program) ∨
        unknownName? names source.toList = unknownName? names' source.toList := by
  constructor
  · rintro ⟨v', h', same⟩
    cases parsed : Script.parseProgram source with
    | error e => exact .inl fun program => nofun
    | ok program =>
      rw [verdict_of_parse visible parsed] at h h'
      cases h
      cases h'
      exact .inr (unknownName?_of_report same.symm)
  · intro agrees
    exact ⟨v, (verdict_congr agrees).symm.trans h, rfl⟩

end Tick

end EmitterLogic

namespace EmitterLogic

open Script (tokens parseProgram MeetsFault)

theorem Script.parseProgram_fault_iff {text : String} {f : Fault} :
    parseProgram text = .error (.fault f) ↔ MeetsFault text.toList f := by
  rw [← tokens_fault_iff, parseProgram, parseWith]
  cases scanned : tokens text with
  | error e =>
    have failed : (Except.error e >>= fun ts => program.run ts) = .error e := rfl
    rw [failed]
    cases e with
    | «at» cause position => exact ⟨nofun, nofun⟩
    | fault f' =>
      simp only [Failure.within, Except.error.injEq, ParseError.fault.injEq, Failure.fault.injEq]
  | ok ts =>
    have run : (Except.ok ts >>= fun ts => program.run ts) = program ts := rfl
    rw [run]
    refine ⟨fun h => ?_, nofun⟩
    cases parsed : program ts with
    | ok r =>
      rw [parsed] at h
      cases h
    | error e =>
      rw [parsed] at h
      cases e with
      | «at» cause position => cases h
      | fault f' => exact absurd parsed (Faultless.program ts f')

namespace Tick

/-- The kinds of records; a script without a defect has none. -/
def kinds : List String := ["", "syntax", "unknown_identifier", "disallowed_call"]

theorem report_kind (v : Verdict) : (report v).kind ∈ kinds := by
  cases v with
  | ok program? => exact List.mem_cons_self
  | error defect =>
    cases defect with
    | malformed cause line => exact (by decide : "syntax" ∈ kinds)
    | unknownName name => exact (by decide : "unknown_identifier" ∈ kinds)
    | forbiddenCall callee => exact (by decide : "disallowed_call" ∈ kinds)

theorem verdict_error_iff {source : String} {vars : List String} {f : Fault} :
    verdict source vars = .error f ↔ MeetsFault source.toList f := by
  rw [verdict]
  split
  · next empty =>
    rw [String.isEmpty_iff.mp empty]
    constructor
    · intro h
      cases h
    · intro h
      exact absurd h Script.meetsFault_nil
  · rw [← Script.parseProgram_fault_iff]
    cases parsed : parseProgram source with
    | error e =>
      cases e with
      | syntaxError cause line =>
        constructor
        · intro h
          cases h
        · intro h
          cases h
      | fault f' => simp only [Except.error.injEq, Script.ParseError.fault.injEq]
    | ok program =>
      dsimp only
      constructor
      · intro h
        cases defect : nameDefect? source.toList vars with
        | some d =>
          rw [defect] at h
          cases h
        | none =>
          rw [defect] at h
          cases h
      · intro h
        cases h

theorem ofText_error_iff {text : String} {vars : List String} {f : Fault} :
    Compiled.ofText text vars = .error f ↔ MeetsFault (cleanSource text).toList f := by
  have unreadable : verdict (cleanSource text) vars = .error f ↔
      MeetsFault (cleanSource text).toList f := verdict_error_iff
  rw [← unreadable]
  cases found : verdict (cleanSource text) vars with
  | ok v =>
    rw [ofText_ok found]
    exact ⟨nofun, nofun⟩
  | error f' =>
    have failed : Compiled.ofText text vars = .error f' := by
      simp only [Compiled.ofText, found]
      rfl
    simp only [failed, Except.error.injEq]

/-- The scanner and the grammar fail otherwise than with an error of the script just where the scanner
comes to an unreadable numeral; and where it comes to none in the clean text, looking at a script gives
a record of one of the four kinds. -/
theorem ofText_record (text : String) (vars : List String) :
    (∀ f, tokens text = .error (.fault f) ↔ MeetsFault text.toList f) ∧
    (∀ f, parseProgram text = .error (.fault f) ↔ MeetsFault text.toList f) ∧
    (∀ f, Compiled.ofText text vars = .error f ↔ MeetsFault (cleanSource text).toList f) ∧
    ((∃ c, Compiled.ofText text vars = .ok c ∧ c.report.kind ∈ kinds) ↔
      ∀ f, ¬MeetsFault (cleanSource text).toList f) := by
  refine ⟨fun f => Script.tokens_fault_iff, fun f => Script.parseProgram_fault_iff,
    fun f => ofText_error_iff, ?_⟩
  constructor
  · rintro ⟨c, looked, _⟩ f meets
    rw [ofText_error_iff.mpr meets] at looked
    cases looked
  · intro readable
    cases looked : Compiled.ofText text vars with
    | ok c => exact ⟨c, rfl, report_kind c.verdict⟩
    | error f => exact absurd (ofText_error_iff.mp looked) (readable f)

theorem ofText_raised_digit : Compiled.ofText "\u00b2" [] = .error (.unreadable "\u00b2") ∧
    ¬∃ c, Compiled.ofText "\u00b2" [] = .ok c := by
  have failed : Compiled.ofText "\u00b2" [] = .error (.unreadable "\u00b2") := by rfl
  refine ⟨failed, ?_⟩
  rintro ⟨c, looked⟩
  rw [failed] at looked
  cases looked

end Tick

end EmitterLogic
