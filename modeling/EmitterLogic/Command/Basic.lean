import EmitterLogic.Text.Scan
import EmitterLogic.Text.Letter
import EmitterLogic.Number.Reading
import EmitterLogic.Behavior.Kotlin

/-!
The arguments of a command: at most one operand, and options that take a value each. An option goes
by any beginning of its name that no other option has, and may hold its value after an equals sign.
After a double dash there are operands only.
-/

namespace EmitterLogic.Command

/-- What a command takes. -/
structure Grammar where
  options : List String
  needsOperand : Bool := false

/-- Why a command is not carried out: help was asked for, or the arguments are wrong. -/
inductive Stop where
  | help
  | usage
deriving DecidableEq, Repr

/-- What an argument is. -/
inductive Piece where
  | operand
  | option (name : String) (value? : Option String)
  | help
  | stray
  | ambiguous
  | wrong
deriving DecidableEq, Repr

def helpName : String := "--help"

def asciiDigits (s : List Char) : Bool := !s.isEmpty && s.all Text.isDecimal

def withoutBreak (s : List Char) : List Char := if s.getLast? == some '\n' then s.dropLast else s

/-- Is an argument a negative number without an exponent? -/
def isNegativeNumber (arg : List Char) : Bool :=
  match withoutBreak arg with
  | '-' :: rest =>
    asciiDigits rest || (match rest.dropWhile Text.isDecimal with
      | '.' :: fraction => asciiDigits fraction
      | _ => false)
  | _ => false

def cutValue (arg : List Char) : List Char × Option (List Char) :=
  (arg.takeWhile (· != '='), Text.dropSign? '=' (arg.dropWhile (· != '=')))

def found (name : String) (value? : Option (List Char)) : Piece :=
  if name == helpName then (if value?.isSome then .wrong else .help)
  else .option name (value?.map String.ofList)

/-- The option that an argument with two dashes begins to spell. -/
def longOption (options : List String) (arg : List Char) : Option Piece :=
  let names := helpName :: options
  if names.contains (String.ofList arg) then some (found (String.ofList arg) none)
  else
    let (start, value?) := cutValue arg
    let exact := names.filter fun n => n.toList == start
    match if exact.isEmpty then names.filter fun n => start.isPrefixOf n.toList else exact with
    | [] => none
    | [name] => some (found name value?)
    | _ => some .ambiguous

def otherPiece (arg : List Char) : Piece :=
  if isNegativeNumber arg || arg.contains ' ' then .operand else .stray

/-- What an argument before a double dash is. -/
def pieceOf (options : List String) (arg : String) : Piece :=
  match arg.toList with
  | '-' :: '-' :: rest =>
    (longOption options ('-' :: '-' :: rest)).getD (otherPiece ('-' :: '-' :: rest))
  | ['-'] => .operand
  | '-' :: 'h' :: rest => if rest == ['='] then .wrong else .help
  | '-' :: rest => otherPiece ('-' :: rest)
  | _ => .operand

/-- The arguments that have been read. -/
structure Given where
  operand : Option String := none
  values : List (String × String) := []
  /-- Is there an argument that nothing takes? -/
  hasStray : Bool := false

namespace Given

def addOperand (g : Given) (arg : String) : Given :=
  match g.operand with
  | none => { g with operand := some arg }
  | some _ => { g with hasStray := true }

def all (g : Given) (name : String) : List String :=
  (g.values.filter (·.1 == name)).map (·.2)

def last? (g : Given) (name : String) : Option String :=
  (g.all name).getLast?.filter (· != "")

end Given

/-- Reads arguments. An option takes the argument after it, unless that is an option too. `isNext`
says whether the argument before was the operand, which may close the operands with a double dash.
-/
def readFrom (options : List String) (valid : String → String → Bool) (isNext : Bool) (g : Given) :
    List String → Except Stop Given
  | [] => .ok g
  | arg :: rest =>
    if arg == "--" then
      let g := if g.operand.isSome && !isNext then { g with hasStray := true } else g
      .ok (rest.foldl Given.addOperand g)
    else match pieceOf options arg with
      | .operand => readFrom options valid g.operand.isNone (g.addOperand arg) rest
      | .help => .error .help
      | .stray => readFrom options valid false { g with hasStray := true } rest
      | .ambiguous => .error .usage
      | .wrong => .error .usage
      | .option name (some value) =>
        if valid name value then
          readFrom options valid false { g with values := g.values ++ [(name, value)] } rest
        else .error .usage
      | .option name none =>
        match rest with
        | value :: rest =>
          if value == "--" || pieceOf options value != .operand || !valid name value then
            .error .usage
          else readFrom options valid false { g with values := g.values ++ [(name, value)] } rest
        | [] => .error .usage

def hasAmbiguity (options : List String) (args : List String) : Bool :=
  (args.takeWhile (· != "--")).any fun arg => pieceOf options arg == .ambiguous

/-- The arguments of a command, whose options accept the values that are valid. An ambiguous one
makes all of them wrong. -/
def Grammar.read (grammar : Grammar) (valid : String → String → Bool) (args : List String) :
    Except Stop Given := do
  if hasAmbiguity grammar.options args then throw .usage
  let g ← readFrom grammar.options valid false {} args
  if g.hasStray || (grammar.needsOperand && g.operand.isNone) then throw .usage
  return g

inductive Request where
  /-- The code of the behavior in a file, for another file or for the screen. -/
  | generate (source : String) (target? : Option String)
  /-- A look at a tick script, which may come from a file. -/
  | lint (script : String) (file? : Option String) (vars : List String)
  /-- The value of a formula. -/
  | evaluate (formula : String) (context vars : List String) (fallback : Float)
  /-- A look at a predicate. -/
  | check (predicate : String)

namespace Request

def isValid (name value : String) : Bool :=
  name != "--fallback" || (Reading.float? value.toList).isSome

def read (grammar : Grammar) (args : List String) : Except Stop Given := grammar.read isValid args

def numberOf (g : Given) (name : String) : Float :=
  ((g.all name).getLast?.bind fun s => Reading.float? s.toList).getD 0.0

/-- The request of the arguments after the name of a command. -/
def ofCommand (name : String) (args : List String) : Except Stop Request := do
  match name with
  | "gen" =>
    let g ← read { options := ["--out"], needsOperand := true } args
    return generate (g.operand.getD "") (g.last? "--out")
  | "lint" =>
    let g ← read { options := ["--file", "--var"] } args
    return lint (g.operand.getD "") (g.last? "--file") (g.all "--var")
  | "eval-math" =>
    let g ← read { options := ["--ctx", "--vars", "--fallback"], needsOperand := true } args
    return evaluate (g.operand.getD "") (g.all "--ctx") (g.all "--vars") (numberOf g "--fallback")
  | "check-bool" =>
    let g ← read { options := [], needsOperand := true } args
    return check (g.operand.getD "")
  | _ => throw .usage

/-- The request of all arguments. An option before the name of a command is not known, but help may
still be asked for behind it. -/
def ofArguments : List String → Except Stop Request
  | [] => .error .usage
  | name :: args =>
    if name == "--" then .error .usage
    else match pieceOf [] name with
    | .operand => ofCommand name args
    | .help => .error .help
    | .stray =>
      match ofArguments args with
      | .error stop => .error stop
      | .ok _ => .error .usage
    | _ => .error .usage

/-- The file that a request is about. -/
def file? : Request → Option String
  | generate source _ => some source
  | lint _ file? _ => file?
  | _ => none

end Request

/-- How the program ends: with a code, or with a message about the arguments. -/
inductive Exit where
  | code (n : Nat)
  | message (text : String)
deriving DecidableEq, Repr

structure Outcome where
  exit : Exit
  output : String := ""
  /-- A file to write, by its name. -/
  written : Option (String × String) := none

/-- Why a request has no outcome. -/
inductive Failure where
  | fault (f : Fault)
  | missing (file : String)
deriving DecidableEq, Repr

abbrev Performing := ExceptT Failure (StateM Session)

def live {α : Type} (x : Live α) : Performing α := ExceptT.adapt Failure.fault x

def marked (text : String) : String := "[Emitter] " ++ text ++ "\n"

def ending (code : Nat) (text : String) : Outcome := { exit := .code code, output := marked text }

/-- The text of a file with plain line breaks. -/
def plainBreaks : List Char → List Char
  | [] => []
  | '\r' :: '\n' :: rest => '\n' :: plainBreaks rest
  | '\r' :: rest => '\n' :: plainBreaks rest
  | c :: rest => c :: plainBreaks rest

/-- A name and a number with an equals sign between them. -/
def pair? (item : String) : Except String (String × Datum) :=
  let key := item.toList.takeWhile (· != '=')
  match Text.dropSign? '=' (item.toList.dropWhile (· != '=')) with
  | none => .error ("[Emitter] bad --ctx/--vars entry (want k=v): " ++ item)
  | some value =>
    let name := Text.trim key
    if name.isEmpty then .error ("[Emitter] bad --ctx/--vars entry (want k=v): " ++ item)
    else match Reading.float? value with
      | some x => .ok (String.ofList name, .float x)
      | none => .error ("[Emitter] not a number: " ++ item)

def pairs? (items : List String) : Except String (Fields Datum) := do
  return Fields.merge [] (← items.mapM pair?)

def sight? (context vars : List String) : Except String Sight := do
  return { context := ← pairs? context, vars := ← pairs? vars }

namespace Request

def performGenerate (source : String) (target? text? : Option String) : Performing Outcome := do
  match text?.bind Behavior.load? with
  | none => return ending 2 ("cannot read " ++ source)
  | some loaded =>
    let code ← live (do
      let b ← Session.lift loaded
      Behavior.documentToKotlin b.toDatum)
    match target? with
    | none => return { exit := .code 0, output := code ++ "\n" }
    | some target =>
      return { ending 0 ("wrote " ++ target ++ " (" ++ toString code.length ++ " chars)") with
        written := some (target, code ++ "\n") }

def performLint (script : String) (vars : List String) : Performing Outcome := do
  let compiled ← live (Session.lift
    (Tick.Compiled.ofText script (Tick.namesAmong vars)))
  match compiled.defect? with
  | none => return ending 0 "OK"
  | some defect => return ending 1 (defect.kind ++ ": " ++ defect.message)

def performEvaluate (formula : String) (context vars : List String) (fallback : Float) :
    Performing Outcome := do
  let text := trimmed formula
  let isFormula ← if text.isEmpty then pure false
    else live (do return (← Session.formula? text).isSome)
  if !isFormula then return ending 1 ("invalid math expression: " ++ formula)
  match sight? context vars with
  | .error message => return { exit := .message message }
  | .ok sight =>
    let value ← live (Session.evalFormula sight formula (.float fallback))
    return { exit := .code 0, output := value.display ++ "\n" }

def performCheck (predicate : String) : Performing Outcome := do
  match ← live (Session.predicateError? predicate) with
  | some e => return ending 1 e.message
  | none => return ending 0 ("OK -> " ++ (← live (Session.predicateToKotlin [] predicate)))

/-- Carries out a request. `text?` is the text of its file, if it can be read. -/
def perform (r : Request) (text? : Option String) : Performing Outcome := do
  modify fun s => { s with log := s.log.resize s.config.logBufferSize }
  let text? := text?.map fun s => String.ofList (plainBreaks s.toList)
  match r with
  | generate source target? => performGenerate source target? text?
  | lint script none vars => performLint script vars
  | lint _ (some file) vars =>
    match text? with
    | some script => performLint script vars
    | none => throw (.missing file)
  | evaluate formula context vars fallback =>
    performEvaluate formula context vars fallback
  | check predicate => performCheck predicate

end Request

def Stop.outcome : Stop → Outcome
  | help => { exit := .code 0 }
  | usage => { exit := .code 2 }

end EmitterLogic.Command
