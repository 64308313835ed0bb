import EmitterLogic.Term.Basic

/-!
Kotlin literals. A `NumberStyle` is a way to write a number in generated code.
-/

namespace EmitterLogic.Kotlin

/-- A number rounded to six places, always with a point or an exponent. -/
def decimal (d : Datum) : Except Fault String := do
  match ← d.finite? with
  | none => return "0.0"
  | some x =>
    let millionths ← floored (x * 1000000.0 + 0.5)
    let text := plainNumeral (Binary64.nearest (millionths < 0) millionths.natAbs 1000000)
    return if text.any fun c => c == '.' || c == 'e' then text else text ++ ".0"

/-- A number in full, always with a point. -/
def full (d : Datum) : Except Fault String := do
  match ← d.finite? with
  | none => return "0.0"
  | some x =>
    if isWhole x then return toString (← truncated x) ++ ".0" else return plainNumeral x

/-- The first of the values that is a number: an integer in full, any other one rounded. -/
def literalOf : List Datum → Except Fault String
  | [] => .ok "0"
  | d :: rest => do
    match ← d.finite? with
    | none => literalOf rest
    | some x => if isWhole x then return toString (← truncated x) else decimal (.float x)

def literal (d fallback : Datum) : Except Fault String := literalOf [d, fallback]

inductive NumberStyle where
  | full | literal | decimal
deriving DecidableEq, Repr

def NumberStyle.write (style : NumberStyle) (d : Datum) : Except Fault String :=
  match style with
  | .full => Kotlin.full d
  | .literal => Kotlin.literal d (.int 0)
  | .decimal => Kotlin.decimal d

/-- A number rounded to six places, or a variable as a floating-point number. -/
def decimalOrVariable (d fallback : Datum) : Except Fault String := do
  match ← d.finite? with
  | some x => decimal (.float x)
  | none =>
    let name := d.trimmedText
    if isIdent name then return name ++ ".toDouble()" else decimal fallback

/-- The integer part of a number, or a variable as an integer. -/
def integerOrVariable (d fallback : Datum) : Except Fault String := do
  match ← d.finite? with
  | some x => return toString (← truncated x)
  | none =>
    let name := d.trimmedText
    if isIdent name then return name ++ ".toInt()"
    else return toString (← truncated (← fallback.finiteOrZero))

/-- A number for a declared type. -/
def typed (d : Datum) (isInt : Bool) : Except Fault String := do
  match ← d.finite? with
  | none => return if isInt then "0" else "0.0"
  | some x => if isInt then return toString (← truncated x) else decimal (.float x)

/-- Target expressions of generated code by name; an empty one is none. -/
abbrev NameMap := Fields String

def NameMap.ofDatum (d : Datum) : NameMap := d.fields.map fun (k, v) => (k, v.trimmedText)

def NameMap.firstOf (map : NameMap) (keys : List String) : String :=
  (keys.findSome? fun k => (map.get? k).filter (· != "")).getD ""

def NameMap.target (map : NameMap) (name : String) : String := map.firstOf (lookupKeys name)

def builtin (map : NameMap) (b : Builtin) : String :=
  let target := map.target b.name
  if target.isEmpty then b.name else target

theorem builtin_nil (b : Builtin) : builtin [] b = b.name := by cases b <;> rfl

/-- A term in generated code. -/
def term (map : NameMap) (style : NumberStyle) : Term → Except Fault String
  | .number x => style.write (.float x)
  | .named name => .ok (if isIdent name then trimmed name else "0.0")
  | .builtin b => .ok (builtin map b)

def reason (r : Reason) : String := Reason.qualifier ++ r.tag

/-- A kind and a value in generated code. -/
def rawTerm (map : NameMap) (style : NumberStyle) (t : RawTerm) : Except Fault String :=
  let kind := canonicalName t.kind.textOrEmpty
  if kind == "number" then style.write t.value
  else if kind == "var" then
    .ok (if t.value.isIdent then trimmed t.value.toText else "0.0")
  else if kind == "reason" then .ok (reason (Reason.ofDatum t.value))
  else .ok (((Builtin.ofName? kind).map (builtin map)).getD "0.0")

end EmitterLogic.Kotlin
