import EmitterLogic.Text.Quoted

/-!
Faults: the failures of numbers that are no part of any script or formula.
-/

namespace EmitterLogic

/-- Why a value could not be turned into a number of the kind that was asked for. -/
inductive Fault where
  | tooLarge
  | infinite
  | notANumber
  | unreadable (text : String)
  | unknownBuiltin (name : String)
deriving DecidableEq, Repr

def Fault.message : Fault → String
  | tooLarge => "int too large to convert to float"
  | infinite => "cannot convert float infinity to integer"
  | notANumber => "cannot convert float NaN to integer"
  | unreadable text => "could not convert string to float: " ++ quoted text
  | unknownBuiltin name => "unknown builtin: " ++ name

end EmitterLogic
