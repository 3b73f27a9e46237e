/-!
# What can be wrong with a pattern
-/

namespace SignalPatch

/-- The number of slots, rests included, that a pattern may expand to. -/
def Pattern.slotLimit : Nat := 4096

inductive PatternFault where
  | unclosedGroup
  | emptyGroup
  | strayClose
  | strayRepeat
  | badRepeat
  | badNumber (word : String)
  | badStep (word : String)
  | empty
  | tooLong
  | mixed
  deriving DecidableEq

def PatternFault.message : PatternFault → String
  | .unclosedGroup => "unclosed '['"
  | .emptyGroup => "empty group"
  | .strayClose => "unexpected ']'"
  | .strayRepeat => "'*' must follow a step"
  | .badRepeat => "'*' needs a positive whole number"
  | .badNumber word => "invalid number '" ++ word ++ "'"
  | .badStep word => "invalid pattern step '" ++ word ++ "'"
  | .empty => "empty pattern"
  | .tooLong => "pattern expands to more than " ++ toString Pattern.slotLimit ++ " events"
  | .mixed => "pattern mixes sample names with pitches or numbers"

end SignalPatch
