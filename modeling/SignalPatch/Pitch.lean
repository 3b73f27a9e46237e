import SignalPatch.Decimal.Numeral

/-!
# Pitches

A pitch is a MIDI note number, `0 .. 127`, with 60 for middle C. It is named by a letter, perhaps a
sharp or a flat, and an octave.
-/

namespace SignalPatch.Pitch

def defaultOctave : Nat := 4

def semitones? : Char → Option Nat
  | 'c' => some 0
  | 'd' => some 2
  | 'e' => some 4
  | 'f' => some 5
  | 'g' => some 7
  | 'a' => some 9
  | 'b' => some 11
  | _ => none

/-- A sharp raises by a semitone and a flat lowers by one; then the octave follows. -/
def accidental : List Char → Int × List Char
  | '#' :: cs => (1, cs)
  | 'b' :: cs => (-1, cs)
  | cs => (0, cs)

/-- The octave has at most two digits. Only a name in lower case may leave it out, so that words
such as `A` stay free for samples. -/
def octave? (letter : Char) (cs : List Char) : Option Nat :=
  if cs.isEmpty then
    if letter.isUpper then none else some defaultOctave
  else if cs.all Char.isDigit ∧ cs.length ≤ 2 then some (Decimal.wholeNumber cs)
  else none

def clamp (note : Int) : Nat := (min note 127).toNat

def ofName? : List Char → Option Nat
  | [] => none
  | letter :: cs => do
    let base ← semitones? letter.toLower
    let (shift, rest) := accidental cs
    let octave ← octave? letter rest
    return clamp ((octave + 1) * 12 + base + shift)

def frequency (note : Nat) : Float := 440 * Float.pow 2 ((Float.ofNat note - 69) / 12)

end SignalPatch.Pitch
