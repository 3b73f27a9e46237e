import SignalPatch.Pattern.Read

/-!
# Patterns

A pattern is the sequence of sounds in one cycle, each with its start and duration as fractions of
the cycle. It comes from the text of a literal, and faults are reported inside that literal.
-/

namespace SignalPatch

structure Event (α : Type := Float) where
  time : α
  duration : α
  sound : Pattern.Sound
  deriving DecidableEq

/-- The events of one cycle in order; rests leave gaps. -/
structure Pattern (α : Type := Float) where
  events : List (Event α)
  deriving DecidableEq

namespace Pattern

instance : NatCast Float := ⟨Float.ofNat⟩

section Placement

variable {α : Type}

def Slot.event? (slot : Slot α) : Option (Event α) :=
  slot.sound.map fun sound => ⟨slot.time, slot.duration, sound⟩

/-- The events of steps spread over one cycle, whatever numbers its fractions are. -/
def ofSteps [Add α] [Mul α] [Div α] [NatCast α] [OfNat α 0] [OfNat α 1] (steps : List Step) :
    Pattern α :=
  ⟨(slots 0 1 steps).filterMap Slot.event?⟩

end Placement

def Sound.isSample : Sound → Bool
  | .sample _ => true
  | _ => false

def Sound.sampleName? : Sound → Option String
  | .sample name => some name
  | _ => none

def isSample (p : Pattern) : Bool := p.events.any (·.sound.isSample)

def sampleNames (p : Pattern) : List String := p.events.filterMap (·.sound.sampleName?)

def isMixed (p : Pattern) : Bool := p.isSample && p.events.any (!·.sound.isSample)

def ofChars (cs : List Char) : Except Misread Pattern := do
  let whole (fault : PatternFault) : Misread := ⟨fault, cs.length, byteLength cs⟩
  let ⟨sequence, _, _⟩ ← steps false cs
  if sequence.isEmpty then throw (whole .empty)
  if slotLimit < slotCount sequence then throw (whole .tooLong)
  let pattern := ofSteps sequence
  if pattern.isMixed then throw (whole .mixed)
  return pattern

/-- Where a fault lies in the program, when the text stands in a literal at `literal`, behind its
opening quote. -/
def Misread.span (literal : Span) (cs : List Char) (m : Misread) : Span :=
  let before := cs.take (cs.length - m.left)
  ⟨literal.line, literal.column + 1 + before.length, literal.offset + 1 + byteLength before,
    max m.length 1⟩

def parse (text : String) (literal : Span) : Except Finding Pattern :=
  let cs := text.toList
  (ofChars cs).mapError fun m => ⟨.badPattern m.fault, m.span literal cs⟩

end Pattern

end SignalPatch
