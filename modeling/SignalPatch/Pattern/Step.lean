import SignalPatch.Decimal.Numeral

/-!
# Steps of a pattern

A pattern divides one cycle evenly between its steps. A step is a rest, a sound or a group of steps,
and may be repeated within its share of the cycle.
-/

namespace SignalPatch.Pattern

inductive Sound where
  | number (value : Float)
  | pitch (note : Nat)
  | sample (name : String)
  deriving DecidableEq

inductive Step where
  | rest (repeats : Nat)
  | sound (sound : Sound) (repeats : Nat)
  | group (steps : List Step) (repeats : Nat)

def Step.repeats : Step → Nat
  | .rest n | .sound _ n | .group _ n => n

def countLimit : Nat := Nat.pow 2 64 - 1

def saturate (n : Nat) : Nat := min n countLimit

mutual

def Step.slotCount : Step → Nat
  | .rest n | .sound _ n => saturate n
  | .group inner n => saturate (Pattern.slotCount inner * n)
termination_by structural step => step

/-- How many slots steps expand to, up to `countLimit`: repeats and groups are multiplied out. -/
def slotCount : List Step → Nat
  | [] => 0
  | step :: steps => saturate (step.slotCount + slotCount steps)
termination_by structural steps => steps

end

section Placement

variable {α : Type} [Add α] [Mul α] [Div α] [NatCast α]

/-- A stretch of the cycle, and what is played in it; nothing in a rest. -/
structure Slot (α : Type) where
  time : α
  duration : α
  sound : Option Sound

def repeatSlots (start share : α) (sound : Option Sound) (n : Nat) : List (Slot α) :=
  let each := share / (n : α)
  (List.range n).map fun (r : Nat) => ⟨start + each * (r : α), each, sound⟩

mutual

def Step.slots (start share : α) : Step → List (Slot α)
  | .rest n => repeatSlots start share none n
  | .sound sound n => repeatSlots start share (some sound) n
  | .group inner n =>
    let each := share / (n : α)
    (List.range n).flatMap fun (r : Nat) =>
      slotsFrom (start + each * (r : α)) (each / (inner.length : α)) 0 inner
termination_by structural step => step

/-- The slots of steps that have a `share` of the cycle each, when the first of them is the `i`-th
after `start`. -/
def slotsFrom (start share : α) (i : Nat) : List Step → List (Slot α)
  | [] => []
  | step :: steps =>
    step.slots (start + share * (i : α)) share ++ slotsFrom start share (i + 1) steps
termination_by structural steps => steps

end

def slots (start length : α) (steps : List Step) : List (Slot α) :=
  slotsFrom start (length / (steps.length : α)) 0 steps

end Placement

end SignalPatch.Pattern
