import Mathlib.Algebra.Group.Nat.Defs
import SignalPatch.Pattern

/-!
# The size of a pattern

A sequence of steps is multiplied out to the list of its leaves. The count that is compared with the
limit is the number of leaves, up to the largest count, and the slots of the cycle are the leaves,
one by one. So a pattern is refused for its size exactly if it has more leaves than the limit.
-/

namespace SignalPatch.Pattern

/-! ## Leaves -/

mutual

/-- What a step plays, repeat after repeat; a rest plays nothing. -/
def Step.leaves : Step → List (Option Sound)
  | .rest n => List.replicate n none
  | .sound sound n => List.replicate n (some sound)
  | .group inner n => (List.replicate n (Pattern.leaves inner)).flatten
termination_by structural step => step

def leaves : List Step → List (Option Sound)
  | [] => []
  | step :: steps => step.leaves ++ leaves steps
termination_by structural steps => steps

end

/-! ## The count -/

theorem saturate_add (m n : Nat) : saturate (saturate m + saturate n) = saturate (m + n) := by
  unfold saturate
  omega

/-- Only a factor of zero makes a product small again, and it makes it zero before and after. -/
theorem saturate_mul (m n : Nat) : saturate (saturate m * n) = saturate (m * n) := by
  unfold saturate
  rcases Nat.le_total m countLimit with hm | hm
  · rw [Nat.min_eq_left hm]
  · rw [Nat.min_eq_right hm]
    cases n with
    | zero => rfl
    | succ n =>
      have hle : countLimit * (n + 1) ≤ m * (n + 1) := Nat.mul_le_mul_right _ hm
      have hlarge : countLimit ≤ countLimit * (n + 1) := Nat.le_mul_of_pos_right _ n.succ_pos
      rw [Nat.min_eq_right hlarge, Nat.min_eq_right (Nat.le_trans hlarge hle)]

mutual

theorem Step.slotCount_eq : ∀ step : Step, step.slotCount = saturate step.leaves.length
  | .rest n => by simp [Step.slotCount, Step.leaves]
  | .sound _ n => by simp [Step.slotCount, Step.leaves]
  | .group inner n => by
    simp [Step.slotCount, Step.leaves, slotCount_eq inner, saturate_mul, Nat.mul_comm n]

theorem slotCount_eq : ∀ steps : List Step, slotCount steps = saturate (leaves steps).length
  | [] => rfl
  | step :: steps => by
    simp [slotCount, leaves, step.slotCount_eq, slotCount_eq steps, saturate_add]

end

/-! ## The slots -/

section Placement

variable {α : Type} [Add α] [Mul α] [Div α] [NatCast α]

theorem repeatSlots_sound (start share : α) (sound : Option Sound) (n : Nat) :
    (repeatSlots start share sound n).map Slot.sound = List.replicate n sound := by
  simp [repeatSlots, Function.comp_def, List.map_const']

mutual

theorem Step.slots_sound (start share : α) :
    ∀ step : Step, (step.slots start share).map Slot.sound = step.leaves
  | .rest n => by simp [Step.slots, repeatSlots_sound, Step.leaves]
  | .sound _ n => by simp [Step.slots, repeatSlots_sound, Step.leaves]
  | .group inner n => by
    simp [Step.slots, Step.leaves, List.flatMap_def, Function.comp_def, slotsFrom_sound _ _ _ inner,
      List.map_const']

theorem slotsFrom_sound (start share : α) (i : Nat) :
    ∀ steps : List Step, (slotsFrom start share i steps).map Slot.sound = leaves steps
  | [] => rfl
  | step :: steps => by
    simp [slotsFrom, leaves, step.slots_sound, slotsFrom_sound start share (i + 1) steps]

end

theorem slots_sound (start length : α) (steps : List Step) :
    (slots start length steps).map Slot.sound = leaves steps :=
  slotsFrom_sound start _ 0 steps

theorem slots_length (start length : α) (steps : List Step) :
    (slots start length steps).length = (leaves steps).length := by
  rw [← slots_sound start length, List.length_map]

variable [OfNat α 0] [OfNat α 1]

theorem ofSteps_sound (steps : List Step) :
    (ofSteps steps : Pattern α).events.map Event.sound = (leaves steps).filterMap id := by
  rw [ofSteps, ← slots_sound (0 : α) 1, List.map_filterMap, List.filterMap_map]
  congr
  funext slot
  simp [Slot.event?, Function.comp_def]

end Placement

/-! ## Texts -/

variable {sequence : List Step}

theorem ofChars_of_steps (h : (steps false cs).map (·.value) = .ok sequence) : ofChars cs =
    if sequence.isEmpty then .error ⟨.empty, cs.length, byteLength cs⟩
    else if slotLimit < slotCount sequence then .error ⟨.tooLong, cs.length, byteLength cs⟩
    else if (ofSteps sequence : Pattern).isMixed then .error ⟨.mixed, cs.length, byteLength cs⟩
    else .ok (ofSteps sequence) := by
  cases hread : steps false cs with
  | error m =>
    rw [hread] at h
    cases h
  | ok r =>
    rw [hread] at h
    cases h
    rw [ofChars, hread]
    rfl

theorem slotLimit_lt_slotCount (sequence : List Step) :
    slotLimit < slotCount sequence ↔ 4096 < (leaves sequence).length := by
  -- counts are cut off only above the limit
  have hlimit : slotLimit < countLimit := by decide
  rw [slotCount_eq, saturate, Nat.lt_min]
  exact and_iff_left hlimit

theorem parse_tooLong_iff (h : (steps false text.toList).map (·.value) = .ok sequence) :
    (∃ span, parse text literal = .error ⟨.badPattern .tooLong, span⟩) ↔
      4096 < (leaves sequence).length := by
  rw [← slotLimit_lt_slotCount]
  unfold parse
  dsimp only
  rw [ofChars_of_steps h]
  -- an empty sequence is refused before its size is looked at, and it has no leaves
  split
  · rename_i hempty
    obtain rfl := List.isEmpty_iff.mp hempty
    refine iff_of_false ?_ (by simp [slotCount])
    rintro ⟨span, hspan⟩
    cases hspan
  split
  · rename_i hlong
    exact iff_of_true ⟨_, rfl⟩ hlong
  · rename_i hfits
    refine iff_of_false ?_ hfits
    rintro ⟨span, hspan⟩
    split at hspan <;> cases hspan

theorem parse_ok (h : (steps false text.toList).map (·.value) = .ok sequence)
    (hparse : parse text literal = .ok pattern) :
    sequence ≠ [] ∧ (leaves sequence).length ≤ 4096 ∧ pattern = ofSteps sequence := by
  unfold parse at hparse
  dsimp only at hparse
  rw [ofChars_of_steps h] at hparse
  split at hparse
  · cases hparse
  split at hparse
  · cases hparse
  split at hparse
  · cases hparse
  rename_i hne hfits _
  cases hparse
  rw [slotLimit_lt_slotCount] at hfits
  exact ⟨by simpa using hne, Nat.le_of_not_lt hfits, rfl⟩

/-- How the limit holds a sequence back or lets it through. -/
structure Capped (text : String) (literal : Span) (sequence : List Step) : Prop where
  count : slotCount sequence = min (leaves sequence).length (2 ^ 64 - 1)
  refused : (∃ span, parse text literal = .error ⟨.badPattern .tooLong, span⟩) ↔
    4096 < (leaves sequence).length
  visited : ∀ pattern, parse text literal = .ok pattern →
    (slots (0 : Float) 1 sequence).length = (leaves sequence).length ∧
      pattern.events = (slots (0 : Float) 1 sequence).filterMap Slot.event?
  events : ∀ pattern, parse text literal = .ok pattern →
    pattern.events.map Event.sound = (leaves sequence).filterMap id ∧ pattern.events.length ≤ 4096

theorem parse_capped (text : String) (literal : Span) (sequence : List Step)
    (h : (steps false text.toList).map (·.value) = .ok sequence) :
    Capped text literal sequence := by
  refine ⟨slotCount_eq sequence, parse_tooLong_iff h, fun pattern hparse => ?_,
    fun pattern hparse => ?_⟩
  · obtain ⟨-, -, rfl⟩ := parse_ok h hparse
    exact ⟨slots_length 0 1 sequence, rfl⟩
  · obtain ⟨-, hfits, rfl⟩ := parse_ok h hparse
    have hsounds := ofSteps_sound (α := Float) sequence
    refine ⟨hsounds, ?_⟩
    calc (ofSteps sequence : Pattern).events.length
      _ = ((leaves sequence).filterMap id).length := by rw [← hsounds, List.length_map]
      _ ≤ (leaves sequence).length := List.length_filterMap_le _ _
      _ ≤ 4096 := hfits

def crowded : String := "[bd ~*3]*1024 hh"

def crowdedSteps : List Step :=
  [.group [.sound (.sample "bd") 1, .rest 3] 1024, .sound (.sample "hh") 1]

theorem crowded_capped : (steps false crowded.toList).map (·.value) = .ok crowdedSteps ∧
    (leaves crowdedSteps).length = 4097 ∧ Capped crowded .origin crowdedSteps := by
  have hread : (steps false crowded.toList).map (·.value) = .ok crowdedSteps := by
    have hchars : crowded.toList = _ := String.toList_ofList
    rw [hchars]
    with_unfolding_all rfl
  exact ⟨hread, by decide +kernel, parse_capped _ _ _ hread⟩

end SignalPatch.Pattern
