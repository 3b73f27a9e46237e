import Mathlib.Algebra.Order.Field.Rat
import Mathlib.Tactic.Linarith
import Mathlib.Tactic.Ring
import SignalPatch.Proofs.PatternLeaves
import SignalPatch.Proofs.PatternReading

/-!
# A pattern fills its cycle

The slots and events of a sequence are computed with sums, products and quotients, whatever the
numbers are. In exact numbers the slots of a well-formed sequence follow one another without a gap
from the start of the cycle to its end, and the events are those slots that are no rests.
-/

namespace SignalPatch

def Event.slot (event : Event α) : Pattern.Slot α := ⟨event.time, event.duration, some event.sound⟩

namespace Pattern

/-! ## Well-formed sequences -/

mutual

/-- Every step is played at least once, and no group is empty. -/
def Step.WellFormed : Step → Prop
  | .rest n | .sound _ n => 0 < n
  | .group inner n => inner ≠ [] ∧ Pattern.WellFormed inner ∧ 0 < n
termination_by structural step => step

def WellFormed : List Step → Prop
  | [] => True
  | step :: steps => step.WellFormed ∧ WellFormed steps
termination_by structural steps => steps

end

theorem Repeats.pos (h : Repeats cs n rest) : 0 < n := by
  cases h with
  | once => exact Nat.one_pos
  | counted _ _ hpos => exact hpos

theorem Atom.repeated_wellFormed (a : Atom) (hn : 0 < n) : (a.repeated n).WellFormed := by
  cases a with
  | rest => exact hn
  | sound s => exact hn

theorem Takes.wellFormed {sequence : List Step} (h : Takes nested cs sequence rest) :
    WellFormed sequence := by
  induction h with
  | stop | close => exact trivial
  | blank _ _ ih => exact ih
  | group _ hne hn _ ihinner ihmore => exact ⟨⟨hne, ihinner, hn.pos⟩, ihmore⟩
  | word _ _ _ _ hn _ ihmore => exact ⟨Atom.repeated_wellFormed _ hn.pos, ihmore⟩

/-! ## Tilings -/

/-- The first slot starts at `a`, each of the others where the one before ends, and the last ends at
`b`. -/
inductive Tiles : List (Slot ℚ) → ℚ → ℚ → Prop
  | nil : Tiles [] a a
  | cons : slot.time = a → 0 < slot.duration → Tiles more (a + slot.duration) b →
      Tiles (slot :: more) a b

namespace Tiles

theorem append (h : Tiles xs a b) (hys : Tiles ys b c) : Tiles (xs ++ ys) a c := by
  induction h with
  | nil => exact hys
  | cons htime hduration _ ih => exact .cons htime hduration (ih hys)

theorem flatMap_range {start each : ℚ} {f : Nat → List (Slot ℚ)}
    (h : ∀ r : Nat, Tiles (f r) (start + each * r) (start + each * r + each)) (n : Nat) :
    Tiles ((List.range n).flatMap f) start (start + each * n) := by
  induction n with
  | zero => simpa using Tiles.nil
  | succ n ih =>
    rw [List.range_succ, List.flatMap_append, List.flatMap_singleton]
    have hnext : start + each * (n + 1 : Nat) = start + each * n + each := by
      push_cast
      ring
    rw [hnext]
    exact ih.append (h n)

theorem le (h : Tiles xs a b) : a ≤ b := by
  induction h with
  | nil => exact le_rfl
  | cons _ hduration _ ih => linarith

theorem time_mem (h : Tiles xs a b) (hslot : slot ∈ xs) : a ≤ slot.time ∧ slot.time < b := by
  induction h with
  | nil => cases hslot
  | cons htime hduration h ih =>
    rcases List.mem_cons.mp hslot with rfl | hslot
    · have hle := h.le
      constructor <;> linarith
    · obtain ⟨hstart, hstop⟩ := ih hslot
      exact ⟨by linarith, hstop⟩

theorem pairwise_time (h : Tiles xs a b) : xs.Pairwise fun x y => x.time < y.time := by
  induction h with
  | nil => exact .nil
  | cons htime hduration h ih =>
    refine List.pairwise_cons.mpr ⟨fun slot hslot => ?_, ih⟩
    have hstart := (h.time_mem hslot).1
    linarith

end Tiles

theorem repeatSlots_tiles (start : ℚ) {share : ℚ} (hshare : 0 < share) (sound : Option Sound)
    (hn : 0 < n) :
    Tiles (repeatSlots start share sound n) start (start + share) := by
  have hn' : (0 : ℚ) < n := Nat.cast_pos.mpr hn
  have heach : 0 < share / n := div_pos hshare hn'
  -- exact division is undone by the product, so the last repeat ends where the share does
  have hend : start + share / n * n = start + share := by rw [div_mul_cancel₀ _ hn'.ne']
  rw [← hend, repeatSlots, List.map_eq_flatMap]
  refine Tiles.flatMap_range (fun r => ?_) n
  exact .cons rfl heach .nil

mutual

theorem Step.slots_tiles : ∀ (step : Step) (start : ℚ) {share : ℚ}, 0 < share → step.WellFormed →
    Tiles (step.slots start share) start (start + share)
  | .rest n, start, share, hshare, hn => repeatSlots_tiles start hshare none hn
  | .sound sound n, start, share, hshare, hn => repeatSlots_tiles start hshare (some sound) hn
  | .group inner n, start, share, hshare, ⟨hne, hinner, hn⟩ => by
    have hn' : (0 : ℚ) < n := Nat.cast_pos.mpr hn
    have hlength : (0 : ℚ) < inner.length := Nat.cast_pos.mpr (List.length_pos_iff.mpr hne)
    have heach : 0 < share / n := div_pos hshare hn'
    have hend : start + share / n * n = start + share := by rw [div_mul_cancel₀ _ hn'.ne']
    rw [← hend, Step.slots]
    refine Tiles.flatMap_range (fun r => ?_) n
    -- one repeat is shared evenly by the steps of the group
    have htiles := slotsFrom_tiles inner (start + share / n * r) (div_pos heach hlength) 0 hinner
    simpa [div_mul_cancel₀ _ hlength.ne'] using htiles

theorem slotsFrom_tiles :
    ∀ (steps : List Step) (start : ℚ) {share : ℚ}, 0 < share → ∀ i : Nat, WellFormed steps →
    Tiles (slotsFrom start share i steps) (start + share * i) (start + share * (i + steps.length))
  | [], start, share, _, i, _ => by simpa [slotsFrom] using Tiles.nil
  | step :: steps, start, share, hshare, i, ⟨hstep, hsteps⟩ => by
    have hfirst := step.slots_tiles (start + share * i) hshare hstep
    have hmore := slotsFrom_tiles steps start hshare (i + 1) hsteps
    have hnext : start + share * (i + 1 : Nat) = start + share * i + share := by
      push_cast
      ring
    have hend : start + share * ((i + 1 : Nat) + steps.length) =
        start + share * (i + (step :: steps).length) := by
      push_cast [List.length_cons]
      ring
    rw [hnext, hend] at hmore
    exact hfirst.append hmore

end

theorem slots_tiles (start : ℚ) {length : ℚ} (hlength : 0 < length) {sequence : List Step}
    (hne : sequence ≠ []) (h : WellFormed sequence) :
    Tiles (slots start length sequence) start (start + length) := by
  have hcount : (0 : ℚ) < sequence.length := Nat.cast_pos.mpr (List.length_pos_iff.mpr hne)
  have htiles := slotsFrom_tiles sequence start (div_pos hlength hcount) 0 h
  simpa [slots, div_mul_cancel₀ _ hcount.ne'] using htiles

/-! ## The cycle -/

def sounding (xs : List (Slot α)) : List (Slot α) := xs.filter (·.sound.isSome)

theorem slots_events (xs : List (Slot α)) :
    (xs.filterMap Slot.event?).map Event.slot = sounding xs := by
  induction xs with
  | nil => rfl
  | cons slot xs ih =>
    obtain ⟨time, duration, sound⟩ := slot
    cases sound with
    | none => exact ih
    | some sound => exact congrArg (List.cons _) ih

/-- How a sequence fills its cycle in exact numbers. Only `played` is about the numbers that are
played: there, too, the events are the slots that are no rests. -/
structure FillsCycle (sequence : List Step) : Prop where
  tiles : Tiles (slots (0 : ℚ) 1 sequence) 0 1
  sounds : (slots (0 : ℚ) 1 sequence).map Slot.sound = leaves sequence
  played : (ofSteps sequence : Pattern).events.map Event.slot = sounding (slots 0 1 sequence)
  events : (ofSteps sequence : Pattern ℚ).events.map Event.slot = sounding (slots 0 1 sequence)
  increasing : (ofSteps sequence : Pattern ℚ).events.Pairwise fun x y => x.time < y.time
  within : ∀ event ∈ (ofSteps sequence : Pattern ℚ).events, 0 ≤ event.time ∧ event.time < 1

theorem cycle_tiles {sequence : List Step} (hne : sequence ≠ []) (h : WellFormed sequence) :
    Tiles (slots (0 : ℚ) 1 sequence) 0 1 := by
  simpa using slots_tiles 0 one_pos hne h

theorem ofSteps_fillsCycle (sequence : List Step) (hne : sequence ≠ []) (h : WellFormed sequence) :
    FillsCycle sequence := by
  have htiles := cycle_tiles hne h
  have hevents : (ofSteps sequence : Pattern ℚ).events.map Event.slot =
      sounding (slots 0 1 sequence) :=
    slots_events _
  refine ⟨htiles, slots_sound 0 1 sequence, slots_events _, hevents, ?_, fun event hevent => ?_⟩
  · -- The slots are in the order of their times, and so are those among them that the events take.
    have hincreasing := htiles.pairwise_time.filter (·.sound.isSome)
    change (sounding _).Pairwise _ at hincreasing
    rwa [← hevents, List.pairwise_map] at hincreasing
  · have hslot := List.mem_map_of_mem (f := Event.slot) hevent
    rw [hevents] at hslot
    exact htiles.time_mem (List.mem_filter.mp hslot).1

def swung : String := "bd [hh*2 ~]*3 [sd [~ bd*2]]"

def swungSteps : List Step :=
  [.sound (.sample "bd") 1, .group [.sound (.sample "hh") 2, .rest 1] 3,
    .group [.sound (.sample "sd") 1, .group [.rest 1, .sound (.sample "bd") 2] 1] 1]

theorem swung_fillsCycle : parse swung .origin = .ok (ofSteps swungSteps) ∧ FillsCycle swungSteps ∧
    (ofSteps swungSteps : Pattern ℚ).events.map Event.time =
      [0, 1/3, 13/36, 4/9, 17/36, 5/9, 7/12, 2/3, 11/12, 23/24] := by
  have hparse : parse swung .origin = .ok (ofSteps swungSteps) := by
    have hchars : swung.toList = _ := String.toList_ofList
    unfold parse
    rw [hchars]
    with_unfolding_all rfl
  have hsteps : WellFormed swungSteps := by simp [swungSteps, WellFormed, Step.WellFormed]
  exact ⟨hparse, ofSteps_fillsCycle _ (List.cons_ne_nil _ _) hsteps, by decide +kernel⟩

theorem parse_wellFormed (h : parse text literal = .ok pattern) :
    ∃ sequence, sequence ≠ [] ∧ WellFormed sequence ∧ pattern = ofSteps sequence := by
  obtain ⟨sequence, htakes⟩ := parse_ok_takes h
  obtain ⟨hne, -, hpattern⟩ := parse_ok (map_value_iff.mpr htakes) h
  exact ⟨sequence, hne, htakes.wellFormed, hpattern⟩

/-- A pattern that is read has the events of a sequence that fills its cycle. -/
theorem parse_tiles (h : parse text literal = .ok pattern) :
    ∃ sequence, pattern = ofSteps sequence ∧ Tiles (slots (0 : ℚ) 1 sequence) 0 1 ∧
      (ofSteps sequence : Pattern ℚ).events.map Event.slot = sounding (slots 0 1 sequence) := by
  obtain ⟨sequence, hne, hsequence, hpattern⟩ := parse_wellFormed h
  exact ⟨sequence, hpattern, cycle_tiles hne hsequence, slots_events _⟩

end Pattern

end SignalPatch
