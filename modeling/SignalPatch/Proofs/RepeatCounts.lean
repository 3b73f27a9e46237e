import SignalPatch.Proofs.PatternLeaves
import SignalPatch.Proofs.PatternReading

/-!
# Where a repeat count ends

The count of a repeat is the run of digits behind the star, and it has to be positive. It ends where
the digits end, not where a word would end: a text is read as if a blank stood behind each of its
counts.
-/

namespace SignalPatch.Pattern

/-! ## Exchanging what follows a count -/

/-- `Swapped p q cs ds`: the texts are equal, or one ends in `p` where the other ends in `q`. -/
inductive Swapped (p q : List Char) : List Char → List Char → Prop
  | same : Swapped p q cs cs
  | tail : Swapped p q (front ++ p) (front ++ q)

theorem EndsRun.swap {p : Char → Bool} (h : EndsRun p (front ++ c :: after)) :
    EndsRun p (front ++ c :: after') := by
  cases front with
  | nil => exact fun d hd => h d hd
  | cons d front => exact fun e he => h e he

theorem eq_append_of_append_eq (hfront : c ∉ front) (h : front ++ cs = before ++ c :: after) :
    ∃ between, before = front ++ between ∧ cs = between ++ c :: after := by
  rcases List.append_eq_append_iff.mp h with ⟨between, hbefore, hcs⟩ | ⟨between, hcut, hafter⟩
  · exact ⟨between, hbefore, hcs⟩
  · cases between with
    | nil => exact ⟨[], by simpa using hcut.symm, by simpa using hafter.symm⟩
    | cons d between =>
      obtain ⟨rfl, -⟩ := List.cons.inj hafter
      exact absurd (by simp [hcut]) hfront

namespace Swapped

theorem append (hfront : c ∉ front) (h : Swapped (c :: after) (c :: after') (front ++ cs) ds) :
    ∃ ds', ds = front ++ ds' ∧ Swapped (c :: after) (c :: after') cs ds' := by
  generalize htext : front ++ cs = text at h
  cases h with
  | same =>
    subst htext
    exact ⟨cs, rfl, .same⟩
  | tail =>
    obtain ⟨between, rfl, rfl⟩ := eq_append_of_append_eq hfront htext
    exact ⟨_, List.append_assoc _ _ _, .tail⟩

theorem cons (hd : d ≠ c) (h : Swapped (c :: after) (c :: after') (d :: cs) ds) :
    ∃ ds', ds = d :: ds' ∧ Swapped (c :: after) (c :: after') cs ds' := by
  have hfront : Swapped (c :: after) (c :: after') ([d] ++ cs) ds := h
  exact hfront.append (by simpa using hd.symm)

theorem endsRun {p : Char → Bool} (h : Swapped (c :: after) (c :: after') cs ds)
    (hcs : EndsRun p cs) :
    EndsRun p ds := by
  cases h with
  | same => exact hcs
  | tail => exact hcs.swap

theorem eq_nil (h : Swapped (c :: after) (c :: after') [] ds) : ds = [] := by
  generalize hcs : [] = cs at h
  cases h with
  | same => rfl
  | tail => simp at hcs

end Swapped

section Exchange

variable {digits after after' : List Char} (hdigits : ∀ d ∈ digits, d.isDigit)
  (hafter : EndsRun Char.isDigit after) (hafter' : EndsRun Char.isDigit after')
  (hread : ∀ {nested more rest}, Takes nested after more rest → Takes nested after' more rest)

include hdigits hafter hafter' hread

/-- A count ends in both texts at the same place, and what is read behind it stays. -/
theorem Repeats.swap {more : List Step} (h : Repeats cs n r)
    (hcs : Swapped ('*' :: (digits ++ after)) ('*' :: (digits ++ after')) cs ds) :
    ∃ r', Repeats ds n r' ∧
      (Swapped ('*' :: (digits ++ after)) ('*' :: (digits ++ after')) r r' ∨
        ∀ {nested rest}, Takes nested r more rest → Takes nested r' more rest) := by
  cases hcs with
  | same => exact ⟨r, h, .inl .same⟩
  | @tail front =>
    generalize hcs : front ++ '*' :: (digits ++ after) = cs at h
    cases h with
    | once hend =>
      subst hcs
      exact ⟨_, .once hend.swap, .inl .tail⟩
    | @counted digits₁ _ hdigits₁ hr hpos hle =>
      cases front with
      | nil =>
        -- the count is the one before the place of the exchange
        have hcs : digits ++ after = digits₁ ++ r := (List.cons.inj hcs).2
        obtain rfl : digits = digits₁ := by
          rw [← takeWhile_run hdigits hafter, hcs, takeWhile_run hdigits₁ hr]
        obtain rfl : after = r := List.append_cancel_left hcs
        exact ⟨after', .counted hdigits hafter' hpos hle, .inr hread⟩
      | cons c front =>
        obtain ⟨rfl, htail⟩ := List.cons.inj hcs
        have hstar : '*' ∉ digits₁ := fun hmem => nomatch hdigits₁ _ hmem
        obtain ⟨between, rfl, rfl⟩ := eq_append_of_append_eq hstar htail.symm
        refine ⟨between ++ '*' :: (digits ++ after'), ?_, .inl .tail⟩
        have hcount := Repeats.counted hdigits₁
          (@EndsRun.swap _ _ _ (digits ++ after') _ hr) hpos hle
        simpa using hcount

theorem Takes.swap {sequence : List Step} (h : Takes nested cs sequence rest) :
    ∀ {ds}, Swapped ('*' :: (digits ++ after)) ('*' :: (digits ++ after')) cs ds →
      ∃ rest', Takes nested ds sequence rest' ∧
        Swapped ('*' :: (digits ++ after)) ('*' :: (digits ++ after')) rest rest' := by
  induction h with
  | stop =>
    intro ds hds
    rw [hds.eq_nil]
    exact ⟨[], .stop, .same⟩
  | close =>
    intro ds hds
    obtain ⟨rest', rfl, hrest'⟩ := hds.cons (by decide)
    exact ⟨rest', .close, hrest'⟩
  | blank hc _ ih =>
    intro ds hds
    obtain ⟨ds', rfl, hds'⟩ := hds.cons (by rintro rfl; cases hc)
    obtain ⟨rest', htakes, hrest'⟩ := ih hds'
    exact ⟨rest', .blank hc htakes, hrest'⟩
  | group _ hne hn hmore ihinner ihmore =>
    intro ds hds
    obtain ⟨ds', rfl, hds'⟩ := hds.cons (by decide)
    obtain ⟨r₁', hinner, hr₁'⟩ := ihinner hds'
    -- The star comes later, or it is the one behind this step and the rest is read as `hread` says.
    obtain ⟨r₂', hn', hr₂' | hbehind⟩ := hn.swap hdigits hafter hafter' hread hr₁'
    · obtain ⟨rest', hmore', hrest'⟩ := ihmore hr₂'
      exact ⟨rest', .group hinner hne hn' hmore', hrest'⟩
    · exact ⟨_, .group hinner hne hn' (hbehind hmore), .same⟩
  | word hne hword hend hatom hn hmore ihmore =>
    intro ds hds
    obtain ⟨r₁', rfl, hr₁'⟩ := hds.append fun hmem => absurd (hword _ hmem) (by decide)
    obtain ⟨r₂', hn', hr₂' | hbehind⟩ := hn.swap hdigits hafter hafter' hread hr₁'
    · obtain ⟨rest', hmore', hrest'⟩ := ihmore hr₂'
      exact ⟨rest', .word hne hword (hr₁'.endsRun hend) hatom hn' hmore', hrest'⟩
    · exact ⟨_, .word hne hword (hr₁'.endsRun hend) hatom hn' (hbehind hmore), .same⟩

theorem Takes.exchange {sequence : List Step}
    (h : Takes false (before ++ '*' :: (digits ++ after)) sequence []) :
    Takes false (before ++ '*' :: (digits ++ after')) sequence [] := by
  obtain ⟨rest', htakes, hrest'⟩ := h.swap hdigits hafter hafter' hread .tail
  rwa [hrest'.eq_nil] at htakes

end Exchange

/-! ## Texts -/

theorem parse_ok_of_takes {sequence : List Step} (h : Takes false text.toList sequence [])
    (h' : Takes false text'.toList sequence []) (hparse : parse text literal = .ok pattern) :
    parse text' literal = .ok pattern := by
  unfold parse at hparse ⊢
  dsimp only at hparse ⊢
  rw [ofChars_of_steps (map_value_iff.mpr h)] at hparse
  rw [ofChars_of_steps (map_value_iff.mpr h')]
  split at hparse
  · cases hparse
  split at hparse
  · cases hparse
  split at hparse
  · cases hparse
  · rename_i hempty hlong hmixed
    rwa [if_neg hempty, if_neg hlong, if_neg hmixed]

def starred (before digits after : List Char) : String :=
  String.ofList (before ++ '*' :: (digits ++ after))

/-- Wherever a star stands, the digits behind it have to be a positive count that is not too large,
or the text is refused; and whatever follows the digits is read as if a blank came first. -/
theorem parse_counts_digits (before digits after : List Char) (literal : Span)
    (hdigits : ∀ d ∈ digits, d.isDigit) (hafter : EndsRun Char.isDigit after) :
    (¬(0 < Decimal.wholeNumber digits ∧ Decimal.wholeNumber digits ≤ countLimit) →
      ∃ finding, parse (starred before digits after) literal = .error finding) ∧
    ∀ pattern, parse (starred before digits after) literal = .ok pattern ↔
      parse (starred before digits (' ' :: after)) literal = .ok pattern := by
  have hblank : EndsRun Char.isDigit (' ' :: after) := fun c hc => by
    cases hc
    rfl
  have hchars : ∀ after, (starred before digits after).toList = before ++ '*' ::
      (digits ++ after) :=
    fun _ => String.toList_ofList
  refine ⟨fun hcount => ?_, fun pattern => ⟨fun h => ?_, fun h => ?_⟩⟩
  · cases hparse : parse (starred before digits after) literal with
    | error finding => exact ⟨finding, rfl⟩
    | ok pattern =>
      obtain ⟨sequence, htakes⟩ := parse_ok_takes hparse
      have hstar := (htakes.continues_of_eq rfl (hchars after)).of_star.1
      rw [takeWhile_run hdigits hafter] at hstar
      exact absurd hstar hcount
  · obtain ⟨sequence, htakes⟩ := parse_ok_takes h
    refine parse_ok_of_takes htakes ?_ h
    rw [hchars] at htakes ⊢
    exact htakes.exchange hdigits hafter hblank (.blank rfl)
  · obtain ⟨sequence, htakes⟩ := parse_ok_takes h
    refine parse_ok_of_takes htakes ?_ h
    rw [hchars] at htakes ⊢
    exact htakes.exchange hdigits hblank hafter (·.of_blank rfl)

def fractionalSteps : List Step :=
  [.sound (.number (Decimal.Numeral.toFloat ⟨60, 0⟩)) 2,
    .sound (.number (Decimal.Numeral.toFloat ⟨5, -1⟩)) 1]

theorem parse_fractionalSteps : parse "60*2.5" .origin = .ok (ofSteps fractionalSteps) := by
  have hread : (steps false "60*2.5".toList).map (·.value) = .ok fractionalSteps := by
    have hchars : "60*2.5".toList = _ := String.toList_ofList
    rw [hchars]
    with_unfolding_all rfl
  unfold parse
  dsimp only
  rw [ofChars_of_steps hread]
  rfl

/-- What stands behind a star up to the end of the word need not be a whole number. -/
theorem fractionalCount_accepted : starred ['6', '0'] ['2'] ['.', '5'] = "60*2.5" ∧
    (∀ c ∈ ['2', '.', '5'], isWordChar c) ∧ Char.isDigit '.' = false ∧
      parse "60*2.5" .origin = .ok (ofSteps fractionalSteps) :=
  ⟨rfl, List.all_eq_true.mp rfl, rfl, parse_fractionalSteps⟩

theorem fractionalCount_spaced :
    parse (starred ['6', '0'] ['2'] ['.', '5']) .origin = .ok (ofSteps fractionalSteps) ∧
    parse (starred ['6', '0'] ['2'] [' ', '.', '5']) .origin = .ok (ofSteps fractionalSteps) ∧
    ∃ finding, parse (starred ['6', '0'] ['0'] ['.', '5']) .origin = .error finding := by
  have hafter : EndsRun Char.isDigit ['.', '5'] := fun c hc => by
    cases hc
    rfl
  have hdigit : ∀ {d : Char}, d.isDigit → ∀ c ∈ [d], c.isDigit := fun hd => by simpa using hd
  have hread : parse (starred ['6', '0'] ['2'] ['.', '5']) .origin =
      .ok (ofSteps fractionalSteps) :=
    parse_fractionalSteps
  refine ⟨hread, ?_, ?_⟩
  · exact ((parse_counts_digits ['6', '0'] ['2'] ['.', '5'] .origin (hdigit rfl) hafter).2 _).mp
      hread
  · exact (parse_counts_digits ['6', '0'] ['0'] ['.', '5'] .origin (hdigit rfl) hafter).1
      (by decide)

end SignalPatch.Pattern
