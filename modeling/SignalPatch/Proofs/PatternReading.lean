import SignalPatch.Pattern

/-!
# What the reader of patterns takes

`Takes` says which steps the reader takes off a text, and what it leaves, one blank, word or bracket
after the other. By `steps_iff` the reader takes what `Takes` says and nothing else, so that what
holds of all texts that are read is shown by induction on `Takes`.
-/

namespace SignalPatch.Pattern

/-! ## Runs of characters -/

def EndsRun (p : Char → Bool) (rest : List Char) : Prop := ∀ c ∈ rest.head?, p c = false

theorem takeWhile_run {p : Char → Bool} {run rest : List Char} (hrun : ∀ c ∈ run, p c)
    (hrest : EndsRun p rest) :
    (run ++ rest).takeWhile p = run := by
  have hnone : rest.takeWhile p = [] := by
    cases rest with
    | nil => rfl
    | cons c cs => simp [hrest c rfl]
  rw [List.takeWhile_append_of_pos hrun, hnone, List.append_nil]

theorem dropWhile_endsRun (p : Char → Bool) (cs : List Char) : EndsRun p (cs.dropWhile p) := by
  intro c hc
  simpa [Option.mem_def.mp hc] using List.head?_dropWhile_not p cs

theorem drop_takeWhile (p : Char → Bool) (cs : List Char) :
    cs.drop (cs.takeWhile p).length = cs.dropWhile p := by
  have hsplit := List.takeWhile_append_dropWhile (p := p) (l := cs)
  calc cs.drop (cs.takeWhile p).length
    _ = (cs.takeWhile p ++ cs.dropWhile p).drop (cs.takeWhile p).length := by rw [hsplit]
    _ = cs.dropWhile p := List.drop_left

theorem takeWhile_append_drop (p : Char → Bool) (cs : List Char) :
    cs.takeWhile p ++ cs.drop (cs.takeWhile p).length = cs := by
  rw [drop_takeWhile, List.takeWhile_append_dropWhile]

/-! ## The relation -/

/-- `Repeats cs n rest`: behind a step, `cs` says that it is repeated `n` times, and `rest` is
left. -/
inductive Repeats : List Char → Nat → List Char → Prop
  | once : EndsRun (· == '*') cs → Repeats cs 1 cs
  | counted : (∀ c ∈ digits, c.isDigit) → EndsRun Char.isDigit rest →
      0 < Decimal.wholeNumber digits →
      Decimal.wholeNumber digits ≤ countLimit →
        Repeats ('*' :: digits ++ rest) (Decimal.wholeNumber digits) rest

/-- `Takes nested cs sequence rest`: the steps `sequence` are taken off `cs`, up to its end, or up
to the bracket that closes a group if they are `nested`. -/
inductive Takes : Bool → List Char → List Step → List Char → Prop
  | stop : Takes false [] [] []
  | close : Takes true (']' :: rest) [] rest
  | blank {sequence : List Step} : Text.isBlank c → Takes nested cs sequence rest →
      Takes nested (c :: cs) sequence rest
  | group {inner : List Step} : Takes true cs inner r₁ → inner ≠ [] → Repeats r₁ n r₂ →
      Takes nested r₂ more rest → Takes nested ('[' :: cs) (.group inner n :: more) rest
  | word : w ≠ [] → (∀ c ∈ w, isWordChar c) → EndsRun isWordChar r₁ →
      atom w = .ok a → Repeats r₁ n r₂ →
      Takes nested r₂ more rest → Takes nested (w ++ r₁) (a.repeated n :: more) rest

/-- `FollowedBy c cs`: inside a text that is read, `cs` follows the character `c`, which belongs to
no word. -/
inductive FollowedBy : Char → List Char → Prop
  | close : FollowedBy ']' cs
  | blank {sequence : List Step} : Text.isBlank c → Takes nested cs sequence rest → FollowedBy c cs
  | group {inner : List Step} : Takes true cs inner rest → inner ≠ [] → FollowedBy '[' cs
  | counted : (∀ d ∈ digits, d.isDigit) → EndsRun Char.isDigit cs → 0 < Decimal.wholeNumber digits →
      Decimal.wholeNumber digits ≤ countLimit → Takes nested cs more rest →
        FollowedBy '*' (digits ++ cs)

variable {nested : Bool} {cs lead rest : List Char} {sequence : List Step}

theorem Takes.blanks (hlead : ∀ c ∈ lead, Text.isBlank c) (h : Takes nested cs sequence rest) :
    Takes nested (lead ++ cs) sequence rest := by
  induction lead with
  | nil => exact h
  | cons c lead ih =>
    obtain ⟨hc, hlead⟩ := List.forall_mem_cons.mp hlead
    exact .blank hc (ih hlead)

/-! ## The reader -/

theorem bind_ok {x : Except Misread α} {f : α → Except Misread β} (h : x >>= f = .ok b) :
    ∃ a, x = .ok a ∧ f a = .ok b := by
  cases x with
  | error m => cases h
  | ok a => exact ⟨a, rfl, h⟩

def Yields (read : Except Misread (Reading α cs)) (value : α) (rest : List Char) : Prop :=
  ∃ hle, read = .ok ⟨value, rest, hle⟩

theorem repeats_iff : Yields (repeats cs) n rest ↔ Repeats cs n rest := by
  constructor
  · rintro ⟨hle, h⟩
    unfold repeats at h
    split at h
    · rename_i after
      dsimp only at h
      split at h
      · rename_i hn
        have hcount := Repeats.counted (List.all_eq_true.mp List.all_takeWhile)
          (drop_takeWhile Char.isDigit after ▸ dropWhile_endsRun _ after) hn.1 hn.2
        rw [List.cons_append, takeWhile_append_drop] at hcount
        cases h
        exact hcount
      · cases h
    · rename_i hstar
      cases h
      refine .once fun c hc => beq_eq_false_iff_ne.mpr fun hstar' => ?_
      obtain ⟨ds, rfl⟩ := List.head?_eq_some_iff.mp hc
      exact hstar ds (by rw [hstar'])
  · intro h
    cases h with
    | once hstar =>
      refine ⟨Nat.le_refl _, ?_⟩
      unfold repeats
      split
      · exact absurd (hstar '*' rfl) (by decide)
      · rfl
    | @counted digits _ hdigits hrest hpos hle =>
      refine ⟨by simp; omega, ?_⟩
      simp only [repeats, List.cons_append, takeWhile_run hdigits hrest, hpos, hle,
        and_self, ↓reduceIte, List.drop_left]

theorem isWordChar_of_ne (hblank : Text.isBlank c = false) (hopen : c ≠ '[') (hclose : c ≠ ']')
    (hstar : c ≠ '*') :
    isWordChar c := by
  simp [isWordChar, hblank, hopen, hclose, hstar]

theorem isWordChar_of_isAlphanum (h : c.isAlphanum) : isWordChar c := by
  refine isWordChar_of_ne (Text.isBlank_eq_false_of_isAlphanum h) ?_ ?_ ?_
  all_goals
    rintro rfl
    cases h

theorem isWordChar_of_isDigit (h : c.isDigit) : isWordChar c :=
  isWordChar_of_isAlphanum (by simp [Char.isAlphanum, h])

theorem isBlank_of_isWordChar (h : isWordChar c) : Text.isBlank c = false := by
  simp only [isWordChar, Bool.not_eq_true', Bool.or_eq_false_iff] at h
  exact h.1.1.1

theorem takes_of_steps {nested : Bool} {cs : List Char} {r : Reading (List Step) cs}
    (h : steps nested cs = .ok r) :
    Takes nested cs r.value r.rest := by
  have hdrop := dropBlanks_length_le cs
  have hblanks : ∀ c ∈ cs.takeWhile Text.isBlank, Text.isBlank c :=
    List.all_eq_true.mp List.all_takeWhile
  have hend := dropWhile_endsRun Text.isBlank cs
  -- Blanks in front are passed over first; the cases that follow are those of the reader.
  suffices htakes : Takes nested (cs.dropWhile Text.isBlank) r.value r.rest by
    have hall := htakes.blanks hblanks
    rwa [List.takeWhile_append_dropWhile] at hall
  rw [steps] at h
  split at h
  · rename_i hc
    rw [hc]
    split at h
    · cases h
    · rename_i hnested
      cases h
      rw [eq_false_of_ne_true hnested]
      exact .stop
  · rename_i after hc
    have hlt : after.length < cs.length := by
      rw [hc] at hdrop
      exact hdrop
    rw [hc]
    obtain ⟨inner, hinner, h⟩ := bind_ok h
    dsimp only at h
    split at h
    · cases h
    rename_i hne
    obtain ⟨n, hn, h⟩ := bind_ok h
    obtain ⟨more, hmore, h⟩ := bind_ok h
    have hle := Nat.le_trans n.le inner.le
    cases h
    exact .group (takes_of_steps hinner) (by simpa using hne) (repeats_iff.mp ⟨n.le, hn⟩)
      (takes_of_steps hmore)
  · rename_i after hc
    rw [hc]
    split at h
    · rename_i hnested
      cases h
      rw [hnested]
      exact .close
    · cases h
  · cases h
  · rename_i c after hopen hclose hstar hc
    have hlt : after.length < cs.length := by
      rw [hc] at hdrop
      exact hdrop
    have hword : isWordChar c :=
      isWordChar_of_ne (hend c (by rw [hc]; rfl)) hopen hclose hstar
    rw [hc]
    dsimp only at h
    obtain ⟨a, ha, h⟩ := bind_ok h
    obtain ⟨n, hn, h⟩ := bind_ok h
    obtain ⟨more, hmore, h⟩ := bind_ok h
    have hle := Nat.le_trans n.le (List.drop_sublist _ _).length_le
    have hatom : atom (c :: after.takeWhile isWordChar) = .ok a := by
      cases hres : atom (c :: after.takeWhile isWordChar) with
      | error fault =>
        rw [hres] at ha
        cases ha
      | ok a' =>
        rw [hres] at ha
        cases ha
        rfl
    cases h
    have hall : ∀ d ∈ c :: after.takeWhile isWordChar, isWordChar d :=
      List.forall_mem_cons.mpr ⟨hword, List.all_eq_true.mp List.all_takeWhile⟩
    have htakes := Takes.word (List.cons_ne_nil _ _) hall
      (drop_takeWhile isWordChar after ▸ dropWhile_endsRun _ after)
      hatom (repeats_iff.mp ⟨n.le, hn⟩) (takes_of_steps hmore)
    rw [List.cons_append, takeWhile_append_drop] at htakes
    exact htakes
termination_by cs.length
decreasing_by all_goals omega

/-! The other way: what each case of the reader takes, behind any blanks. -/

theorem steps_stop (hc : cs.dropWhile Text.isBlank = []) : Yields (steps false cs) [] [] := by
  refine ⟨Nat.zero_le _, ?_⟩
  rw [steps]
  split
  · rfl
  all_goals
    rename_i heq
    cases hc.symm.trans heq

theorem steps_close (hc : cs.dropWhile Text.isBlank = ']' :: rest) :
    Yields (steps true cs) [] rest := by
  have hle := dropBlanks_length_le cs
  rw [hc] at hle
  refine ⟨Nat.le_of_succ_le hle, ?_⟩
  rw [steps]
  split
  case h_3 =>
    rename_i heq
    cases hc.symm.trans heq
    rfl
  case h_5 =>
    rename_i hclose _ heq
    cases hc.symm.trans heq
    exact absurd rfl hclose
  all_goals
    rename_i heq
    cases hc.symm.trans heq

theorem steps_group {inner more : List Step} (hc : cs.dropWhile Text.isBlank = '[' :: after)
    (hinner : Yields (steps true after) inner r₁) (hne : inner ≠ []) (hn : Yields (repeats r₁) n r₂)
    (hmore : Yields (steps nested r₂) more rest) :
    Yields (steps nested cs) (.group inner n :: more) rest := by
  have hle := dropBlanks_length_le cs
  rw [hc] at hle
  obtain ⟨hle₁, hinner⟩ := hinner
  obtain ⟨hle₂, hn⟩ := hn
  obtain ⟨hle₃, hmore⟩ := hmore
  refine ⟨Nat.le_trans hle₃ (Nat.le_trans hle₂ (Nat.le_trans hle₁ (Nat.le_of_succ_le hle))), ?_⟩
  rw [steps]
  split
  case h_2 =>
    rename_i heq
    cases hc.symm.trans heq
    simp only [hinner, hn, hmore, hne, List.isEmpty_iff, bind, Except.bind, pure, Except.pure]
    rfl
  case h_5 =>
    rename_i hopen _ _ heq
    cases hc.symm.trans heq
    exact absurd rfl hopen
  all_goals
    rename_i heq
    cases hc.symm.trans heq

theorem steps_word {more : List Step} (hc : cs.dropWhile Text.isBlank = c :: after)
    (hword : isWordChar c) (hatom : atom (c :: after.takeWhile isWordChar) = .ok a)
    (hn : Yields (repeats (after.drop (after.takeWhile isWordChar).length)) n r₂)
    (hmore : Yields (steps nested r₂) more rest) :
    Yields (steps nested cs) (a.repeated n :: more) rest := by
  have hle := dropBlanks_length_le cs
  rw [hc] at hle
  obtain ⟨hle₂, hn⟩ := hn
  obtain ⟨hle₃, hmore⟩ := hmore
  have hle₁ := (List.drop_sublist (after.takeWhile isWordChar).length after).length_le
  refine ⟨Nat.le_trans hle₃ (Nat.le_trans hle₂ (Nat.le_trans hle₁ (Nat.le_of_succ_le hle))), ?_⟩
  rw [steps]
  split
  case h_1 =>
    rename_i heq
    cases hc.symm.trans heq
  case h_5 =>
    rename_i heq
    cases hc.symm.trans heq
    simp only [hatom, hn, hmore, bind, Except.bind, pure, Except.pure]
    rfl
  -- the other cases start with a bracket or a star
  all_goals
    rename_i heq
    cases hc.symm.trans heq
    cases hword

theorem Takes.steps_yield (h : Takes nested cs sequence rest) :
    ∀ {text : List Char}, text.dropWhile Text.isBlank = cs.dropWhile Text.isBlank →
      Yields (steps nested text) sequence rest := by
  induction h with
  | stop => exact steps_stop
  | close => exact steps_close
  | blank hc _ ih =>
    intro text htext
    rw [List.dropWhile_cons_of_pos hc] at htext
    exact ih htext
  | group _ hne hn _ ihinner ihmore =>
    intro text htext
    exact steps_group htext (ihinner rfl) hne (repeats_iff.mpr hn) (ihmore rfl)
  | @word w r₁ _ _ _ _ _ _ hne hword hrest hatom hn _ ihmore =>
    intro text htext
    obtain ⟨c, ws, rfl⟩ := List.exists_cons_of_ne_nil hne
    obtain ⟨hc, hws⟩ := List.forall_mem_cons.mp hword
    have htake := takeWhile_run hws hrest
    rw [List.cons_append, List.dropWhile_cons_of_neg (by simpa using isBlank_of_isWordChar hc)]
      at htext
    refine steps_word htext hc (by rwa [htake]) ?_ (ihmore rfl)
    rw [htake, List.drop_left]
    exact repeats_iff.mpr hn

theorem steps_iff : Yields (steps nested cs) sequence rest ↔ Takes nested cs sequence rest :=
  ⟨fun ⟨_, h⟩ => takes_of_steps h, fun h => h.steps_yield rfl⟩

/-! ## Inside a text -/

theorem Takes.ne_star (h : Takes nested ('*' :: after) sequence rest) : False := by
  generalize hcs : '*' :: after = cs at h
  cases h with
  | stop | close | group => cases hcs
  | blank hc =>
    cases hcs
    cases hc
  | word hne hword =>
    obtain ⟨c, w, rfl⟩ := List.exists_cons_of_ne_nil hne
    cases hcs
    cases hword '*' List.mem_cons_self

theorem Takes.of_blank (hc : Text.isBlank c) (h : Takes nested (c :: cs) sequence rest) :
    Takes nested cs sequence rest := by
  generalize htext : c :: cs = text at h
  cases h with
  | stop => cases htext
  | close | group =>
    cases htext
    cases hc
  | blank _ h =>
    cases htext
    exact h
  | word hne hword =>
    obtain ⟨d, w, rfl⟩ := List.exists_cons_of_ne_nil hne
    obtain ⟨rfl, -⟩ := List.cons.inj htext
    have hblank := isBlank_of_isWordChar (hword c List.mem_cons_self)
    rw [hc] at hblank
    cases hblank

theorem Takes.rest_eq_nil (h : Takes false cs sequence rest) : rest = [] := by
  generalize hnested : false = nested at h
  induction h with
  | stop => rfl
  | close => cases hnested
  | blank _ _ ih => exact ih hnested
  | group _ _ _ _ _ ihmore => exact ihmore hnested
  | word _ _ _ _ _ _ ihmore => exact ihmore hnested

theorem map_value_iff :
    (steps false cs).map (·.value) = .ok sequence ↔ Takes false cs sequence [] := by
  constructor
  · intro h
    cases hread : steps false cs with
    | error m =>
      rw [hread] at h
      cases h
    | ok r =>
      rw [hread] at h
      cases h
      have htakes := takes_of_steps hread
      rwa [htakes.rest_eq_nil] at htakes
  · intro h
    obtain ⟨_, hread⟩ := steps_iff.mpr h
    rw [hread]
    rfl

theorem parse_ok_takes (h : parse text literal = .ok pattern) :
    ∃ sequence, Takes false text.toList sequence [] := by
  cases hread : steps false text.toList with
  | error m =>
    unfold parse ofChars at h
    dsimp only at h
    rw [hread] at h
    cases h
  | ok r => exact ⟨r.value, map_value_iff.mp (by rw [hread]; rfl)⟩

theorem suffix_of_suffix_append (hfront : c ∉ front) (h : c :: after <:+ front ++ cs) :
    c :: after <:+ cs := by
  induction front with
  | nil => exact h
  | cons d front ih =>
    rcases List.suffix_cons_iff.mp h with heq | h
    · cases heq
      exact absurd List.mem_cons_self hfront
    · exact ih (fun hc => hfront (List.mem_cons_of_mem _ hc)) h

theorem Repeats.continues {more : List Step} (h : Repeats cs n r) (hmore : Takes nested r more rest)
    (hc : isWordChar c = false) (hsuffix : c :: after <:+ cs) :
    FollowedBy c after ∨ c :: after <:+ r := by
  cases h with
  | once => exact .inr hsuffix
  | counted hdigits hrest hpos hle =>
    rcases List.suffix_cons_iff.mp hsuffix with heq | hsuffix
    · cases heq
      exact .inl (.counted hdigits hrest hpos hle hmore)
    · refine .inr (suffix_of_suffix_append (fun hmem => ?_) hsuffix)
      have hword : isWordChar c := isWordChar_of_isDigit (hdigits c hmem)
      rw [hc] at hword
      cases hword

/-- Each character of a text that is read either belongs to a word, or the text goes on behind it as
it should, or it stands in what is left. -/
theorem Takes.continues (h : Takes nested cs sequence rest) (hc : isWordChar c = false)
    (hsuffix : c :: after <:+ cs) :
    FollowedBy c after ∨ c :: after <:+ rest := by
  induction h with
  | stop => cases List.suffix_nil.mp hsuffix
  | close =>
    rcases List.suffix_cons_iff.mp hsuffix with heq | h
    · cases heq
      exact .inl .close
    · exact .inr h
  | blank hblank h ih =>
    rcases List.suffix_cons_iff.mp hsuffix with heq | hsuffix
    · cases heq
      exact .inl (.blank hblank h)
    · exact ih hsuffix
  | group hinner hne hn hmore ihinner ihmore =>
    rcases List.suffix_cons_iff.mp hsuffix with heq | hsuffix
    · cases heq
      exact .inl (.group hinner hne)
    -- The character stands in the group, in the count behind it, or later.
    rcases ihinner hsuffix with hcontinues | hsuffix
    · exact .inl hcontinues
    rcases hn.continues hmore hc hsuffix with hcontinues | hsuffix
    · exact .inl hcontinues
    · exact ihmore hsuffix
  | word _ hword _ _ hn hmore ihmore =>
    have hsuffix := suffix_of_suffix_append
      (fun hmem => absurd (hword c hmem) (by simp [hc])) hsuffix
    rcases hn.continues hmore hc hsuffix with hcontinues | hsuffix
    · exact .inl hcontinues
    · exact ihmore hsuffix

theorem Takes.continues_of_eq (h : Takes false cs sequence []) (hc : isWordChar c = false)
    (hcs : cs = before ++ c :: after) : FollowedBy c after := by
  rcases h.continues hc ⟨before, hcs.symm⟩ with hcontinues | hsuffix
  · exact hcontinues
  · cases List.suffix_nil.mp hsuffix

namespace FollowedBy

theorem of_blank (h : FollowedBy c cs) (hc : Text.isBlank c) :
    ∃ nested sequence rest, Takes nested cs sequence rest := by
  cases h with
  | close | group | counted => cases hc
  | blank _ h => exact ⟨_, _, _, h⟩

theorem of_open (h : FollowedBy '[' cs) : ∃ inner rest, Takes true cs inner rest ∧ inner ≠ [] := by
  generalize hc : '[' = c at h
  cases h with
  | close | counted => cases hc
  | blank hblank =>
    subst hc
    cases hblank
  | group h hne => exact ⟨_, _, h, hne⟩

theorem of_star (h : FollowedBy '*' cs) : (0 < Decimal.wholeNumber (cs.takeWhile Char.isDigit) ∧
    Decimal.wholeNumber (cs.takeWhile Char.isDigit) ≤ countLimit) ∧
      ∃ nested more rest, Takes nested (cs.dropWhile Char.isDigit) more rest := by
  generalize hc : '*' = c at h
  cases h with
  | close | group => cases hc
  | blank hblank =>
    subst hc
    cases hblank
  | counted hdigits hrest hpos hle h =>
    rw [← drop_takeWhile, takeWhile_run hdigits hrest, List.drop_left]
    exact ⟨⟨hpos, hle⟩, _, _, _, h⟩

end FollowedBy

end SignalPatch.Pattern
