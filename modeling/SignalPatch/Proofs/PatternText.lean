import SignalPatch.Proofs.PatternReading

/-!
# Patterns in writing

`Written` says which texts spell a sequence of steps: the words of its leaves, brackets around its
groups, counts behind what is repeated, and blanks between the steps. The reader takes every such
text back to the sequence. A text whose brackets do not match, with an empty group or with a star
behind no step is refused.
-/

namespace SignalPatch.Pattern

/-! ## Words -/

/-- `Word w a`: the word `w` spells `a`. A name that is both a pitch's and a sample's is the
pitch's. -/
inductive Word : List Char → Atom → Prop
  | tilde : Word ['~'] .rest
  | underscore : Word ['_'] .rest
  | number : w.head?.any startsNumber → Decimal.read? w = some value →
      Word w (.sound (.number value))
  | pitch : Pitch.ofName? w = some note → Word w (.sound (.pitch note))
  | sample : isSampleName w → Pitch.ofName? w = none → Word w (.sound (.sample (String.ofList w)))

theorem startsNumber_of_isAlpha (h : c.isAlpha) : startsNumber c = false := by
  have hsign : c ≠ '-' ∧ c ≠ '.' := by
    constructor
    all_goals
      rintro rfl
      cases h
  simp [startsNumber, Text.isDigit_eq_false_of_isAlpha h, hsign]

theorem isAlpha_of_toLower {c : Char} (h : c.toLower.isAlpha) : c.isAlpha := by
  by_cases hupper : c.isUpper
  · exact Bool.or_eq_true_iff.mpr (.inl hupper)
  · have hsame : c.toLower = c := dif_neg fun hrange => hupper (decide_eq_true hrange)
    rwa [hsame] at h

theorem semitones?_isAlpha (h : Pitch.semitones? c = some base) : c.isAlpha := by
  unfold Pitch.semitones? at h
  split at h
  case h_8 => cases h
  all_goals rfl

theorem forall_isWordChar_of_all_isDigit {cs : List Char} (h : cs.all Char.isDigit) :
    ∀ c ∈ cs, isWordChar c :=
  fun c hc => isWordChar_of_isDigit (List.all_eq_true.mp h c hc)

theorem octave?_isWordChar (h : Pitch.octave? letter cs = some octave) :
    ∀ c ∈ cs, isWordChar c := by
  unfold Pitch.octave? at h
  split at h
  · rename_i hempty
    simp [List.isEmpty_iff.mp hempty]
  split at h
  · rename_i hdigits
    exact forall_isWordChar_of_all_isDigit hdigits.1
  · cases h

theorem ofName?_chars (h : Pitch.ofName? w = some note) :
    ∃ letter tail, w = letter :: tail ∧ letter.isAlpha ∧ ∀ c ∈ tail, isWordChar c := by
  cases w with
  | nil => cases h
  | cons letter tail =>
    unfold Pitch.ofName? at h
    obtain ⟨base, hbase, h⟩ := Option.bind_eq_some_iff.mp h
    obtain ⟨octave, hoctave, -⟩ := Option.bind_eq_some_iff.mp h
    refine ⟨letter, tail, rfl, isAlpha_of_toLower (semitones?_isAlpha hbase), ?_⟩
    -- a sharp, a flat or neither comes before the octave
    split at hoctave
    · exact List.forall_mem_cons.mpr ⟨by decide, octave?_isWordChar hoctave⟩
    · exact List.forall_mem_cons.mpr ⟨by decide, octave?_isWordChar hoctave⟩
    · exact octave?_isWordChar hoctave

theorem exponent?_isWordChar (h : Decimal.Numeral.exponent? cs = some x) :
    ∀ c ∈ cs, isWordChar c := by
  have hwhole : ∀ {ds : List Char} {x : Int},
      (if ds.isEmpty || !ds.all Char.isDigit then none else some (Decimal.wholeNumber ds : Int)) =
        some x → ∀ c ∈ ds, isWordChar c := by
    intro ds x hds
    split at hds
    · cases hds
    · rename_i hdigits
      exact forall_isWordChar_of_all_isDigit (by simp at hdigits; simpa using hdigits.2)
  unfold Decimal.Numeral.exponent? at h
  dsimp only at h
  split at h
  · exact List.forall_mem_cons.mpr ⟨by decide, hwhole h⟩
  · obtain ⟨_, h, -⟩ := Option.map_eq_some_iff.mp h
    exact List.forall_mem_cons.mpr ⟨by decide, hwhole h⟩
  · exact hwhole h

theorem ofChars?_isWordChar (h : Decimal.Numeral.ofChars? cs = some x) :
    ∀ c ∈ cs, isWordChar c := by
  have hdigits : ∀ ds : List Char, ∀ c ∈ ds.takeWhile Char.isDigit, isWordChar c :=
    fun ds => forall_isWordChar_of_all_isDigit List.all_takeWhile
  have hexponent : ∀ {e : Char} {ds : List Char} {f : Int → Decimal.Numeral}, e = 'e' ∨ e = 'E' →
      (Decimal.Numeral.exponent? ds).map f = some x → ∀ c ∈ e :: ds, isWordChar c := by
    intro e ds f he h
    obtain ⟨_, h, -⟩ := Option.map_eq_some_iff.mp h
    refine List.forall_mem_cons.mpr ⟨?_, exponent?_isWordChar h⟩
    rcases he with rfl | rfl <;> decide
  unfold Decimal.Numeral.ofChars? at h
  dsimp only at h
  rw [← List.takeWhile_append_dropWhile (p := Char.isDigit) (l := cs)]
  refine List.forall_mem_append.mpr ⟨hdigits cs, ?_⟩
  -- with a point or without, then with an exponent or without
  split at h
  · rename_i r hr
    rw [hr, ← List.takeWhile_append_dropWhile (p := Char.isDigit) (l := r)]
    refine List.forall_mem_cons.mpr ⟨by decide, List.forall_mem_append.mpr ⟨hdigits r, ?_⟩⟩
    split at h
    · cases h
    split at h
    · rename_i hrest
      simp [show r.dropWhile Char.isDigit = [] from hrest]
    · rename_i hrest
      split at h
      · rename_i he
        rw [show r.dropWhile Char.isDigit = _ from hrest]
        exact hexponent he h
      · cases h
  · split at h
    · cases h
    split at h
    · rename_i hrest
      simp [show cs.dropWhile Char.isDigit = [] from hrest]
    · rename_i hrest
      split at h
      · rename_i he
        rw [show cs.dropWhile Char.isDigit = _ from hrest]
        exact hexponent he h
      · cases h

theorem special?_isAlpha (h : Decimal.special? cs = some value) : ∀ c ∈ cs, c.isAlpha := by
  unfold Decimal.special? at h
  split at h
  case h_4 => cases h
  all_goals exact List.all_eq_true.mp rfl

theorem unsigned?_isWordChar (h : Decimal.unsigned? cs = some value) : ∀ c ∈ cs, isWordChar c := by
  unfold Decimal.unsigned? at h
  split at h
  · rename_i hnumeral
    exact ofChars?_isWordChar hnumeral
  · intro c hc
    have halpha := isAlpha_of_toLower (special?_isAlpha h _ (List.mem_map_of_mem hc))
    exact isWordChar_of_isAlphanum (by simp [Char.isAlphanum, halpha])

theorem read?_isWordChar (h : Decimal.read? cs = some value) : ∀ c ∈ cs, isWordChar c := by
  unfold Decimal.read? at h
  split at h
  · obtain ⟨_, h, -⟩ := Option.map_eq_some_iff.mp h
    exact List.forall_mem_cons.mpr ⟨by decide, unsigned?_isWordChar h⟩
  · exact List.forall_mem_cons.mpr ⟨by decide, unsigned?_isWordChar h⟩
  · exact unsigned?_isWordChar h

theorem isSampleName_chars (h : isSampleName w) :
    ∃ letter tail, w = letter :: tail ∧ letter.isAlpha ∧ ∀ c ∈ tail, isWordChar c := by
  cases w with
  | nil => cases h
  | cons letter tail =>
    obtain ⟨hletter, htail⟩ := Bool.and_eq_true_iff.mp h
    refine ⟨letter, tail, rfl, hletter, fun c hc => ?_⟩
    rcases Bool.or_eq_true_iff.mp (List.all_eq_true.mp htail c hc) with hc | hc
    · exact isWordChar_of_isAlphanum hc
    · rw [beq_iff_eq.mp hc]
      decide

namespace Word

theorem chars (h : Word w a) : w ≠ [] ∧ ∀ c ∈ w, isWordChar c := by
  have hletter : (∃ letter tail, w = letter :: tail ∧ letter.isAlpha ∧ ∀ c ∈ tail, isWordChar c) →
      w ≠ [] ∧ ∀ c ∈ w, isWordChar c := by
    rintro ⟨letter, tail, rfl, halpha, htail⟩
    exact ⟨List.cons_ne_nil _ _, List.forall_mem_cons.mpr
      ⟨isWordChar_of_isAlphanum (by simp [Char.isAlphanum, halpha]), htail⟩⟩
  cases h with
  | tilde | underscore => exact ⟨List.cons_ne_nil _ _, List.all_eq_true.mp rfl⟩
  | number hhead hread =>
    refine ⟨?_, read?_isWordChar hread⟩
    rintro rfl
    cases hhead
  | pitch hname => exact hletter (ofName?_chars hname)
  | sample hname => exact hletter (isSampleName_chars hname)

theorem atom_eq (h : Word w a) : atom w = .ok a := by
  have hletter : (∃ letter tail, w = letter :: tail ∧ letter.isAlpha ∧ ∀ c ∈ tail, isWordChar c) →
      (w ≠ ['~'] ∧ w ≠ ['_']) ∧ w.head?.any startsNumber = false := by
    rintro ⟨letter, tail, rfl, halpha, -⟩
    refine ⟨⟨?_, ?_⟩, startsNumber_of_isAlpha halpha⟩
    all_goals
      rintro heq
      cases heq
      cases halpha
  unfold atom
  cases h with
  | tilde => rfl
  | underscore => rfl
  | number hhead hread =>
    rw [if_neg, if_pos hhead, hread]
    rintro (rfl | rfl) <;> cases hhead
  | pitch hname =>
    obtain ⟨hrest, hhead⟩ := hletter (ofName?_chars hname)
    simp [hrest, hhead, hname]
  | sample hname hpitch =>
    obtain ⟨hrest, hhead⟩ := hletter (isSampleName_chars hname)
    simp [hrest, hhead, hname, hpitch]

end Word

/-! ## Written sequences -/

def repeatText (n : Nat) : List Char := if n = 1 then [] else '*' :: Nat.toDigits 10 n

mutual

inductive Step.Written : Step → List Char → Prop
  | word : Word w a → 0 < n → n ≤ countLimit → Step.Written (a.repeated n) (w ++ repeatText n)
  | group {inner : List Step} : Pattern.Written inner cs → (∀ c ∈ lead, Text.isBlank c) →
      (∀ c ∈ trail, Text.isBlank c) → 0 < n → n ≤ countLimit →
      Step.Written (.group inner n) ('[' :: lead ++ cs ++ trail ++ ']' :: repeatText n)

/-- `Written sequence cs`: the text `cs` spells the steps, with blanks between them. -/
inductive Written : List Step → List Char → Prop
  | last : step.Written cs → Pattern.Written [step] cs
  | cons : step.Written cs → gap ≠ [] → (∀ c ∈ gap, Text.isBlank c) → Pattern.Written more ds →
      Pattern.Written (step :: more) (cs ++ gap ++ ds)

end

theorem wholeNumber_toDigits (n : Nat) : Decimal.wholeNumber (Nat.toDigits 10 n) = n := by
  rw [Decimal.wholeNumber, ← Nat.ofDigitChars_eq_foldl, Nat.ofDigitChars_ten_toDigits]

abbrev EndsStep (rest : List Char) : Prop := EndsRun (fun c => isWordChar c || c == '*') rest

theorem endsStep_of_blank (hgap : gap ≠ []) (hblank : ∀ c ∈ gap, Text.isBlank c) :
    EndsStep (gap ++ rest) := by
  obtain ⟨c, gap, rfl⟩ := List.exists_cons_of_ne_nil hgap
  intro d hd
  cases hd
  have hc := hblank c List.mem_cons_self
  have hstar : c ≠ '*' := by
    rintro rfl
    cases hc
  simp [isWordChar, hc, hstar]

theorem EndsRun.blanks {blanks : List Char} (hblank : ∀ c ∈ blanks, Text.isBlank c)
    (hrest : EndsStep rest) :
    EndsStep (blanks ++ rest) := by
  cases blanks with
  | nil => exact hrest
  | cons c blanks => exact endsStep_of_blank (List.cons_ne_nil _ _) hblank

theorem repeats_repeatText (hpos : 0 < n) (hle : n ≤ countLimit) (hrest : EndsStep rest) :
    Repeats (repeatText n ++ rest) n rest := by
  unfold repeatText
  split
  · rename_i hone
    rw [hone]
    exact .once fun c hc => (Bool.or_eq_false_iff.mp (hrest c hc)).2
  · have hdigits : ∀ c ∈ Nat.toDigits 10 n, c.isDigit :=
      fun c hc => Nat.isDigit_of_mem_toDigits (by decide) (by decide) hc
    have hend : EndsRun Char.isDigit rest := by
      intro c hc
      refine eq_false_of_ne_true fun hdigit => ?_
      have hword := isWordChar_of_isDigit hdigit
      rw [(Bool.or_eq_false_iff.mp (hrest c hc)).1] at hword
      cases hword
    have hcount := Repeats.counted hdigits hend
    rw [wholeNumber_toDigits] at hcount
    exact hcount hpos hle

theorem endsRun_repeatText (hrest : EndsStep rest) : EndsRun isWordChar (repeatText n ++ rest) := by
  unfold repeatText
  split
  · exact fun c hc => (Bool.or_eq_false_iff.mp (hrest c hc)).1
  · intro c hc
    cases hc
    rfl

theorem Written.ne_nil {sequence : List Step} (h : Written sequence cs) : sequence ≠ [] := by
  cases h with
  | last | cons => exact List.cons_ne_nil _ _

mutual

theorem Step.Written.takes {more : List Step} (h : step.Written cs) (hrest : EndsStep rest)
    (hmore : Takes nested rest more r) : Takes nested (cs ++ rest) (step :: more) r := by
  cases h with
  | word hword hpos hle =>
    obtain ⟨hne, hchars⟩ := hword.chars
    rw [List.append_assoc]
    exact .word hne hchars (endsRun_repeatText hrest) hword.atom_eq
      (repeats_repeatText hpos hle hrest) hmore
  | @group cs lead trail n inner hinner hlead htrail hpos hle =>
    have hclose : Takes true (trail ++ ']' :: (repeatText n ++ rest)) [] (repeatText n ++ rest) :=
      Takes.close.blanks htrail
    have htail : EndsStep (trail ++ ']' :: (repeatText n ++ rest)) := by
      refine EndsRun.blanks htrail fun c hc => ?_
      cases hc
      rfl
    have htakes := Takes.group ((hinner.takes htail hclose).blanks hlead) hinner.ne_nil
      (repeats_repeatText hpos hle hrest) hmore
    simpa using htakes

theorem Written.takes {sequence : List Step} (h : Written sequence cs) (hrest : EndsStep rest)
    (hstop : Takes nested rest [] r) : Takes nested (cs ++ rest) sequence r := by
  cases h with
  | last hstep => exact hstep.takes hrest hstop
  | @cons step cs gap more ds hstep hgap hblank hmore =>
    have htakes := hstep.takes (endsStep_of_blank hgap hblank)
      ((hmore.takes hrest hstop).blanks hblank)
    simpa using htakes

end

mutual

/-- Every leaf is spelled by some word, no group is empty, and the counts can be read. -/
def Step.Writable : Step → Prop
  | .rest n => 0 < n ∧ n ≤ countLimit
  | .sound sound n => (∃ w, Word w (.sound sound)) ∧ 0 < n ∧ n ≤ countLimit
  | .group inner n => inner ≠ [] ∧ Pattern.Writable inner ∧ 0 < n ∧ n ≤ countLimit
termination_by structural step => step

def Writable : List Step → Prop
  | [] => True
  | step :: steps => step.Writable ∧ Writable steps
termination_by structural steps => steps

end

mutual

theorem Step.exists_written (step : Step) (h : step.Writable) : ∃ cs, step.Written cs := by
  cases step with
  | rest n => exact ⟨_, .word .tilde h.1 h.2⟩
  | sound sound n =>
    obtain ⟨⟨w, hw⟩, hpos, hle⟩ := h
    exact ⟨_, .word hw hpos hle⟩
  | group inner n =>
    obtain ⟨hne, hinner, hpos, hle⟩ := h
    obtain ⟨cs, hcs⟩ := exists_written inner hne hinner
    exact ⟨_, .group hcs (List.forall_mem_nil _) (List.forall_mem_nil _) hpos hle⟩

theorem exists_written (sequence : List Step) (hne : sequence ≠ []) (h : Writable sequence) :
    ∃ cs, Written sequence cs := by
  cases sequence with
  | nil => exact absurd rfl hne
  | cons step more =>
    obtain ⟨cs, hcs⟩ := step.exists_written h.1
    cases more with
    | nil => exact ⟨cs, .last hcs⟩
    | cons next more =>
      obtain ⟨ds, hds⟩ := exists_written (next :: more) (List.cons_ne_nil _ _) h.2
      exact ⟨_, .cons hcs (List.cons_ne_nil ' ' []) (by simp [Text.isBlank]) hds⟩

end

/-! ## Texts that are refused -/

inductive Bracketed : List Char → Prop
  | nil : Bracketed []
  | other : c ≠ '[' → c ≠ ']' → Bracketed cs → Bracketed (c :: cs)
  | group : Bracketed inside → Bracketed after → Bracketed ('[' :: inside ++ ']' :: after)

def HasEmptyGroup (cs : List Char) : Prop :=
  ∃ before blanks after, cs = before ++ '[' :: (blanks ++ ']' :: after) ∧
    ∀ c ∈ blanks, Text.isBlank c

/-- No step ends the text: a star may not follow. -/
inductive EndsOpen : List Char → Prop
  | start : EndsOpen []
  | blank : Text.isBlank c → EndsOpen (before ++ [c])
  | opened : EndsOpen (before ++ ['['])
  | counted : (∀ d ∈ digits, d.isDigit) → EndsOpen (before ++ '*' :: digits)

def HasStrayStar (cs : List Char) : Prop :=
  ∃ before after, cs = before ++ '*' :: after ∧ EndsOpen before

theorem Bracketed.append_others {front : List Char} (hfront : ∀ c ∈ front, c ≠ '[' ∧ c ≠ ']')
    (h : Bracketed cs) :
    Bracketed (front ++ cs) := by
  induction front with
  | nil => exact h
  | cons c front ih =>
    obtain ⟨⟨hopen, hclose⟩, hfront⟩ := List.forall_mem_cons.mp hfront
    exact .other hopen hclose (ih hfront)

theorem not_bracket_of_isWordChar (h : isWordChar c) : c ≠ '[' ∧ c ≠ ']' := by
  constructor
  all_goals
    rintro rfl
    cases h

theorem Repeats.exists_front (h : Repeats cs n rest) :
    ∃ front, cs = front ++ rest ∧ ∀ c ∈ front, c ≠ '[' ∧ c ≠ ']' := by
  cases h with
  | once => exact ⟨[], rfl, List.forall_mem_nil _⟩
  | counted hdigits =>
    refine ⟨_, rfl, List.forall_mem_cons.mpr ⟨by decide, fun c hc => ?_⟩⟩
    exact not_bracket_of_isWordChar (isWordChar_of_isDigit (hdigits c hc))

variable {sequence : List Step}

theorem Takes.bracketed (h : Takes nested cs sequence rest) :
    ∃ front, cs = front ++ (if nested then ']' :: rest else rest) ∧ Bracketed front := by
  induction h with
  | stop | close => exact ⟨[], rfl, .nil⟩
  | blank hc _ ih =>
    obtain ⟨front, rfl, hfront⟩ := ih
    refine ⟨_ :: front, rfl, .other ?_ ?_ hfront⟩
    all_goals
      rintro rfl
      cases hc
  | group _ _ hn _ ihinner ihmore =>
    obtain ⟨inside, rfl, hinside⟩ := ihinner
    obtain ⟨count, rfl, hcount⟩ := hn.exists_front
    obtain ⟨front, rfl, hfront⟩ := ihmore
    exact ⟨'[' :: inside ++ ']' ::
      (count ++ front), by simp, .group hinside (hfront.append_others hcount)⟩
  | @word w _ _ _ _ _ _ _ _ hword _ _ hn _ ihmore =>
    obtain ⟨count, rfl, hcount⟩ := hn.exists_front
    obtain ⟨front, rfl, hfront⟩ := ihmore
    refine ⟨w ++
      (count ++ front), by simp, (hfront.append_others hcount).append_others fun c hc => ?_⟩
    exact not_bracket_of_isWordChar (hword c hc)

theorem Takes.eq_nil_of_blanks {blanks : List Char} (hblanks : ∀ c ∈ blanks, Text.isBlank c)
    (h : Takes true (blanks ++ ']' :: after) sequence rest) : sequence = [] := by
  induction blanks with
  | nil =>
    generalize hcs : [] ++ ']' :: after = cs at h
    cases h with
    | close => rfl
    | blank hc =>
      cases hcs
      cases hc
    | group => cases hcs
    | word hne hword =>
      obtain ⟨c, w, rfl⟩ := List.exists_cons_of_ne_nil hne
      cases hcs
      cases hword ']' List.mem_cons_self
  | cons b blanks ih =>
    obtain ⟨hb, hblanks⟩ := List.forall_mem_cons.mp hblanks
    exact ih hblanks (h.of_blank hb)

theorem Takes.not_hasEmptyGroup (h : Takes false cs sequence []) : ¬HasEmptyGroup cs := by
  rintro ⟨before, blanks, after, hcs, hblanks⟩
  obtain ⟨inner, rest, hinner, hne⟩ := (h.continues_of_eq rfl hcs).of_open
  exact hne (hinner.eq_nil_of_blanks hblanks)

theorem Takes.not_hasStrayStar (h : Takes false cs sequence []) : ¬HasStrayStar cs := by
  rintro ⟨before, after, hcs, hopen⟩
  cases hopen with
  | start =>
    subst hcs
    exact h.ne_star
  | blank hc =>
    rw [List.append_assoc] at hcs
    obtain ⟨_, _, _, htakes⟩ := (h.continues_of_eq (by simp [isWordChar, hc]) hcs).of_blank hc
    exact htakes.ne_star
  | opened =>
    rw [List.append_assoc] at hcs
    obtain ⟨_, _, htakes, -⟩ := (h.continues_of_eq rfl hcs).of_open
    exact htakes.ne_star
  | counted hdigits =>
    rw [List.append_assoc, List.cons_append] at hcs
    obtain ⟨-, _, _, _, htakes⟩ := (h.continues_of_eq rfl hcs).of_star
    rw [List.dropWhile_append_of_pos hdigits] at htakes
    exact htakes.ne_star

/-- A text that may not be read: its brackets do not match, a group is empty, or a star follows no
step. -/
def Malformed (cs : List Char) : Prop := ¬Bracketed cs ∨ HasEmptyGroup cs ∨ HasStrayStar cs

theorem Takes.not_malformed (h : Takes false cs sequence []) : ¬Malformed cs := by
  rintro (hbrackets | hempty | hstar)
  · obtain ⟨front, hcs, hfront⟩ := h.bracketed
    obtain rfl : cs = front := by simpa using hcs
    exact hbrackets hfront
  · exact h.not_hasEmptyGroup hempty
  · exact h.not_hasStrayStar hstar

theorem steps_ends (cs : List Char) :
    (∃ misread, steps false cs = .error misread) ∨ ∃ sequence, Takes false cs sequence [] := by
  cases h : steps false cs with
  | error misread => exact .inl ⟨misread, rfl⟩
  | ok r =>
    have htakes := takes_of_steps h
    rw [htakes.rest_eq_nil] at htakes
    exact .inr ⟨r.value, htakes⟩

/-- Reading inverts writing. Every sequence that can be written has a text, the steps read from any
of its texts are that sequence, and nothing of the text is left. Reading ends on every text, and
malformed ones are refused. -/
theorem steps_inverts_writing :
    (∀ sequence, sequence ≠ [] → Writable sequence → ∃ cs, Written sequence cs) ∧
    (∀ sequence cs lead trail, Written sequence cs → (∀ c ∈ lead, Text.isBlank c) →
      (∀ c ∈ trail, Text.isBlank c) → Yields (steps false (lead ++ cs ++ trail)) sequence []) ∧
    ∀ cs, ((∃ misread, steps false cs = .error misread) ∨
      ∃ sequence, Yields (steps false cs) sequence []) ∧
      (Malformed cs → ∃ misread, steps false cs = .error misread) := by
  refine ⟨exists_written, fun sequence cs lead trail hwritten hlead htrail => ?_, fun cs =>
    ⟨?_, fun hmalformed => ?_⟩⟩
  · have hend : EndsStep (trail ++ []) := EndsRun.blanks htrail fun c hc => nomatch hc
    have htakes := (hwritten.takes hend (Takes.stop.blanks htrail)).blanks hlead
    rw [List.append_nil, ← List.append_assoc] at htakes
    exact steps_iff.mpr htakes
  · rcases steps_ends cs with herror | ⟨sequence, htakes⟩
    · exact .inl herror
    · exact .inr ⟨sequence, steps_iff.mpr htakes⟩
  · rcases steps_ends cs with herror | ⟨sequence, htakes⟩
    · exact herror
    · exact absurd hmalformed htakes.not_malformed

/-- A sharp and a group of a rest, a number and a sample, which only the last letter keeps from
being a flat. -/
def nestedRun : List Char :=
  ['c', '#', '4', '*', '2', '\t', '[', ' ', '_', ' ', '.', '5', ' ', 'b', 'b',
    'd', ']', '*', '1', '2']

def nestedRunSteps : List Step :=
  [.sound (.pitch 61) 2, .group [.rest 1, .sound (.number (Decimal.Numeral.toFloat ⟨5, -1⟩)) 1,
    .sound (.sample "bbd") 1] 12]

theorem nestedRun_written : Written nestedRunSteps nestedRun := by
  have hgap : ∀ c ∈ [' '], Text.isBlank c := by simp [Text.isBlank]
  have hpitch : Step.Written (.sound (.pitch 61) 2) ['c', '#', '4', '*', '2'] :=
    .word (w := ['c', '#', '4']) (.pitch (by decide)) (by decide) (by decide)
  have hrest : Step.Written (.rest 1) ['_'] := .word .underscore (by decide) (by decide)
  have hnumber : Step.Written (.sound (.number (Decimal.Numeral.toFloat ⟨5, -1⟩)) 1) ['.', '5'] :=
    .word (w := ['.', '5']) (.number rfl rfl) (by decide) (by decide)
  have hsample : Step.Written (.sound (.sample "bbd") 1) ['b', 'b', 'd'] :=
    .word (w := ['b', 'b', 'd']) (.sample rfl rfl) (by decide) (by decide)
  have hinner := Written.cons hrest (List.cons_ne_nil ' ' []) hgap
    (.cons hnumber (List.cons_ne_nil ' ' []) hgap (.last hsample))
  have hgroup := Step.Written.group hinner hgap (List.forall_mem_nil _)
    (Nat.succ_pos 11) (by decide)
  exact .cons hpitch (List.cons_ne_nil '\t' []) (by simp [Text.isBlank]) (.last hgroup)

theorem nestedRun_inverted : Written nestedRunSteps nestedRun ∧
    Yields (steps false (' ' :: nestedRun)) nestedRunSteps [] ∧
    HasStrayStar ('[' :: '*' :: nestedRun) ∧
      ∃ misread, steps false ('[' :: '*' :: nestedRun) = .error misread := by
  have hstray : HasStrayStar ('[' :: '*' :: nestedRun) :=
    ⟨['['], nestedRun, rfl, @EndsOpen.opened []⟩
  obtain ⟨-, hreads, hall⟩ := steps_inverts_writing
  refine ⟨nestedRun_written, ?_, hstray, (hall _).2 (.inr (.inr hstray))⟩
  have h := hreads nestedRunSteps nestedRun [' '] [] nestedRun_written (by simp [Text.isBlank])
    (List.forall_mem_nil _)
  rwa [List.append_nil] at h

end SignalPatch.Pattern
