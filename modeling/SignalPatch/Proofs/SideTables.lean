import SignalPatch.Proofs.Emission
import SignalPatch.Proofs.TreeMeaning

/-!
# Side tables

Beside the code, a compiled program has tables: the sequences that its steps play, the samples that
these need, and the parameters of the host. The code refers to them by number, by position and by
fingerprint. `TablesMatch` says that all these references are right; every move of lowering keeps
it.
-/

namespace SignalPatch

open Lowering

/-! ## Samples in the order of their first use -/

def need (samples : List String) (name : String) : List String :=
  if name ∈ samples then samples else samples ++ [name]

/-- What a sequence holds for a sample: its place among those needed, counted from one. -/
def slot (samples : List String) (name : String) : Float := Float.ofNat (samples.idxOf name + 1)

theorem mem_need : x ∈ need samples name ↔ x ∈ samples ∨ x = name := by
  unfold need
  split
  · simp only [iff_self_or]
    rintro rfl
    assumption
  · simp

theorem mem_foldl_need {names : List String} :
    x ∈ names.foldl need samples ↔ x ∈ samples ∨ x ∈ names := by
  induction names generalizing samples with
  | nil => simp
  | cons name names ih => simp [ih, mem_need, or_assoc]

theorem prefix_need (samples : List String) (name : String) : samples <+: need samples name := by
  unfold need
  split <;> simp

theorem prefix_foldl_need (samples names : List String) : samples <+: names.foldl need samples := by
  induction names generalizing samples with
  | nil => simp
  | cons name names ih => exact (prefix_need samples name).trans (ih _)

theorem nodup_foldl_need (h : samples.Nodup) (names : List String) :
    (names.foldl need samples).Nodup := by
  induction names generalizing samples with
  | nil => exact h
  | cons name names ih =>
    apply ih
    unfold need
    split
    · exact h
    · rw [List.nodup_append]
      refine ⟨h, by simp, ?_⟩
      rintro x hx y hy rfl
      simp_all

theorem slot_extend (h : samples <+: samples') (hname : name ∈ samples) :
    slot samples' name = slot samples name := by
  obtain ⟨rest, rfl⟩ := h
  simp [slot, List.idxOf_append_of_mem hname]

theorem eraseDups_append_need (xs : List String) (name : String) :
    (xs ++ [name]).eraseDups = need xs.eraseDups name := by
  have hone : [name].eraseDups = [name] := by simp [List.eraseDups_cons]
  by_cases hname : name ∈ xs <;> simp [need, List.eraseDups_append, List.removeAll, hname, hone]

theorem eraseDups_append_foldl_need (xs names : List String) :
    (xs ++ names).eraseDups = names.foldl need xs.eraseDups := by
  induction names generalizing xs with
  | nil => simp
  | cons name names ih =>
    rw [List.foldl_cons, ← eraseDups_append_need, ← ih, List.append_assoc, List.singleton_append]

theorem soundNumber_sample (samples : List String) (name : String) :
    soundNumber samples (.sample name) = (slot (need samples name) name, need samples name) := by
  by_cases hname : name ∈ samples
  · have hfind : samples.findIdx? (· == name) = some (samples.idxOf name) :=
      List.findIdx?_eq_some_iff_findIdx_eq.mpr ⟨List.idxOf_lt_length_of_mem hname, rfl⟩
    simp [soundNumber, need, slot, hname, hfind]
  · have hfind : samples.findIdx? (· == name) = none := by
      simp only [List.findIdx?_eq_none_iff, beq_eq_false_iff_ne]
      rintro x hx rfl
      exact hname hx
    simp [soundNumber, need, slot, hname, hfind, List.idxOf_append]

theorem soundNumbers_samples (samples : List String) (sounds : List Pattern.Sound) :
    (soundNumbers samples sounds).2 = (sounds.filterMap (·.sampleName?)).foldl need samples := by
  induction sounds generalizing samples with
  | nil => rfl
  | cons sound sounds ih =>
    cases sound with
    | number v => simp [soundNumbers, soundNumber, Pattern.Sound.sampleName?, ih]
    | pitch note => simp [soundNumbers, soundNumber, Pattern.Sound.sampleName?, ih]
    | sample name => simp [soundNumbers, soundNumber_sample, Pattern.Sound.sampleName?, ih]

theorem soundNumbers_slots (samples names : List String) :
    (soundNumbers samples (names.map .sample)).1 = names.map (slot (names.foldl need samples)) := by
  induction names generalizing samples with
  | nil => rfl
  | cons name names ih =>
    simp only [List.map_cons, soundNumbers, soundNumber_sample, ih,
      List.foldl_cons, List.cons.injEq, and_true]
    exact (slot_extend (prefix_foldl_need _ names) (mem_need.mpr (.inr rfl))).symm

theorem length_soundNumbers (samples : List String) (sounds : List Pattern.Sound) :
    (soundNumbers samples sounds).1.length = sounds.length := by
  induction sounds generalizing samples with
  | nil => rfl
  | cons sound sounds ih => simp [soundNumbers, ih]

/-! ## Sequences -/

/-- Every event has a time, a value and a velocity. A sequence of values names no samples; a
sequence of samples has the slot of a sample for each value. -/
structure SequenceInit.Consistent (samples : List String) (s : SequenceInit) : Prop where
  values : s.values.length = s.times.length
  velocities : s.velocities.length = s.times.length
  names : match s.kind with
    | .values => s.sampleNames = []
    | .samples => s.sampleNames.length = s.values.length ∧
        s.values = s.sampleNames.map (slot samples)

theorem SequenceInit.Consistent.mono {s : SequenceInit} (h : s.Consistent samples)
    (hext : samples <+: samples') (hnames : ∀ name ∈ s.sampleNames, name ∈ samples) :
    s.Consistent samples' := by
  refine ⟨h.values, h.velocities, ?_⟩
  have hs := h.names
  cases hkind : s.kind with
  | values => simpa [hkind] using hs
  | samples =>
    simp only [hkind] at hs ⊢
    refine ⟨hs.1, hs.2.trans (List.map_congr_left fun name hname => ?_)⟩
    exact (slot_extend hext (hnames name hname)).symm

namespace Pattern

theorem not_mixed_of_parse (h : Pattern.parse t s = .ok p) : p.isMixed = false := by
  have hp := ofChars_of_parse h
  simp only [ofChars, bind, Except.bind, pure, Except.pure, throw, throwThe,
    MonadExceptOf.throw] at hp
  repeat' split at hp
  all_goals simp_all

theorem sounds_of_isSample {p : Pattern} (h : p.isMixed = false) (hp : p.isSample = true) :
    p.events.map Event.sound = p.sampleNames.map .sample := by
  have hall : ∀ e ∈ p.events, e.sound.isSample = true := by
    simpa [isMixed, hp] using h
  unfold sampleNames
  generalize p.events = events at hall
  induction events with
  | nil => rfl
  | cons e events ih =>
    have hrest := ih fun e he => hall e (List.mem_cons_of_mem _ he)
    have he := hall e (by simp)
    cases hsound : e.sound <;> simp_all [Sound.isSample, Sound.sampleName?]

theorem sampleNames_eq_nil {p : Pattern} (hp : p.isSample = false) : p.sampleNames = [] := by
  simp only [isSample, List.any_eq_false, sampleNames, List.filterMap_eq_nil_iff] at hp ⊢
  intro e he
  have := hp e he
  cases hsound : e.sound <;> simp_all [Sound.isSample, Sound.sampleName?]

end Pattern

theorem initOf_consistent {p : Pattern} (hp : p.isMixed = false) (id : UInt32) (span : Span)
    (samples : List String) :
    (initOf id p span samples).Consistent (p.sampleNames.foldl need samples) := by
  refine ⟨by simp [initOf, length_soundNumbers], by simp [initOf], ?_⟩
  cases hsample : p.isSample with
  | false => simpa [initOf, hsample] using Pattern.sampleNames_eq_nil hsample
  | true =>
    have hsounds := Pattern.sounds_of_isSample hp hsample
    simp [initOf, hsample, hsounds, soundNumbers_slots]

/-! ## Tables and code -/

/-- The step at `i` is followed by a constant one and a player of both, with the identity of `s`. -/
def Plays (is : List Instruction) (i : Nat) (step : Instruction) (s : SequenceInit) : Prop :=
  ∃ pitch play, is[i + 1]? = some pitch ∧ pitch.opcode = .pushConst ∧
  pitch.payload = Decimal.narrow 1 ∧
    is[i + 2]? = some play ∧ play.opcode = .samplePlay ∧ play.inputs.used = [step.out, pitch.out] ∧
    play.payload = s.stateId

/-- The instruction falls back on a constant of the code: the default of the host parameter. -/
def LooksUp (is : List Instruction) (p : HostParam) (ins : Instruction) : Prop :=
  ins.payload = p.hash ∧ ∃ fallback ∈ is, fallback.opcode = .pushConst ∧
    fallback.payload = Decimal.narrow p.default ∧ ins.inputs.used = [fallback.out]

structure TablesMatch (is : List Instruction) (sequences : List SequenceInit)
    (samples : List String) (hostParams : List HostParam) (bank : SampleRegistry) : Prop where
  steps : (is.filter (·.opcode = .seqStep)).map (·.payload.toNat) = List.range sequences.length
  inits : ∀ s ∈ sequences, s.Consistent samples
  players : ∀ (i : Nat) step, is[i]? = some step → step.opcode = .seqStep →
    ∃ s, sequences[step.payload.toNat]? = some s ∧ (s.kind = .samples → Plays is i step s)
  nodup : samples.Nodup
  firstUse : samples = (sequences.flatMap SequenceInit.sampleNames).eraseDups
  known : ∀ name ∈ samples, bank.contains name
  controls : ∀ ins ∈ is, ins.opcode = .envGet → ∃ p ∈ hostParams, LooksUp is p ins

theorem Plays.mono (h : Plays is i step s) (hext : is <+: is') : Plays is' i step s := by
  obtain ⟨rest, rfl⟩ := hext
  obtain ⟨pitch, play, hpitch, hconst, hone, hplay, hop, hused, hid⟩ := h
  have hlt := (List.getElem?_eq_some_iff.mp hpitch).1
  have hlt' := (List.getElem?_eq_some_iff.mp hplay).1
  refine ⟨pitch, play, ?_, hconst, hone, ?_, hop, hused, hid⟩
  · rw [List.getElem?_append_left hlt, hpitch]
  · rw [List.getElem?_append_left hlt', hplay]

theorem plays_append (is : List Instruction) {step pitch play : Instruction} {s : SequenceInit}
    (hconst : pitch.opcode = .pushConst) (hone : pitch.payload = Decimal.narrow 1)
    (hop : play.opcode = .samplePlay) (hused : play.inputs.used = [step.out, pitch.out])
    (hid : play.payload = s.stateId) : Plays (is ++ [step, pitch, play]) is.length step s :=
  ⟨pitch, play, by simp, hconst, hone, by simp, hop, hused, hid⟩

theorem LooksUp.mono (h : LooksUp is p ins) (hext : is <+: is') : LooksUp is' p ins := by
  obtain ⟨hhash, fallback, hmem, h⟩ := h
  exact ⟨hhash, fallback, hext.subset hmem, h⟩

namespace TablesMatch

theorem nil (hostParams : List HostParam) (bank : SampleRegistry) :
    TablesMatch [] [] [] hostParams bank :=
  ⟨rfl, by simp, by simp, by simp, rfl, by simp, by simp⟩

theorem append (h : TablesMatch is ss names ps bank) (hmore : ∀ ins ∈ more, ins.opcode ≠ .seqStep)
    (hcontrols : ∀ ins ∈ more, ins.opcode = .envGet → ∃ p ∈ ps, LooksUp (is ++ more) p ins) :
    TablesMatch (is ++ more) ss names ps bank := by
  have hext : is <+: is ++ more := List.prefix_append _ _
  refine { h with steps := ?_, players := ?_, controls := ?_ }
  · have hnone : more.filter (·.opcode = .seqStep) = [] := by simpa using hmore
    simp [hnone, h.steps]
  · intro i step hi hstep
    rw [List.getElem?_append] at hi
    split at hi
    · obtain ⟨s, hs, hplays⟩ := h.players i step hi hstep
      exact ⟨s, hs, fun hkind => (hplays hkind).mono hext⟩
    · exact absurd hstep (hmore step (List.mem_of_getElem? hi))
  · intro ins hins hget
    rcases List.mem_append.mp hins with hins | hins
    · obtain ⟨p, hp, hlooks⟩ := h.controls ins hins hget
      exact ⟨p, hp, hlooks.mono hext⟩
    · exact hcontrols ins hins hget

theorem snoc (h : TablesMatch is ss names ps bank)
    (hinit : init.Consistent (init.sampleNames.foldl need names))
    (hknown : ∀ name ∈ init.sampleNames, bank.contains name) (hstep : step.opcode = .seqStep)
    (hpayload : step.payload.toNat = ss.length) (hmore : ∀ ins ∈ more, ins.opcode ≠ .seqStep)
    (hget : ∀ ins ∈ more, ins.opcode ≠ .envGet)
    (hplays : init.kind = .samples → Plays (is ++ step :: more) is.length step init) :
    TablesMatch (is ++ step :: more) (ss ++ [init])
      (init.sampleNames.foldl need names) ps bank := by
  have hext : is <+: is ++ step :: more := List.prefix_append _ _
  refine ⟨?_, ?_, ?_, nodup_foldl_need h.nodup _, ?_, ?_, ?_⟩
  · have hnone : more.filter (·.opcode = .seqStep) = [] := by simpa using hmore
    simp [hnone, hstep, h.steps, hpayload, List.range_succ]
  · intro s hs
    rcases List.mem_append.mp hs with hs | hs
    · refine (h.inits s hs).mono (prefix_foldl_need _ _) fun name hname => ?_
      rw [h.firstUse, List.mem_eraseDups]
      exact List.mem_flatMap_of_mem hs hname
    · rw [List.mem_singleton] at hs
      exact hs ▸ hinit
  -- a step is an old one or the new one: there is none among the instructions behind it
  · intro i step' hi hstep'
    rw [List.getElem?_append] at hi
    split at hi
    · obtain ⟨s, hs, hplays'⟩ := h.players i step' hi hstep'
      have hlt := (List.getElem?_eq_some_iff.mp hs).1
      exact ⟨s, by rw [List.getElem?_append_left hlt, hs], fun hkind => (hplays' hkind).mono hext⟩
    · rename_i hge
      cases hk : i - is.length with
      | zero =>
        obtain rfl : i = is.length := by omega
        obtain rfl : step = step' := by simpa [hk] using hi
        exact ⟨init, by simp [hpayload], hplays⟩
      | succ k =>
        rw [hk, List.getElem?_cons_succ] at hi
        exact absurd hstep' (hmore step' (List.mem_of_getElem? hi))
  · rw [List.flatMap_append, eraseDups_append_foldl_need, ← h.firstUse]
    simp
  · intro name hname
    rcases mem_foldl_need.mp hname with hname | hname
    · exact h.known name hname
    · exact hknown name hname
  · intro ins hins hop
    rcases List.mem_append.mp hins with hins | hins
    · obtain ⟨p, hp, hlooks⟩ := h.controls ins hins hop
      exact ⟨p, hp, hlooks.mono hext⟩
    · rcases List.mem_cons.mp hins with rfl | hins
      · simp [hstep] at hop
      · exact absurd hop (hget ins hins)

theorem length_le (h : TablesMatch is ss names ps bank) : ss.length ≤ is.length := by
  have := congrArg List.length h.steps
  rw [List.length_map, List.length_range] at this
  exact this ▸ List.length_filter_le _ _

end TablesMatch

/-! ## The walk keeps it -/

def Lowered.TablesMatch (l : Lowered) (ps : List HostParam) (bank : SampleRegistry) : Prop :=
  SignalPatch.TablesMatch l.instructions l.sequences l.samples ps bank

theorem Lowered.TablesMatch.plain (hl : Lowered.TablesMatch l ps bank) (h : l.Appends make b l')
    (hop : (make b).opcode ≠ .seqStep) (hget : (make b).opcode ≠ .envGet) :
    Lowered.TablesMatch l' ps bank := by
  obtain ⟨-, -, rfl⟩ := h
  exact TablesMatch.append hl (by simpa using hop) (by simp [hget])

theorem Lowered.TablesMatch.issueFor (hl : Lowered.TablesMatch l ps bank) (path : List String)
    (f : Builtin) : Lowered.TablesMatch (l.issueFor path f) ps bank := by
  unfold Lowered.issueFor
  split <;> exact hl

theorem Lowered.toNat_length {l : Lowered} (hle : l.sequences.length ≤ l.instructions.length)
    (hroom : l.instructions.length < bufferLimit) :
    l.sequences.length.toUInt32.toNat = l.sequences.length := by
  unfold bufferLimit at hroom
  rw [Nat.toUInt32, UInt32.toNat_ofNat']
  omega

theorem Lowered.TablesMatch.toNat_length (hl : Lowered.TablesMatch l ps bank)
    (hroom : l.instructions.length < bufferLimit) :
    l.sequences.length.toUInt32.toNat = l.sequences.length :=
  Lowered.toNat_length (TablesMatch.length_le hl) hroom

theorem Lowered.TablesMatch.withSequence (hl : Lowered.TablesMatch l ps bank) (path : List String)
    (span : Span) (b : Buffer) (hp : p.isMixed = false)
    (hknown : ∀ name ∈ p.sampleNames, bank.contains name)
    (hroom : l.instructions.length < bufferLimit) (hmore : ∀ ins ∈ more, ins.opcode ≠ .seqStep)
    (hget : ∀ ins ∈ more, ins.opcode ≠ .envGet)
    (hplays : p.isSample = true → Plays
      (l.instructions ++ instruction .seqStep [] l.sequences.length.toUInt32 b :: more)
        l.instructions.length (instruction .seqStep [] l.sequences.length.toUInt32 b)
          (initOf (l.identity path "pat") p span l.samples)) :
    SignalPatch.TablesMatch
      (l.instructions ++ instruction .seqStep [] l.sequences.length.toUInt32 b :: more)
      (l.withSequence path p span).sequences (l.withSequence path p span).samples ps bank := by
  have hsamples : (l.withSequence path p span).samples = p.sampleNames.foldl need l.samples := by
    simp [Lowered.withSequence, soundNumbers_samples, Pattern.sampleNames, List.filterMap_map]
  have hkind : (initOf (l.identity path "pat") p span l.samples).kind = .samples →
      p.isSample = true := by
    simp [initOf]
  rw [hsamples]
  exact TablesMatch.snoc hl (initOf_consistent hp _ span l.samples) hknown rfl
    (hl.toNat_length hroom) hmore hget fun h => hplays (hkind h)

theorem Lowering.PatternLowered.tables (h : PatternLowered path p span l b l')
    (hl : Lowered.TablesMatch l ps bank) (hp : p.isMixed = false)
    (hknown : ∀ name ∈ p.sampleNames, bank.contains name) : Lowered.TablesMatch l' ps bank := by
  cases h with
  | values hvalues hstep =>
    obtain ⟨hroom, -, rfl⟩ := hstep
    exact hl.withSequence path span b hp hknown hroom (by simp) (by simp) (by simp [hvalues])
  | @samples step l₁ pitch l₂ _ _ _ hstep hpitch hplay =>
    have hbuffers : ∀ c ∈ [step, pitch], c ≠ .unused := by
      simpa using ⟨hstep.ne_unused, hpitch.ne_unused⟩
    have hused := (Operands.ofList_slots (by simp) hbuffers).1
    obtain ⟨hroom, -, rfl⟩ := hstep
    obtain ⟨-, -, rfl⟩ := hpitch
    obtain ⟨-, -, rfl⟩ := hplay
    unfold Lowered.TablesMatch
    dsimp only
    rw [List.append_assoc, List.append_assoc]
    exact hl.withSequence path span step hp hknown hroom
      (by simp [Instruction.constant, instruction]) (by simp [Instruction.constant, instruction])
      fun _ => plays_append _ rfl rfl rfl hused rfl

theorem Lowering.HostParamLowered.tables (h : HostParamLowered param l b l') (hparam : param ∈ ps)
    (hl : Lowered.TablesMatch l ps bank) : Lowered.TablesMatch l' ps bank := by
  cases h with
  | @intro fallback _ _ _ hfallback hget =>
    have hused : (Operands.ofList [fallback]).used = [fallback] :=
      (Operands.ofList_slots (by simp) (by simpa using hfallback.ne_unused)).1
    have hl₁ := hl.plain hfallback (by simp [Instruction.constant]) (by simp [Instruction.constant])
    obtain ⟨-, -, rfl⟩ := hfallback
    obtain ⟨-, -, rfl⟩ := hget
    refine TablesMatch.append hl₁ (by simp [instruction]) fun ins hins _ => ?_
    rw [List.mem_singleton] at hins
    subst hins
    exact ⟨param, hparam, rfl, .constant fallback
      (Decimal.narrow param.default), by simp, rfl, rfl, hused⟩

theorem Move.tables (h : Move R bank l l') (hl : Lowered.TablesMatch l R.hostParams bank) :
    Lowered.TablesMatch l' R.hostParams bank := by
  cases h with
  | remember => exact hl
  | expand => exact hl
  | const happ =>
    exact hl.plain happ (by simp [Instruction.constant]) (by simp [Instruction.constant])
  | op hf hkind happ =>
    have hleaf := Builtin.isLeaf_eq hf hkind
    refine (hl.issueFor _ _).plain happ ?_ ?_
    · rintro rfl
      cases hleaf
    · rintro rfl
      cases hleaf
  | pattern hparse hknown hpat => exact hpat.tables hl (Pattern.not_mixed_of_parse hparse) hknown
  | control hparam hget => exact hget.tables hparam hl

/-! ## Compiled programs -/

theorem TablesMatch.shift (h : TablesMatch is ss names ps bank) (boundary : Boundary) :
    TablesMatch is (ss.map (.shift boundary)) names ps bank := by
  refine { h with steps := ?_, inits := ?_, players := ?_, firstUse := ?_ }
  · rw [List.length_map, h.steps]
  · simp only [List.mem_map, forall_exists_index, and_imp, forall_apply_eq_imp_iff₂]
    rintro s hs
    obtain ⟨hvalues, hvelocities, hnames⟩ := h.inits s hs
    exact ⟨hvalues, hvelocities, hnames⟩
  · rintro i step hi hstep
    obtain ⟨s, hs, hplays⟩ := h.players i step hi hstep
    exact ⟨s.shift boundary, by simp [hs], hplays⟩
  · rw [List.flatMap_map]
    exact h.firstUse

/-- The references from the code to the tables are right, and so are the fingerprints of the host
parameters. -/
def Compiled.TablesMatch (c : Compiled) (bank : SampleRegistry) : Prop :=
  (∃ is, Bytecode.decode c.bytecode = .ok is ∧
    SignalPatch.TablesMatch is c.sequences c.samples c.hostParams bank) ∧
    ∀ p ∈ c.hostParams, p.hash = Text.fingerprint p.name

theorem Accepted.tablesMatch (h : Accepted linked bank c) : c.TablesMatch bank := by
  have hE := parse_resolve_elaborated _ h.resolved
  have hR := parse_resolve_normal _ h.resolved
  have htables : (linked.patch.resolve.walked bank).TablesMatch
      linked.patch.resolve.hostParams bank :=
    hR.keeps hE.read h.lowered (.nil _ _) fun _ _ hmove hl => hmove.tables hl
  refine ⟨⟨_, h.bytecode ▸ Bytecode.decode_encode _, ?_⟩, ?_⟩
  · rw [h.sequences, h.samples, h.hostParams]
    exact htables.shift linked.boundary
  · rw [h.hostParams]
    exact hE.hashed

theorem compile_tablesMatch (source filename : String) (bank : SampleRegistry)
    (h : (compile source filename bank).success) :
    (compile source filename bank).TablesMatch bank :=
  (compile_accepted h).tablesMatch

/-- Two patterns of samples in a function that is expanded twice, and one of pitches. -/
def drumLine : String :=
  "fn kit(level) -> pat(\"bd [sd bd]*2\") * level + pat(\"hh sd\")\nkit(0.5) + kit(1)\nsine(mtof(pat(\"c4 ~ e4\")))"

theorem compile_drumLine : (compile drumLine "drums" .drums).success :=
  compile_success String.toList_ofList (by simp) (by decide +kernel)

theorem drumLine_tablesMatch :
    (compile drumLine "drums" .drums).success ∧
      (compile drumLine "drums" .drums).TablesMatch .drums :=
  ⟨compile_drumLine, compile_tablesMatch drumLine "drums" .drums compile_drumLine⟩

end SignalPatch
