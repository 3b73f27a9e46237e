import SignalPatch.Lowering
import SignalPatch.Proofs.Rewriting

/-!
# Runs of lowering

What each primitive of lowering does to the code made so far. A step that goes well reports nothing;
one that fails reports at least one error, and only of the kinds that a resolved patch can still
have (`Safe`). `Lowers` is the walk over a resolved patch as a relation: one rule for each way in
which a node gets its buffer.
-/

namespace SignalPatch

/-! ## Running steps -/

namespace Lowering

def exec (x : Lowering α) (l : Lowered) : Option α × Lowered := x.run.run l

theorem exec_pure (a : α) (l : Lowered) : exec (pure a) l = (some a, l) := rfl

theorem exec_get (l : Lowered) : exec get l = (some l, l) := rfl

theorem exec_modify (f : Lowered → Lowered) (l : Lowered) : exec (modify f) l = (some (), f l) :=
  rfl

theorem exec_report (issue : Issue) (span : Span) (l : Lowered) :
    exec (report issue span) l = (some (), { l with findings := l.findings ++ [⟨issue, span⟩] }) :=
      rfl

theorem exec_bind (x : Lowering α) (f : α → Lowering β) (l : Lowered) :
    exec (x >>= f) l =
      match exec x l with
      | (some a, l') => exec (f a) l'
      | (none, l') => (none, l') := by
  simp only [exec, OptionT.run_bind, Option.elimM, StateT.run_bind]
  generalize x.run.run l = p
  obtain ⟨o, l'⟩ := p
  cases o <;> rfl

theorem exec_bind_some {x : Lowering α} (h : exec x l = (some a, l')) (f : α → Lowering β) :
    exec (x >>= f) l = exec (f a) l' := by
  rw [exec_bind, h]

end Lowering

/-! ## Steps that fail only with a reason -/

/-- What lowering may find wrong with a resolved patch: it needs too many buffers, plays a sample
that is not there, calls a function within itself or uses a text as a signal. -/
def Issue.isLowering : Issue → Bool
  | .outOfBuffers | .unknownSample _ | .recursiveFunction _ | .textAsSignal => true
  | _ => false

def Fails (l l' : Lowered) : Prop :=
  ∃ fs, l'.findings = l.findings ++ fs ∧ fs ≠ [] ∧ ∀ f ∈ fs, f.issue.isLowering

theorem Fails.of_eq (h : Fails l' l'') (heq : l'.findings = l.findings) : Fails l l'' := by
  obtain ⟨fs, hfs, hne, hall⟩ := h
  exact ⟨fs, by rw [hfs, heq], hne, hall⟩

namespace Lowering

/-- A step gives a result as `Q` says and reports nothing, or it fails with a reason. -/
def Safe (x : Lowering α) (l : Lowered) (Q : α → Lowered → Prop) : Prop :=
  match exec x l with
  | (some a, l') => l'.findings = l.findings ∧ Q a l'
  | (none, l') => Fails l l'

namespace Safe

theorem of_exec {x : Lowering α} (h : exec x l = (some a, l')) (hf : l'.findings = l.findings)
    (hQ : Q a l') : Safe x l Q := by
  unfold Safe
  rw [h]
  exact ⟨hf, hQ⟩

theorem pure' (hQ : Q a l) : Safe (pure a) l Q := of_exec (exec_pure a l) rfl hQ

theorem fail (h : issue.isLowering) (span : Span) (l : Lowered) (Q : α → Lowered → Prop) :
    Safe (Lowering.fail issue span) l Q :=
  ⟨[⟨issue, span⟩], rfl, by simp, by simp [h]⟩

theorem bind {x : Lowering α} {f : α → Lowering β} (hx : Safe x l Q)
    (hf : ∀ a l', l'.findings = l.findings → Q a l' → Safe (f a) l' Q') :
    Safe (x >>= f) l Q' := by
  unfold Safe at hx ⊢
  rw [exec_bind]
  generalize exec x l = p at hx ⊢
  obtain ⟨o, l'⟩ := p
  cases o with
  | none => exact hx
  | some a =>
    have h := hf a l' hx.1 hx.2
    unfold Safe at h
    dsimp only
    generalize exec (f a) l' = p at h ⊢
    obtain ⟨o, l''⟩ := p
    cases o with
    | none => exact h.of_eq hx.1
    | some b => exact ⟨h.1.trans hx.1, h.2⟩

theorem mono {x : Lowering α} (hx : Safe x l Q) (h : ∀ a l', Q a l' → Q' a l') : Safe x l Q' := by
  unfold Safe at hx ⊢
  generalize exec x l = p at hx ⊢
  obtain ⟨o, l'⟩ := p
  cases o with
  | none => exact hx
  | some a => exact ⟨hx.1, h a l' hx.2⟩

theorem exec_bind {x : Lowering α} {f : α → Lowering β} (h : exec x l = (some a, l'))
    (hl : l'.findings = l.findings) (hf : Safe (f a) l' Q) : Safe (x >>= f) l Q := by
  refine (of_exec h hl (Q := fun b l'' => b = a ∧ l'' = l') ⟨rfl, rfl⟩).bind ?_
  rintro _ _ - ⟨rfl, rfl⟩
  exact hf

end Safe

end Lowering

/-! ## Instructions -/

namespace Lowered

structure Appends (l : Lowered) (make : Buffer → Instruction) (b : Buffer) (l' : Lowered) :
    Prop where
  room : l.instructions.length < Lowering.bufferLimit
  buffer : b = l.instructions.length.toUInt16
  next : l' = { l with instructions := l.instructions ++ [make b] }

theorem Appends.toNat (h : Appends l make b l') : b.toNat = l.instructions.length := by
  have := h.room
  unfold Lowering.bufferLimit at this
  rw [h.buffer, Nat.toUInt16, UInt16.toNat_ofNat']
  omega

theorem Appends.ne_unused (h : Appends l make b l') : b ≠ .unused := by
  have := h.room
  unfold Lowering.bufferLimit at this
  intro hb
  have hnat := h.toNat
  rw [hb, show Buffer.unused.toNat = 65535 from rfl] at hnat
  omega

theorem Appends.memo_eq (h : Appends l make b l') : l'.memo = l.memo := by
  rw [h.next]

def key (path : List String) (leaf : String) : String := Lowering.pathText path ++ "/" ++ leaf

def count (l : Lowered) (path : List String) (leaf : String) : Nat := l.issued.count (key path leaf)

def issue (l : Lowered) (path : List String) (leaf : String) : Lowered :=
  { l with issued := l.issued ++ [key path leaf] }

/-- The path of the next stateful call of a function, with its running number. -/
def identityText (l : Lowered) (path : List String) (callee : String) : String :=
  key path (numbered callee (l.count path callee))

def identity (l : Lowered) (path : List String) (callee : String) : UInt32 :=
  Text.fingerprint (l.identityText path callee)

def identify (l : Lowered) (path : List String) (callee : String) : Lowered :=
  { l.issue path callee with identified := l.identified ++ [l.identityText path callee] }

end Lowered

namespace Lowering

theorem append_safe (span : Span) (make : Buffer → Instruction) (l : Lowered) :
    Safe (append span make) l (l.Appends make) := by
  unfold append
  refine Safe.exec_bind (exec_get l) rfl ?_
  by_cases hroom : l.instructions.length < bufferLimit
  · simp only [hroom, ↓reduceIte]
    exact Safe.exec_bind (exec_modify _ _) rfl (Safe.pure' ⟨hroom, rfl, rfl⟩)
  · simp only [hroom, ↓reduceIte]
    exact Safe.fail rfl _ _ _

def instruction (opcode : Opcode) (inputs : List Buffer) (payload : UInt32) (out : Buffer) :
    Instruction :=
  { opcode, out, inputs := .ofList inputs, payload }

theorem emit_safe (opcode : Opcode) (inputs : List Buffer) (payload : UInt32) (span : Span)
    (l : Lowered) : Safe (emit opcode inputs payload span) l
      (l.Appends (instruction opcode inputs payload)) :=
  append_safe span _ l

theorem emitConst_safe (value : Float) (span : Span) (l : Lowered) :
    Safe (emitConst value span) l (l.Appends (Instruction.constant · (Decimal.narrow value))) :=
  append_safe span _ l

theorem exec_number (path : List String) (leaf : String) (l : Lowered) :
    exec (number path leaf) l = (some (l.count path leaf), l.issue path leaf) := rfl

theorem exec_stateId (path : List String) (callee : String) (l : Lowered) :
    exec (stateId path callee) l = (some (l.identity path callee), l.identify path callee) := by
  unfold stateId
  rw [exec_bind_some (exec_number path callee l), exec_bind_some (exec_modify _ _), exec_pure]
  simp [Lowered.identity, Lowered.identify, Lowered.identityText, Lowered.issue, Lowered.key,
    String.append_assoc]

/-! ## Sequences -/

def soundNumber (samples : List String) : Pattern.Sound → Float × List String
  | .number v => (v, samples)
  | .pitch note => (Pitch.frequency note, samples)
  | .sample name =>
    match samples.findIdx? (· == name) with
    | some i => (Float.ofNat (i + 1), samples)
    | none => (Float.ofNat (samples.length + 1), samples ++ [name])

def soundNumbers (samples : List String) : List Pattern.Sound → List Float × List String
  | [] => ([], samples)
  | sound :: sounds =>
    let (v, samples) := soundNumber samples sound
    let (vs, samples) := soundNumbers samples sounds
    (v :: vs, samples)

theorem exec_soundValue (sound : Pattern.Sound) (l : Lowered) :
    exec (soundValue sound) l =
      (some (soundNumber l.samples sound).1,
        { l with samples := (soundNumber l.samples sound).2 }) := by
  cases sound with
  | number v => rfl
  | pitch note => rfl
  | sample name =>
    unfold soundValue sampleSlot soundNumber
    simp only [bind_assoc]
    rw [exec_bind_some (exec_get l)]
    cases l.samples.findIdx? (· == name) with
    | some i => rfl
    | none => rfl

theorem exec_soundValues (events : List Event) (l : Lowered) :
    exec (events.mapM fun e => soundValue e.sound) l =
      (some (soundNumbers l.samples (events.map Event.sound)).1,
        { l with samples := (soundNumbers l.samples (events.map Event.sound)).2 }) := by
  induction events generalizing l with
  | nil => rfl
  | cons e events ih =>
    rw [List.mapM_cons, exec_bind_some (exec_soundValue e.sound l), exec_bind_some (ih _)]
    rfl

def initOf (id : UInt32) (p : Pattern) (span : Span) (samples : List String) : SequenceInit :=
  { stateId := id
    span
    kind := if p.isSample then .samples else .values
    cycleLength := cycleBeats
    times := p.events.map fun e => e.time * cycleBeats
    values := (soundNumbers samples (p.events.map Event.sound)).1
    velocities := p.events.map fun _ => 1
    sampleNames := p.sampleNames }

theorem exec_sequenceInit (id : UInt32) (p : Pattern) (span : Span) (l : Lowered) :
    exec (sequenceInit id p span) l =
      (some (initOf id p span l.samples),
        { l with samples := (soundNumbers l.samples (p.events.map Event.sound)).2 }) := by
  unfold sequenceInit
  rw [exec_bind_some (exec_soundValues p.events l), exec_pure]
  rfl

end Lowering

open Lowering in
def Lowered.withSequence (l : Lowered) (path : List String) (p : Pattern) (span : Span) : Lowered :=
  { l.identify path "pat" with
    samples := (soundNumbers l.samples (p.events.map Event.sound)).2
    sequences := l.sequences ++ [initOf (l.identity path "pat") p span l.samples] }

namespace Lowering

/-- A pattern becomes a step of its sequence; if it plays samples, a player of what the step
gives. -/
inductive PatternLowered (path : List String) (p : Pattern) (span : Span) (l : Lowered) :
    Buffer → Lowered → Prop
  | values : p.isSample = false →
      (l.withSequence path p span).Appends
        (instruction .seqStep [] l.sequences.length.toUInt32) b l' →
      PatternLowered path p span l b l'
  | samples : p.isSample = true →
      (l.withSequence path p span).Appends
        (instruction .seqStep [] l.sequences.length.toUInt32) step l₁ →
      l₁.Appends (Instruction.constant · (Decimal.narrow 1)) pitch l₂ →
      l₂.Appends (instruction .samplePlay [step, pitch] (l.identity path "pat")) b l₃ →
      PatternLowered path p span l b l₃

theorem PatternLowered.memo_eq (h : PatternLowered path p span l b l') : l'.memo = l.memo := by
  cases h with
  | values _ hstep => exact hstep.memo_eq
  | samples _ hstep hpitch hplay => exact (hplay.memo_eq.trans hpitch.memo_eq).trans hstep.memo_eq

theorem exec_reportAll (names : List String) (span : Span) (l : Lowered) :
    exec (names.forM fun name => report (.unknownSample name) span) l =
      (some (), { l with
        findings := l.findings ++ names.map fun name => ⟨.unknownSample name, span⟩ }) := by
  induction names generalizing l with
  | nil => simp [exec_pure]
  | cons name names ih =>
    change exec (report (.unknownSample name) span >>= fun _ =>
      names.forM fun name => report (.unknownSample name) span) l = _
    rw [exec_bind_some (exec_report _ _ l), ih]
    simp

theorem lowerPattern_safe {r : Resolved} (h : r.patterns.lookup text = some p)
    (bank : SampleRegistry) (path : List String) (span : Span) (l : Lowered) :
    Safe (lowerPattern r bank path text span) l fun b l' =>
      (∀ name ∈ p.sampleNames, bank.contains name) ∧ PatternLowered path p span l b l' := by
  unfold lowerPattern
  rw [h]
  dsimp only
  generalize hunknown : p.sampleNames.eraseDups.filter (!bank.contains ·) = unknown
  cases unknown with
  | cons name names =>
    -- one error for each sample that is not there
    unfold Safe
    rw [exec_bind_some (exec_reportAll _ _ l)]
    refine ⟨_, rfl, by simp, fun f hf => ?_⟩
    obtain ⟨name, -, rfl⟩ := List.mem_map.mp hf
    rfl
  | nil =>
    have hknown : ∀ name ∈ p.sampleNames, bank.contains name := by
      intro name hname
      have := List.filter_eq_nil_iff.mp hunknown name (List.mem_eraseDups.mpr hname)
      simpa using this
    refine Safe.exec_bind (exec_pure () l) rfl ?_
    refine Safe.exec_bind (exec_stateId path "pat" l) rfl ?_
    refine Safe.exec_bind (exec_sequenceInit _ p span _) rfl ?_
    refine Safe.exec_bind (exec_get _) rfl ?_
    refine Safe.exec_bind (exec_modify _ _) rfl ?_
    refine (emit_safe .seqStep [] l.sequences.length.toUInt32 span
      (l.withSequence path p span)).bind ?_
    intro step l₁ _ hstep
    cases hsample : p.isSample with
    | false =>
      simp only [initOf, hsample, Bool.false_eq_true, ↓reduceIte]
      exact Safe.pure' ⟨hknown, .values hsample hstep⟩
    | true =>
      simp only [initOf, hsample, ↓reduceIte]
      refine (emitConst_safe 1 span l₁).bind fun pitch l₂ _ hpitch => ?_
      refine (emit_safe .samplePlay [step, pitch] _ span l₂).mono fun b l₃ hplay => ?_
      exact ⟨hknown, .samples hsample hstep hpitch hplay⟩

/-- A host parameter becomes a look-up with its default value to fall back on. -/
inductive HostParamLowered (param : HostParam) (l : Lowered) : Buffer → Lowered → Prop
  | intro : l.Appends (Instruction.constant · (Decimal.narrow param.default)) fallback l₁ →
      l₁.Appends (instruction .envGet [fallback] param.hash) b l₂ → HostParamLowered param l b l₂

theorem HostParamLowered.memo_eq (h : HostParamLowered param l b l') : l'.memo = l.memo := by
  cases h with
  | intro hfallback hget => exact hget.memo_eq.trans hfallback.memo_eq

theorem lowerHostParam_safe {r : Resolved} (hnode : r.patch.nodes[i]? = some ⟨.text name, s⟩)
    (h : r.hostParams.find? (·.name == name) = some param) (span : Span) (l : Lowered) :
    Safe (lowerHostParam r i span) l (HostParamLowered param l) := by
  unfold lowerHostParam
  rw [Arena.kind_eq hnode]
  dsimp only
  rw [h]
  refine (emitConst_safe param.default span l).bind fun fallback l₁ _ hfallback => ?_
  exact (emit_safe .envGet [fallback] param.hash span l₁).mono fun b l₂ hget => ⟨hfallback, hget⟩

end Lowering

namespace Lowering

theorem exec_inOwnMemo (x : Lowering α) (l : Lowered) :
    exec (inOwnMemo x) l =
      ((exec x { l with memo := [] }).1,
        { (exec x { l with memo := [] }).2 with memo := l.memo }) := rfl

end Lowering

/-! ## The walk as a relation -/

def Lowered.payload (l : Lowered) (path : List String) (f : Builtin) : UInt32 :=
  if f.stateful then l.identity path f.name else 0

def Lowered.issueFor (l : Lowered) (path : List String) (f : Builtin) : Lowered :=
  if f.stateful then l.identify path f.name else l

theorem Lowered.issueFor_memo (l : Lowered) (path : List String) (f : Builtin) :
    (l.issueFor path f).memo = l.memo := by
  unfold issueFor
  split <;> rfl

open Lowering

mutual

/-- `Lowers R bank site i l b l'`: from the code `l`, the node `i` of the patch gets the buffer `b`,
and the code is then `l'`. -/
inductive Lowers (R : Resolved) (bank : SampleRegistry) :
    Site → NodeId → Lowered → Buffer → Lowered → Prop
  | memo : l.memo.lookup i = some b → Lowers R bank site i l b l
  | fresh : l.memo.lookup i = none → Makes R bank site i l b l' →
      Lowers R bank site i l b { l' with memo := (i, b) :: l'.memo }

/-- The same for a node that has no buffer yet. -/
inductive Makes (R : Resolved) (bank : SampleRegistry) :
    Site → NodeId → Lowered → Buffer → Lowered → Prop
  | number : R.patch.nodes[i]? = some ⟨.number v, s⟩ →
      l.Appends (Instruction.constant · (Decimal.narrow v)) b l' → Makes R bank site i l b l'
  | bool : R.patch.nodes[i]? = some ⟨.bool v, s⟩ →
      l.Appends (Instruction.constant · (Decimal.narrow (if v then 1 else 0))) b l' →
      Makes R bank site i l b l'
  | ident : R.patch.nodes[i]? = some ⟨.ident x, s⟩ → site.symbols.lookup x = some symbol →
      symbol.isValue → symbol.buffer ≠ .unused → Makes R bank site i l symbol.buffer l
  | binary : R.patch.nodes[i]? = some ⟨.binary op lhs rhs, s⟩ → Lowers R bank site lhs l a l₁ →
      Lowers R bank site rhs l₁ b l₂ → l₂.Appends (instruction (binaryOpcode op) [a, b] 0) c l₃ →
      Makes R bank site i l c l₃
  | op : R.patch.nodes[i]? = some ⟨.call callee args, s⟩ →
      (site.symbols.lookup callee).map Symbol.meaning = some (.builtin f) → f ∈ Builtin.table →
      f.kind = .op opcode → args.length = f.params.length →
      LowersArgs R bank site args l inputs l₁ →
      (l₁.issueFor site.path f).Appends (instruction opcode inputs (l₁.payload site.path f)) b l₂ →
      Makes R bank site i l b l₂
  | pattern : R.patch.nodes[i]? = some ⟨.call callee (text :: rest), s⟩ →
      (site.symbols.lookup callee).map Symbol.meaning = some (.builtin f) → f.kind = .pattern →
      R.patterns.lookup text.value = some p → (∀ name ∈ p.sampleNames, bank.contains name) →
      PatternLowered site.path p s l b l' → Makes R bank site i l b l'
  | control : R.patch.nodes[i]? = some ⟨.call callee (text :: rest), s⟩ →
      (site.symbols.lookup callee).map Symbol.meaning = some (.builtin f) → f.kind = .control kind →
      R.patch.nodes[text.value]? = some ⟨.text name, s'⟩ →
      R.hostParams.find? (·.name == name) = some param →
      HostParamLowered param l b l' → Makes R bank site i l b l'
  | expand : R.patch.nodes[i]? = some ⟨.call callee args, s⟩ →
      (site.symbols.lookup callee).map Symbol.meaning = some (.function f) →
      f.name ∉ site.expanding → LowersArgs R bank site args l inputs l₁ →
      R.patch.nodes[f.definition]? = some ⟨.define f.name params body, s'⟩ →
      args.length = params.length →
      Lowers R bank (site.expansion R.symbols f.name (l₁.count site.path f.name) params inputs) body
        { l₁.issue site.path f.name with memo := [] } b l₂ →
      Makes R bank site i l b { l₂ with memo := l₁.memo }

inductive LowersArgs (R : Resolved) (bank : SampleRegistry) :
    Site → List (Arg NodeId) → Lowered → List Buffer → Lowered → Prop
  | nil : LowersArgs R bank site [] l [] l
  | cons : Lowers R bank site x.value l b l₁ → LowersArgs R bank site xs l₁ bs l₂ →
      LowersArgs R bank site (x :: xs) l (b :: bs) l₂

end

/-! ## Growth -/

/-- Code and sequences are added at the end only, and no more sequences than instructions. -/
structure Lowered.Grows (l l' : Lowered) : Prop where
  instructions : l.instructions <+: l'.instructions
  sequences : l.sequences <+: l'.sequences
  paced : l'.sequences.length + l.instructions.length ≤ l.sequences.length + l'.instructions.length

theorem Lowered.Grows.refl (l : Lowered) : Grows l l :=
  ⟨List.prefix_rfl, List.prefix_rfl, Nat.le_refl _⟩

theorem Lowered.Grows.trans (h : Grows l l') (h' : Grows l' l'') : Grows l l'' := by
  refine ⟨h.instructions.trans h'.instructions, h.sequences.trans h'.sequences, ?_⟩
  have := h.paced
  have := h'.paced
  omega

theorem Lowered.Grows.of_eq (h : Grows l l') (hi : l₁.instructions = l.instructions)
    (hs : l₁.sequences = l.sequences) : Grows l₁ l' := by
  refine ⟨?_, ?_, ?_⟩
  · rw [hi]
    exact h.instructions
  · rw [hs]
    exact h.sequences
  · rw [hi, hs]
    exact h.paced

theorem Lowered.Grows.length_le (h : Grows l l') : l.instructions.length ≤ l'.instructions.length :=
  h.instructions.length_le

theorem Lowered.Appends.length_eq (h : Appends l make b l') :
    l'.instructions.length = l.instructions.length + 1 := by
  rw [h.next]
  simp

theorem Lowered.Appends.grows (h : Appends l make b l') : Grows l l' := by
  refine ⟨?_, ?_, ?_⟩
  · rw [h.next]
    exact List.prefix_append _ _
  · have hsequences : l'.sequences = l.sequences := by rw [h.next]
    exact hsequences ▸ List.prefix_rfl
  · rw [h.length_eq, h.next]
    dsimp only
    omega

theorem Lowered.grows_issueFor (l : Lowered) (path : List String) (f : Builtin) :
    Grows l (l.issueFor path f) := by
  unfold issueFor
  split
  · exact ⟨List.prefix_rfl, List.prefix_rfl, Nat.le_refl _⟩
  · exact .refl l

theorem Lowered.grows_step (h : Appends (withSequence l path p span) make b l') : Grows l l' := by
  have hlen := h.length_eq
  have hseq : l'.sequences = l.sequences ++ [initOf (l.identity path "pat") p span l.samples] := by
    rw [h.next]
    rfl
  refine ⟨?_, ?_, ?_⟩
  · rw [h.next]
    exact List.prefix_append _ _
  · rw [hseq]
    exact List.prefix_append _ _
  · rw [hlen, hseq, List.length_append]
    simp only [List.length_singleton, withSequence, identify, issue]
    omega

theorem Lowering.PatternLowered.grows (h : PatternLowered path p span l b l') : l.Grows l' := by
  cases h with
  | values _ hstep => exact Lowered.grows_step hstep
  | samples _ hstep hpitch hplay =>
    exact ((Lowered.grows_step hstep).trans hpitch.grows).trans hplay.grows

theorem Lowering.HostParamLowered.grows (h : HostParamLowered param l b l') : l.Grows l' := by
  cases h with
  | intro hfallback hget => exact hfallback.grows.trans hget.grows

mutual

theorem Lowers.grows : Lowers R bank site i l b l' → l.Grows l'
  | .memo _ => .refl l
  | .fresh _ h => ⟨h.grows.instructions, h.grows.sequences, h.grows.paced⟩

theorem Makes.grows : Makes R bank site i l b l' → l.Grows l'
  | .number _ h => h.grows
  | .bool _ h => h.grows
  | .ident _ _ _ _ => .refl l
  | .binary _ hlhs hrhs h => (hlhs.grows.trans hrhs.grows).trans h.grows
  | .op _ _ _ _ _ hargs h => (hargs.grows.trans (Lowered.grows_issueFor _ _ _)).trans h.grows
  | .pattern _ _ _ _ _ h => h.grows
  | .control _ _ _ _ _ h => h.grows
  | .expand _ _ _ hargs _ _ hbody =>
    hargs.grows.trans ⟨hbody.grows.instructions, hbody.grows.sequences, hbody.grows.paced⟩

theorem LowersArgs.grows : LowersArgs R bank site args l bs l' → l.Grows l'
  | .nil => .refl l
  | .cons h hs => h.grows.trans hs.grows

end

end SignalPatch
