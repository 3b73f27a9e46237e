import SignalPatch.Compile
import SignalPatch.Proofs.Codec
import SignalPatch.Proofs.Visits

/-!
# Single assignment

Instruction `k` of a compiled program writes buffer `k` and reads as many buffers as its operation
has operands, all written before it. A program that cannot be compiled leaves nothing but its
errors.
-/

namespace SignalPatch

open Lowering

/-! ## Operands -/

/-- How many buffers an operation reads: those of the built-in functions, one per parameter; a
look-up of the host, its fallback; a player of samples, a sample and a pitch. -/
def Opcode.operandCount (o : Opcode) : Nat :=
  match Builtin.table.find? (·.kind = .op o) with
  | some f => f.params.length
  | none =>
    match o with
    | .envGet => 1
    | .samplePlay => 2
    | _ => 0

theorem Opcode.operandCount_le (o : Opcode) : o.operandCount ≤ 4 := by
  cases o <;> decide

theorem binaryOpcode_operandCount (op : BinaryOp) : (binaryOpcode op).operandCount = 2 := by
  cases op <;> rfl

theorem Builtin.operandCount_eq (hf : f ∈ Builtin.table) (hk : f.kind = .op opcode) :
    opcode.operandCount = f.params.length := by
  have h : ∀ f ∈ Builtin.table, (match f.kind with
      | .op o => o.operandCount == f.params.length
      | _ => true) = true := by decide
  simpa [hk] using h f hf

theorem Operands.ofList_slots {bs : List Buffer} (hlen : bs.length ≤ 4)
    (h : ∀ b ∈ bs, b ≠ .unused) :
    (ofList bs).used = bs ∧
      (ofList bs).toList = bs ++ List.replicate (4 - bs.length) .unused := by
  match bs, hlen with
  | [], _ => exact ⟨by decide, rfl⟩
  | [a], _ | [a, b], _ | [a, b, c], _ | [a, b, c, d], _ =>
    simp_all [ofList, used, toList, List.replicate]

/-- The instruction writes the buffer `k` and reads only buffers before it, one for each operand, in
the first slots. -/
structure Instruction.Assigns (ins : Instruction) (k : Nat) : Prop where
  out : ins.out.toNat = k
  slots : ins.inputs.toList =
    ins.inputs.used ++ List.replicate (4 - ins.inputs.used.length) .unused
  operands : ins.inputs.used.length = ins.opcode.operandCount
  parameters : ∀ f ∈ Builtin.table, f.kind = .op ins.opcode →
    ins.inputs.used.length = f.params.length
  earlier : ∀ b ∈ ins.inputs.used, b.toNat < k

def SingleAssignment (is : List Instruction) : Prop :=
  ∀ (k : Nat) ins, is[k]? = some ins → ins.Assigns k

theorem SingleAssignment.snoc (h : SingleAssignment is) (hins : ins.Assigns is.length) :
    SingleAssignment (is ++ [ins]) := by
  intro k ins' hk
  rw [List.getElem?_append] at hk
  split at hk
  · exact h k ins' hk
  · rename_i hge
    rw [List.getElem?_singleton] at hk
    split at hk
    · cases hk
      rwa [show k = is.length by omega]
    · cases hk

/-! ## The walk keeps it -/

/-- The code is single-assignment, and the buffers that later code may read are written. -/
structure Assigned (l : Lowered) : Prop where
  single : SingleAssignment l.instructions
  limit : l.instructions.length ≤ bufferLimit
  memo : ∀ i b, l.memo.lookup i = some b → b.toNat < l.instructions.length

def SiteBelow (R : Resolved) (site : Site) (k : Nat) : Prop :=
  ∃ bound, site.symbols = .above R.symbols.globals bound ∧ ∀ s ∈ bound, s.buffer.toNat < k

theorem SiteBelow.mono (h : SiteBelow R site k) (hk : k ≤ k') : SiteBelow R site k' := by
  obtain ⟨bound, hsym, hbound⟩ := h
  exact ⟨bound, hsym, fun s hs => Nat.lt_of_lt_of_le (hbound s hs) hk⟩

theorem SiteBelow.value (h : SiteBelow R site k) (hR : NormalPatch R n)
    (hlook : site.symbols.lookup x = some symbol) (hvalue : symbol.isValue) :
    symbol.buffer.toNat < k := by
  obtain ⟨bound, hsym, hbound⟩ := h
  rw [hsym] at hlook
  exact hbound _ (hR.mem_scope hlook hvalue).2

theorem SiteBelow.expansion (hR : NormalPatch R n) (site : Site) (name : String) (m : Nat)
    (params : List Parameter) (h : ∀ b ∈ inputs, b.toNat < k) :
    SiteBelow R (site.expansion R.symbols name m params inputs) k := by
  refine ⟨_, hR.expansion_symbols site name m params inputs, fun s hs => ?_⟩
  obtain ⟨p, b, hmem, rfl⟩ := mem_argumentScope hs
  exact h b (List.of_mem_zip hmem).2

theorem ne_unused_of_lt {b : Buffer} (h : b.toNat < k) (hk : k ≤ bufferLimit) : b ≠ .unused := by
  rintro rfl
  rw [show Buffer.unused.toNat = 65535 from rfl] at h
  unfold bufferLimit at hk
  omega

theorem Assigned.appends (hl : Assigned l) (h : l.Appends make b l')
    (hmake : (make b).Assigns l.instructions.length) :
    Assigned l' ∧ b.toNat < l'.instructions.length := by
  have hroom := h.room
  have hlen := h.length_eq
  refine ⟨⟨?_, by omega, fun i c hc => ?_⟩, by rw [h.toNat]; omega⟩
  · rw [h.next]
    exact hl.single.snoc hmake
  · rw [h.next] at hc
    have := hl.memo i c hc
    omega

theorem instruction_assigns (hl : Assigned l) (hb : b.toNat = l.instructions.length)
    (inputs : List Buffer) (hlen : inputs.length = opcode.operandCount)
    (hinputs : ∀ c ∈ inputs, c.toNat < l.instructions.length) (payload : UInt32) :
    (instruction opcode inputs payload b).Assigns l.instructions.length := by
  obtain ⟨hused, hslots⟩ := Operands.ofList_slots (hlen ▸ opcode.operandCount_le)
    fun c hc => ne_unused_of_lt (hinputs c hc) hl.limit
  unfold instruction
  refine ⟨hb, ?_, ?_, fun f hf hk => ?_, ?_⟩
  · dsimp only
    rw [hused, hslots]
  · dsimp only
    rw [hused, hlen]
  · dsimp only at hk ⊢
    rw [hused, hlen, Builtin.operandCount_eq hf hk]
  · dsimp only
    rwa [hused]

theorem Assigned.emits (hl : Assigned l) (h : l.Appends (instruction opcode inputs payload) b l')
    (hlen : inputs.length = opcode.operandCount)
    (hinputs : ∀ c ∈ inputs, c.toNat < l.instructions.length) :
    Assigned l' ∧ b.toNat < l'.instructions.length :=
  hl.appends h (instruction_assigns hl h.toNat inputs hlen hinputs payload)

theorem Assigned.constant (hl : Assigned l) (h : l.Appends (Instruction.constant · bits) b l') :
    Assigned l' ∧ b.toNat < l'.instructions.length :=
  hl.appends h (instruction_assigns hl h.toNat [] (by decide) (by simp) bits)

theorem Assigned.issueFor (hl : Assigned l) (path : List String) (f : Builtin) :
    Assigned (l.issueFor path f) := by
  unfold Lowered.issueFor
  split
  · exact ⟨hl.single, hl.limit, hl.memo⟩
  · exact hl

theorem Lowered.issueFor_instructions (l : Lowered) (path : List String) (f : Builtin) :
    (l.issueFor path f).instructions = l.instructions := by
  unfold issueFor
  split <;> rfl

theorem Lowering.PatternLowered.assigned (h : PatternLowered path p span l b l') (hl : Assigned l) :
    Assigned l' ∧ b.toNat < l'.instructions.length := by
  have hseq : Assigned (l.withSequence path p span) := ⟨hl.single, hl.limit, hl.memo⟩
  cases h with
  | values _ hstep => exact hseq.emits hstep (by decide) (by simp)
  | samples _ hstep hpitch hplay =>
    obtain ⟨hl₁, hs⟩ := hseq.emits hstep (by decide) (by simp)
    obtain ⟨hl₂, hp⟩ := hl₁.constant hpitch
    have hs' := Nat.lt_of_lt_of_le hs hpitch.grows.length_le
    refine hl₂.emits hplay rfl fun c hc => ?_
    simp only [List.mem_cons, List.not_mem_nil, or_false] at hc
    rcases hc with rfl | rfl
    · exact hs'
    · exact hp

theorem Lowering.HostParamLowered.assigned (h : HostParamLowered param l b l') (hl : Assigned l) :
    Assigned l' ∧ b.toNat < l'.instructions.length := by
  cases h with
  | intro hfallback hget =>
    obtain ⟨hl₁, hb⟩ := hl.constant hfallback
    exact hl₁.emits hget rfl (by simpa using hb)

theorem LowersArgs.length_eq (h : LowersArgs R bank site args l bs l') :
    bs.length = args.length := by
  induction args generalizing l bs with
  | nil =>
    cases h
    rfl
  | cons x args ih =>
    cases h with
    | cons _ hs => rw [List.length_cons, List.length_cons, ih hs]

mutual

theorem Lowers.assigned (hR : NormalPatch R n) : Lowers R bank site i l b l' → Assigned l →
    SiteBelow R site l.instructions.length → Assigned l' ∧ b.toNat < l'.instructions.length
  | .memo hmemo, hl, _ => ⟨hl, hl.memo i b hmemo⟩
  | .fresh _ h, hl, hsite => by
    obtain ⟨hl', hb⟩ := h.assigned hR hl hsite
    refine ⟨⟨hl'.single, hl'.limit, fun j c hc => ?_⟩, hb⟩
    rw [List.lookup_cons] at hc
    split at hc
    · cases hc
      exact hb
    · exact hl'.memo j c hc

theorem Makes.assigned (hR : NormalPatch R n) : Makes R bank site i l b l' → Assigned l →
    SiteBelow R site l.instructions.length → Assigned l' ∧ b.toNat < l'.instructions.length
  | .number _ h, hl, _ => hl.constant h
  | .bool _ h, hl, _ => hl.constant h
  | .ident _ hlook hvalue _, hl, hsite => ⟨hl, hsite.value hR hlook hvalue⟩
  | .binary _ hlhs hrhs h, hl, hsite => by
    obtain ⟨hl₁, ha⟩ := hlhs.assigned hR hl hsite
    obtain ⟨hl₂, hb⟩ := hrhs.assigned hR hl₁ (hsite.mono hlhs.grows.length_le)
    have ha' := Nat.lt_of_lt_of_le ha hrhs.grows.length_le
    refine hl₂.emits h (binaryOpcode_operandCount _).symm fun c hc => ?_
    simp only [List.mem_cons, List.not_mem_nil, or_false] at hc
    rcases hc with rfl | rfl
    · exact ha'
    · exact hb
  | .op _ _ hf hk hlen hargs h, hl, hsite => by
    obtain ⟨hl₁, hinputs⟩ := hargs.assigned hR hl hsite
    refine (hl₁.issueFor _ _).emits h ?_ ?_
    · rw [hargs.length_eq, hlen, Builtin.operandCount_eq hf hk]
    · rwa [Lowered.issueFor_instructions]
  | .pattern _ _ _ _ _ h, hl, _ => h.assigned hl
  | .control _ _ _ _ _ h, hl, _ => h.assigned hl
  | .expand _ _ _ hargs _ _ hbody, hl, hsite => by
    obtain ⟨hl₁, hinputs⟩ := hargs.assigned hR hl hsite
    -- The body starts with nothing remembered, and afterwards the old entries are there again.
    obtain ⟨hl₂, hb⟩ := hbody.assigned hR ⟨hl₁.single, hl₁.limit, by simp⟩
      (.expansion hR _ _ _ _ hinputs)
    exact ⟨⟨hl₂.single, hl₂.limit, fun j c hc =>
      Nat.lt_of_lt_of_le (hl₁.memo j c hc) hbody.grows.length_le⟩, hb⟩

theorem LowersArgs.assigned (hR : NormalPatch R n) : LowersArgs R bank site args l bs l' →
    Assigned l → SiteBelow R site l.instructions.length →
    Assigned l' ∧ ∀ b ∈ bs, b.toNat < l'.instructions.length
  | .nil, hl, _ => ⟨hl, by simp⟩
  | .cons h hs, hl, hsite => by
    obtain ⟨hl₁, hb⟩ := h.assigned hR hl hsite
    obtain ⟨hl₂, hbs⟩ := hs.assigned hR hl₁ (hsite.mono h.grows.length_le)
    refine ⟨hl₂, fun c hc => ?_⟩
    rcases List.mem_cons.mp hc with rfl | hc
    · exact Nat.lt_of_lt_of_le hb hs.grows.length_le
    · exact hbs c hc

end

theorem StatementsLowered.assigned (hR : NormalPatch R n)
    (h : StatementsLowered R bank symbols l ids bs l') :
    Assigned l → SiteBelow R ⟨symbols, [], []⟩ l.instructions.length → Assigned l' := by
  induction h with
  | nil => exact fun hl _ => hl
  | define _ _ ih => exact ih
  | @assign i symbols x v l b l₁ is bs l₂ s _ hlowers _ ih =>
    intro hl hsite
    obtain ⟨hl₁, hb⟩ := hlowers.assigned hR hl hsite
    refine ih hl₁ ?_
    obtain ⟨bound, hsym, hbound⟩ := hsite
    dsimp only at hsym
    refine ⟨bound.add (.ofVariable x b), ?_, fun s hs => ?_⟩
    · dsimp only
      rw [hsym, SymbolTable.define_above]
    · rcases Scope.mem_add hs with rfl | hs
      · exact hb
      · exact Nat.lt_of_lt_of_le (hbound s hs) hlowers.grows.length_le
  | expr _ hlowers _ ih =>
    intro hl hsite
    obtain ⟨hl₁, -⟩ := hlowers.assigned hR hl hsite
    exact ih hl₁ (hsite.mono hlowers.grows.length_le)

theorem NormalPatch.assigned (hR : NormalPatch R n) (h : (R.lower bank).success) :
    Assigned (R.walked bank) := by
  refine (hR.lowered h).assigned hR ⟨by simp [SingleAssignment], Nat.zero_le _, by simp⟩
    ⟨[], ?_, by simp⟩
  dsimp only
  rw [hR.symbols]
  exact SymbolTable.push_eq_above R.symbols.globals

/-! ## Compiled programs -/

theorem hasErrors_append (ds ds' : List Diagnostic) :
    hasErrors (ds ++ ds') = (hasErrors ds || hasErrors ds') :=
  List.any_append

theorem hasErrors_relocated (boundary : Boundary) (filename : String) (fs : List Finding) :
    hasErrors (relocated boundary filename fs) = fs.any Finding.isError := by
  unfold hasErrors relocated
  rw [List.any_map]
  rfl

def LinkedSource.patch (linked : LinkedSource) : Patch := (parse (scan linked.text).tokens).patch

/-- The code of a text that every stage accepts. -/
structure Accepted (linked : LinkedSource) (bank : SampleRegistry) (c : Compiled) : Prop where
  resolved : linked.patch.resolve.success
  lowered : (linked.patch.resolve.lower bank).success
  success : c.success
  diagnostics : hasErrors c.diagnostics = false
  bytecode : c.bytecode = Bytecode.encode (linked.patch.resolve.walked bank).instructions
  sequences : c.sequences =
    (linked.patch.resolve.walked bank).sequences.map (.shift linked.boundary)
  samples : c.samples = (linked.patch.resolve.walked bank).samples
  hostParams : c.hostParams = linked.patch.resolve.hostParams

theorem compileLinked_cases (linked : LinkedSource) (filename : String) (bank : SampleRegistry) :
    (∃ ds, hasErrors ds ∧ compileLinked linked filename bank = .failed ds) ∨
      Accepted linked bank (compileLinked linked filename bank) := by
  unfold compileLinked
  dsimp only
  split
  · rename_i h
    exact .inl ⟨_, h, rfl⟩
  split
  · rename_i h
    exact .inl ⟨_, h, rfl⟩
  split
  · rename_i h
    exact .inl ⟨_, h, rfl⟩
  split
  · rename_i h
    exact .inl ⟨_, h, rfl⟩
  · rename_i hresolve hlower
    rw [Bool.not_eq_true] at hresolve hlower
    rw [hasErrors_append, hasErrors_relocated, Bool.or_eq_false_iff] at hresolve
    have hlowered := hlower
    rw [hasErrors_append, hasErrors_relocated, Bool.or_eq_false_iff] at hlowered
    have hsuccess : (linked.patch.resolve.lower bank).success := congrArg not hlowered.2
    refine .inr ⟨congrArg not hresolve.2, hsuccess, rfl, hlower, ?_, rfl, rfl, rfl⟩
    exact congrArg Bytecode.encode (if_pos hsuccess)

/-- All that the stages find in a text, if each goes on whatever those before it found. -/
def Scan.faults (scanned : Scan) (bank : SampleRegistry) : List Finding :=
  let parsed := parse scanned.tokens
  let resolved := parsed.patch.resolve
  scanned.findings ++ parsed.findings ++ resolved.findings ++ (resolved.lower bank).findings

theorem compileLinked_success {linked : LinkedSource} (hscan : scan linked.text = scanned)
    (h : (scanned.faults bank).isEmpty) : (compileLinked linked filename bank).success := by
  simp only [Scan.faults, List.isEmpty_iff, List.append_eq_nil_iff] at h
  obtain ⟨⟨⟨h₁, h₂⟩, h₃⟩, h₄⟩ := h
  subst hscan
  simp [compileLinked, relocated, hasErrors, h₁, h₂, h₃, h₄]

theorem toList_append_eq {s t : String} (hs : s.toList = cs) (ht : t.toList = ds) :
    (s ++ t).toList = cs ++ ds := by
  rw [String.toList_append, hs, ht]

theorem scan_of_toList {source : String} (h : source.toList = cs) : scan source = .ofChars cs := by
  rw [← h, scan]

/-- The characters of the preamble. Joining texts is slow in the kernel, so their characters are
joined instead. -/
def Preamble.characters : { cs // Preamble.standard.toList = cs } :=
  ⟨_, toList_append_eq (toList_append_eq (toList_append_eq (toList_append_eq (toList_append_eq
    (toList_append_eq String.toList_ofList String.toList_ofList) String.toList_ofList)
    String.toList_ofList) String.toList_ofList) String.toList_ofList) String.toList_ofList⟩

theorem LinkedSource.standard_toList (h : source.toList = cs) :
    (LinkedSource.standard source).text.toList = Preamble.characters.1 ++ ['\n'] ++ cs :=
  toList_append_eq (toList_append_eq Preamble.characters.2 String.toList_ofList) h

theorem compile_eq_compileLinked (hsource : source.toList = cs) (hne : cs ≠ []) :
    compile source filename bank = compileLinked (.standard source) filename bank := by
  have hne' : source.isEmpty ≠ true := by
    intro hempty
    obtain rfl := String.isEmpty_iff.mp hempty
    exact hne hsource.symm
  rw [compile, if_neg hne']

theorem compile_success (hsource : source.toList = cs) (hne : cs ≠ [])
    (h : ((Scan.ofChars (Preamble.characters.1 ++ ['\n'] ++ cs)).faults bank).isEmpty) :
    (compile source filename bank).success := by
  rw [compile_eq_compileLinked hsource hne]
  exact compileLinked_success (scan_of_toList (LinkedSource.standard_toList hsource)) h

/-- A compiled program without errors holds single-assignment code; one with errors holds nothing
else. -/
def Compiled.AllOrNothing (c : Compiled) : Prop :=
  if c.success then
    (∀ d ∈ c.diagnostics, d.isError = false) ∧
      ∃ is, Bytecode.decode c.bytecode = .ok is ∧ is.length ≤ 256 ∧ SingleAssignment is
  else
    (∃ d ∈ c.diagnostics, d.isError) ∧ c.bytecode = [] ∧ c.sequences = [] ∧ c.samples = [] ∧
      c.hostParams = []

theorem Compiled.failed_allOrNothing (h : hasErrors ds) : (failed ds).AllOrNothing := by
  unfold AllOrNothing failed
  simpa [hasErrors] using h

theorem Accepted.allOrNothing (h : Accepted linked bank c) : c.AllOrNothing := by
  have hR := parse_resolve_normal _ h.resolved
  have hassigned := hR.assigned h.lowered
  unfold Compiled.AllOrNothing
  rw [if_pos h.success]
  refine ⟨by simpa [hasErrors] using h.diagnostics, _, ?_, hassigned.limit, hassigned.single⟩
  rw [h.bytecode]
  exact Bytecode.decode_encode _

theorem compile_allOrNothing (source filename : String) (bank : SampleRegistry) :
    (compile source filename bank).AllOrNothing := by
  unfold compile
  split
  · exact Compiled.failed_allOrNothing rfl
  · rcases compileLinked_cases (.standard source) filename bank with ⟨ds, hds, heq⟩ | h
    · rw [heq]
      exact Compiled.failed_allOrNothing hds
    · exact h.allOrNothing

theorem compile_accepted (h : (compile source filename bank).success) :
    Accepted (.standard source) bank (compile source filename bank) := by
  unfold compile at h ⊢
  split at h
  · cases h
  · rw [if_neg ‹_›]
    rcases compileLinked_cases (.standard source) filename bank with ⟨ds, -, heq⟩ | haccepted
    · rw [heq] at h
      cases h
    · exact haccepted

end SignalPatch
