import SignalPatch.Proofs.IssuedPaths
import SignalPatch.Proofs.TwinNodes

/-!
# Two programs, walked in step

Two programs with the same functions have a statement in common. Lowering it adds the same states to
the code of both (`Lowers.inStep`), if at its start corresponding nodes have buffers in both
programs or in neither, and names below the path of the statement were numbered equally often. Every
node keeps this up: the walks number the same names, and enter the bodies of the same functions.
-/

namespace SignalPatch

open Lowering

/-! ## States -/

/-- The operation of an instruction that works on a state, and the identity of the state. A player
of samples works on that of its pattern. -/
def Instruction.state? (sequences : List SequenceInit) (ins : Instruction) :
    Option (Opcode × UInt32) :=
  (if ins.opcode = .samplePlay then some ins.payload else ins.stateId? sequences).map
    (ins.opcode, ·)

/-- From `l` to `l'`, instructions that work on these states were added, and sequences with these
identities. The finished code `F` tells which sequence an instruction plays. -/
def Lowered.Adds (F l l' : Lowered) (states : List (Opcode × UInt32)) (ids : List UInt32) : Prop :=
  ∃ is ss, l'.instructions = l.instructions ++ is ∧ l'.sequences = l.sequences ++ ss ∧
    is.filterMap (·.state? F.sequences) = states ∧ ss.map (·.stateId) = ids

theorem Builtin.op_ne (hf : f ∈ Builtin.table) (hk : f.kind = .op opcode) :
    opcode ≠ .seqStep ∧ opcode ≠ .samplePlay := by
  have h : ∀ f ∈ Builtin.table, f.kind ≠ .op .seqStep ∧ f.kind ≠ .op .samplePlay := by decide
  exact ⟨fun heq => (h f hf).1 (heq ▸ hk), fun heq => (h f hf).2 (heq ▸ hk)⟩

namespace Lowered

theorem Adds.of_eq (hi : l'.instructions = l.instructions) (hs : l'.sequences = l.sequences) :
    Adds F l l' [] [] :=
  ⟨[], [], by simp [hi], by simp [hs], rfl, rfl⟩

theorem Adds.trans (h : Adds F l l' states ids) (h' : Adds F l' l'' states' ids') :
    Adds F l l'' (states ++ states') (ids ++ ids') := by
  obtain ⟨is, ss, hi, hs, rfl, rfl⟩ := h
  obtain ⟨is', ss', hi', hs', rfl, rfl⟩ := h'
  refine ⟨is ++ is', ss ++ ss', ?_, ?_, List.filterMap_append, List.map_append⟩
  · rw [hi', hi, List.append_assoc]
  · rw [hs', hs, List.append_assoc]

theorem Appends.adds_none (h : Appends l make b l') (hstate : (make b).state? F.sequences = none) :
    Adds F l l' [] [] :=
  ⟨[make b], [], by rw [h.next], by rw [h.next, List.append_nil], by simp [hstate], rfl⟩

theorem Appends.adds_some (h : Appends l make b l')
    (hstate : (make b).state? F.sequences = some state) :
    Adds F l l' [state] [] :=
  ⟨[make b], [], by rw [h.next], by rw [h.next, List.append_nil], by simp [hstate], rfl⟩

theorem adds_op (hf : f ∈ Builtin.table) (hk : f.kind = .op opcode)
    (h : (issueFor l path f).Appends (instruction opcode inputs (l.payload path f)) b l') :
    Adds F l l' (if f.stateful then [(opcode, l.identity path f.name)] else []) [] := by
  obtain ⟨hstep, hplay⟩ := Builtin.op_ne hf hk
  have hkeeps := Builtin.keepsState_eq hf hk
  have hissue : Adds F l (l.issueFor path f) [] [] := by
    unfold issueFor
    split <;> exact .of_eq rfl rfl
  cases hstate : f.stateful with
  | false =>
    refine hissue.trans (h.adds_none ?_)
    simp [Instruction.state?, Instruction.stateId?, instruction, hstep, hplay, hkeeps, hstate]
  | true =>
    refine hissue.trans (h.adds_some ?_)
    simp [Instruction.state?, Instruction.stateId?, instruction, hstep, hplay,
      hkeeps, hstate, payload]

theorem adds_step (hpaced : l.sequences.length ≤ l.instructions.length)
    (h : (withSequence l path p span).Appends
      (instruction .seqStep [] l.sequences.length.toUInt32) b l')
    (hF : l'.Grows F) :
    Adds F l l' [(.seqStep, l.identity path "pat")] [l.identity path "pat"] := by
  have hroom : l.instructions.length < bufferLimit := h.room
  obtain ⟨later, hlater⟩ := hF.sequences
  have hsequences : l'.sequences = l.sequences ++
      [initOf (l.identity path "pat") p span l.samples] := by
    rw [h.next]
    rfl
  refine ⟨[instruction .seqStep [] l.sequences.length.toUInt32 b],
    [initOf (l.identity path "pat") p span l.samples], ?_, hsequences, ?_, rfl⟩
  · rw [h.next]
    rfl
  · have hinit : F.sequences[l.sequences.length]? =
        some (initOf (l.identity path "pat") p span l.samples) := by
      rw [← hlater, hsequences]
      simp
    simp [Instruction.state?, Instruction.stateId?, instruction,
      toNat_length hpaced hroom, hinit, initOf]

end Lowered

theorem Lowering.PatternLowered.adds (h : PatternLowered path p span l b l')
    (hpaced : l.sequences.length ≤ l.instructions.length) (hF : l'.Grows F) :
    Lowered.Adds F l l' ((.seqStep, l.identity path "pat") ::
      if p.isSample then [(.samplePlay, l.identity path "pat")] else [])
        [l.identity path "pat"] := by
  cases h with
  | values hp hstep =>
    rw [hp]
    exact Lowered.adds_step hpaced hstep hF
  | samples hp hstep hpitch hplay =>
    rw [hp]
    exact ((Lowered.adds_step hpaced hstep ((hpitch.grows.trans hplay.grows).trans hF)).trans
      (hpitch.adds_none rfl)).trans (hplay.adds_some rfl)

theorem Lowering.HostParamLowered.adds (h : HostParamLowered param l b l') :
    Lowered.Adds F l l' [] [] := by
  cases h with
  | intro hfallback hget => exact (hfallback.adds_none rfl).trans (hget.adds_none rfl)

/-! ## Two walks in step -/

/-- Names below `root` were numbered equally often, and corresponding nodes have buffers in both or
in neither. -/
structure Alike (f : Frame) (root : List String) (l₁ l₂ : Lowered) : Prop where
  counts : ∀ through leaf, l₁.count (root ++ through) leaf = l₂.count (root ++ through) leaf
  memo : ∀ i j, f.Aligned i j → (l₁.memo.lookup i).isSome = (l₂.memo.lookup j).isSome
  paced₁ : l₁.sequences.length ≤ l₁.instructions.length
  paced₂ : l₂.sequences.length ≤ l₂.instructions.length

theorem Lowered.Grows.paced_of (h : Grows l l') (hl : l.sequences.length ≤ l.instructions.length) :
    l'.sequences.length ≤ l'.instructions.length := by
  have := h.paced
  omega

namespace Alike

theorem step (h : Alike f root l₁ l₂) (hi₁ : l₁'.issued = l₁.issued) (hi₂ : l₂'.issued = l₂.issued)
    (hm₁ : l₁'.memo = l₁.memo) (hm₂ : l₂'.memo = l₂.memo) (hg₁ : l₁.Grows l₁')
    (hg₂ : l₂.Grows l₂') :
    Alike f root l₁' l₂' where
  counts := by
    unfold Lowered.count
    rw [hi₁, hi₂]
    exact h.counts
  memo := by
    rw [hm₁, hm₂]
    exact h.memo
  paced₁ := hg₁.paced_of h.paced₁
  paced₂ := hg₂.paced_of h.paced₂

theorem issue (h : Alike f root l₁ l₂) (through : List String) (leaf : String) :
    Alike f root (l₁.issue (root ++ through) leaf) (l₂.issue (root ++ through) leaf) := by
  refine ⟨fun through' leaf' => ?_, h.memo, h.paced₁, h.paced₂⟩
  have hcounts := h.counts through' leaf'
  simp only [Lowered.count, Lowered.issue, List.count_append] at hcounts ⊢
  rw [hcounts]

theorem remember (h : Alike f root l₁ l₂) (ha : f.Aligned i j) (b₁ b₂ : Buffer) :
    Alike f root { l₁ with memo := (i, b₁) :: l₁.memo } { l₂ with memo := (j, b₂) :: l₂.memo } := by
  refine ⟨h.counts, fun i' j' ha' => ?_, h.paced₁, h.paced₂⟩
  have hiff := ha'.level.eq_iff ha.level
  rw [List.lookup_cons, List.lookup_cons]
  by_cases hi : i' = i
  · simp [hi, hiff.mp hi]
  · have hj : j' ≠ j := fun hj => hi (hiff.mpr hj)
    rw [beq_false_of_ne hi, beq_false_of_ne hj]
    exact h.memo i' j' ha'

theorem identity (h : Alike f root l₁ l₂) (through : List String) (leaf : String) :
    l₁.identity (root ++ through) leaf = l₂.identity (root ++ through) leaf := by
  simp only [Lowered.identity, Lowered.identityText, h.counts]

end Alike

/-- Both walks have gone on, and have added the same states. -/
structure InStep (F₁ F₂ : Lowered) (f : Frame) (root : List String) (l₁ l₂ l₁' l₂' : Lowered) :
    Prop where
  alike : Alike f root l₁' l₂'
  adds : ∃ states ids, F₁.Adds l₁ l₁' states ids ∧ F₂.Adds l₂ l₂' states ids

namespace InStep

theorem refl (h : Alike f root l₁ l₂) : InStep F₁ F₂ f root l₁ l₂ l₁ l₂ :=
  ⟨h, [], [], .of_eq rfl rfl, .of_eq rfl rfl⟩

theorem trans (h : InStep F₁ F₂ f root l₁ l₂ l₁' l₂') (h' : InStep F₁ F₂ f root l₁' l₂' l₁'' l₂'') :
    InStep F₁ F₂ f root l₁ l₂ l₁'' l₂'' := by
  obtain ⟨states, ids, h₁, h₂⟩ := h.adds
  obtain ⟨states', ids', h₁', h₂'⟩ := h'.adds
  exact ⟨h'.alike, _, _, h₁.trans h₁', h₂.trans h₂'⟩

theorem plain (h : Alike f root l₁ l₂) (h₁ : l₁.Appends make₁ b₁ l₁') (h₂ : l₂.Appends make₂ b₂ l₂')
    (hstate₁ : (make₁ b₁).state? F₁.sequences = none)
    (hstate₂ : (make₂ b₂).state? F₂.sequences = none) :
    InStep F₁ F₂ f root l₁ l₂ l₁' l₂' :=
  ⟨h.step h₁.issued_eq h₂.issued_eq h₁.memo_eq h₂.memo_eq h₁.grows h₂.grows,
    [], [], h₁.adds_none hstate₁, h₂.adds_none hstate₂⟩

theorem op (h : Alike frm root l₁ l₂) (hf : f ∈ Builtin.table) (hk : f.kind = .op opcode)
    (h₁ : (l₁.issueFor (root ++ through) f).Appends
      (instruction opcode inputs₁ (l₁.payload (root ++ through) f)) b₁ l₁')
    (h₂ : (l₂.issueFor (root ++ through) f).Appends
      (instruction opcode inputs₂ (l₂.payload (root ++ through) f)) b₂ l₂') :
    InStep F₁ F₂ frm root l₁ l₂ l₁' l₂' := by
  refine ⟨?_, _, _, Lowered.adds_op hf hk h₁, ?_⟩
  · have hissue : Alike frm root (l₁.issueFor (root ++ through) f)
        (l₂.issueFor (root ++ through) f) := by
      unfold Lowered.issueFor
      split
      · have h' := h.issue through f.name
        exact ⟨h'.counts, h'.memo, h'.paced₁, h'.paced₂⟩
      · exact h
    exact hissue.step h₁.issued_eq h₂.issued_eq h₁.memo_eq h₂.memo_eq h₁.grows h₂.grows
  · rw [h.identity]
    exact Lowered.adds_op hf hk h₂

theorem pattern (h : Alike f root l₁ l₂) (h₁ : PatternLowered (root ++ through) p span₁ l₁ b₁ l₁')
    (h₂ : PatternLowered (root ++ through) p span₂ l₂ b₂ l₂') (hF₁ : l₁'.Grows F₁)
    (hF₂ : l₂'.Grows F₂) :
    InStep F₁ F₂ f root l₁ l₂ l₁' l₂' := by
  refine ⟨?_, _, _, h₁.adds h.paced₁ hF₁, ?_⟩
  · exact (h.issue through "pat").step h₁.issued_eq h₂.issued_eq h₁.memo_eq h₂.memo_eq
      (h₁.grows.of_eq rfl rfl) (h₂.grows.of_eq rfl rfl)
  · rw [h.identity]
    exact h₂.adds h.paced₂ hF₂

theorem control (h : Alike f root l₁ l₂) (h₁ : HostParamLowered param₁ l₁ b₁ l₁')
    (h₂ : HostParamLowered param₂ l₂ b₂ l₂') : InStep F₁ F₂ f root l₁ l₂ l₁' l₂' :=
  ⟨h.step h₁.issued_eq h₂.issued_eq h₁.memo_eq h₂.memo_eq h₁.grows h₂.grows, [],
    [], h₁.adds, h₂.adds⟩

end InStep

/-! ## Nodes by their kind -/

namespace Makes

variable {R : Resolved} {i : NodeId}

theorem of_literal (h : Makes R bank site i l b l') (hnode : R.patch.nodes[i]? = some ⟨kind, s⟩)
    (hlit : kind.isLiteral) : ∃ bits, l.Appends (Instruction.constant · bits) b l' := by
  cases h with
  | number _ h | bool _ h => exact ⟨_, h⟩
  | _ h =>
    cases hnode.symm.trans h
    cases hlit

theorem of_ident (h : Makes R bank site i l b l') (hnode : R.patch.nodes[i]? = some ⟨.ident x, s⟩) :
    l' = l := by
  cases h with
  | ident => rfl
  | _ h => cases hnode.symm.trans h

theorem of_binary (h : Makes R bank site i l c l')
    (hnode : R.patch.nodes[i]? = some ⟨.binary operator lhs rhs, s⟩) :
    ∃ a b l₁ l₂, Lowers R bank site lhs l a l₁ ∧ Lowers R bank site rhs l₁ b l₂ ∧
      l₂.Appends (instruction (binaryOpcode operator) [a, b] 0) c l' := by
  cases h with
  | binary h hl hr happ =>
    cases hnode.symm.trans h
    exact ⟨_, _, _, _, hl, hr, happ⟩
  | _ h => cases hnode.symm.trans h

theorem of_call (h : Makes R bank site i l b l')
    (hnode : R.patch.nodes[i]? = some ⟨.call callee args, s⟩) :
    ∃ m params, (site.symbols.lookup callee).map Symbol.meaning = some m ∧
      m.signature? = some params := by
  cases h with
  | op h hm | pattern h hm | control h hm | expand h hm =>
    cases hnode.symm.trans h
    exact ⟨_, _, hm, rfl⟩
  | _ h => cases hnode.symm.trans h

section

variable (hnode : R.patch.nodes[i]? = some ⟨.call callee args, s⟩)

include hnode

theorem of_op (h : Makes R bank site i l b l')
    (hm : (site.symbols.lookup callee).map Symbol.meaning = some (.builtin f))
    (hk : f.kind = .op opcode) :
    ∃ inputs l₁, LowersArgs R bank site args l inputs l₁ ∧
      (l₁.issueFor site.path f).Appends (instruction opcode inputs (l₁.payload site.path f))
        b l' := by
  cases h with
  | op h hm' _ hk' _ hargs happ =>
    cases hnode.symm.trans h
    cases hm.symm.trans hm'
    cases hk.symm.trans hk'
    exact ⟨_, _, hargs, happ⟩
  | pattern h hm' hk' | control h hm' hk' =>
    cases hnode.symm.trans h
    cases hm.symm.trans hm'
    cases hk.symm.trans hk'
  | expand h hm' =>
    cases hnode.symm.trans h
    cases hm.symm.trans hm'
  | _ h => cases hnode.symm.trans h

theorem of_pattern (h : Makes R bank site i l b l')
    (hm : (site.symbols.lookup callee).map Symbol.meaning = some (.builtin f))
    (hk : f.kind = .pattern) :
    ∃ text rest p, args = text :: rest ∧ R.patterns.lookup text.value = some p ∧
      PatternLowered site.path p s l b l' := by
  cases h with
  | pattern h hm' _ hp _ hpat =>
    cases hnode.symm.trans h
    exact ⟨_, _, _, rfl, hp, hpat⟩
  | op h hm' _ hk' | control h hm' hk' =>
    cases hnode.symm.trans h
    cases hm.symm.trans hm'
    cases hk.symm.trans hk'
  | expand h hm' =>
    cases hnode.symm.trans h
    cases hm.symm.trans hm'
  | _ h => cases hnode.symm.trans h

theorem of_control (h : Makes R bank site i l b l')
    (hm : (site.symbols.lookup callee).map Symbol.meaning = some (.builtin f))
    (hk : f.kind = .control kind) :
    ∃ param, HostParamLowered param l b l' := by
  cases h with
  | control _ _ _ _ _ hget => exact ⟨_, hget⟩
  | op h hm' _ hk' | pattern h hm' hk' =>
    cases hnode.symm.trans h
    cases hm.symm.trans hm'
    cases hk.symm.trans hk'
  | expand h hm' =>
    cases hnode.symm.trans h
    cases hm.symm.trans hm'
  | _ h => cases hnode.symm.trans h

theorem of_function (h : Makes R bank site i l b l')
    (hm : (site.symbols.lookup callee).map Symbol.meaning = some (.function f)) :
    ∃ inputs l₁ params body s' l₂, LowersArgs R bank site args l inputs l₁ ∧
      R.patch.nodes[f.definition]? = some ⟨.define f.name params body, s'⟩ ∧
      Lowers R bank (site.expansion R.symbols f.name (l₁.count site.path f.name) params inputs) body
        { l₁.issue site.path f.name with memo := [] } b l₂ ∧ l' = { l₂ with memo := l₁.memo } := by
  cases h with
  | expand h hm' _ hargs hdef _ hbody =>
    cases hnode.symm.trans h
    cases hm.symm.trans hm'
    exact ⟨_, _, _, _, _, _, hargs, hdef, hbody, rfl⟩
  | op h hm' | pattern h hm' | control h hm' =>
    cases hnode.symm.trans h
    cases hm.symm.trans hm'
  | _ h => cases hnode.symm.trans h

end

end Makes

/-! ## Corresponding nodes are lowered in step -/

/-- What two resolved programs with the same functions have in common. -/
structure TwinPrograms (P₁ P₂ : Arena) (R₁ R₂ : Resolved) : Prop where
  normal₁ : NormalPatch R₁ P₁.size
  normal₂ : NormalPatch R₂ P₂.size
  read₁ : PatternsRead R₁.patch.nodes R₁.patterns
  read₂ : PatternsRead R₂.patch.nodes R₂.patterns
  meanings : ∀ {callee m₁ m₂}, R₁.Calls callee m₁ → R₂.Calls callee m₂ →
    TwinMeanings P₁ P₂ R₁ R₂ m₁ m₂
  bodies : ∀ {f₁ f₂ params₁ params₂ body₁ body₂ s₁ s₂}, TwinFunctions P₁ P₂ R₁ R₂ f₁ f₂ →
    R₁.patch.nodes[f₁.definition]? = some ⟨.define f₁.name params₁ body₁, s₁⟩ →
    R₂.patch.nodes[f₂.definition]? = some ⟨.define f₂.name params₂ body₂, s₂⟩ →
    ∃ c₁ c₂, Twins R₁.patch.nodes R₂.patch.nodes (frame P₁ P₂ c₁ c₂) body₁ body₂

structure TwinSites (R₁ R₂ : Resolved) (root : List String) (site₁ site₂ : Site) : Prop where
  values₁ : site₁.SeesValues R₁
  values₂ : site₂.SeesValues R₂
  path : ∃ through, site₁.path = root ++ through ∧ site₂.path = root ++ through

theorem TwinPrograms.called (hT : TwinPrograms P₁ P₂ R₁ R₂)
    (hsite : TwinSites R₁ R₂ root site₁ site₂)
    (hm₁ : (site₁.symbols.lookup callee).map Symbol.meaning = some m₁)
    (hsig₁ : m₁.signature? = some params₁) {j : NodeId} (h₂ : Makes R₂ bank site₂ j l b l')
    (hnode₂ : R₂.patch.nodes[j]? = some ⟨.call callee args, s⟩) :
    ∃ m₂, (site₂.symbols.lookup callee).map Symbol.meaning = some m₂ ∧
      TwinMeanings P₁ P₂ R₁ R₂ m₁ m₂ := by
  obtain ⟨m₂, params₂, hm₂, hsig₂⟩ := h₂.of_call hnode₂
  exact ⟨m₂, hm₂, hT.meanings (hsite.values₁.calls hm₁ hsig₁) (hsite.values₂.calls hm₂ hsig₂)⟩

theorem TwinPrograms.pattern (hT : TwinPrograms P₁ P₂ R₁ R₂)
    (ht : Twins R₁.patch.nodes R₂.patch.nodes (frame P₁ P₂ c₁ c₂) i j)
    (hp₁ : R₁.patterns.lookup i = some p₁) (hp₂ : R₂.patterns.lookup j = some p₂) : p₁ = p₂ := by
  obtain ⟨t, s, hnode₁, hparse₁⟩ := hT.read₁ _ _ hp₁
  obtain ⟨t', s', hnode₂, hparse₂⟩ := hT.read₂ _ _ hp₂
  obtain ⟨kind, s'', hnode, -, hkind⟩ := ht.of_literal hnode₁ rfl
  cases hnode.symm.trans hnode₂
  rcases ht.aligned_or_fresh with ha | ⟨-, -, ⟨v, s, hnumber⟩, -⟩
  · cases hkind ha
    have h₁ := Pattern.ofChars_of_parse hparse₁
    rw [Pattern.ofChars_of_parse hparse₂] at h₁
    exact (Except.ok.inj h₁).symm
  · cases hnode₁.symm.trans hnumber

theorem binary_state? (op : BinaryOp) (sequences : List SequenceInit) (inputs : List Buffer)
    (b : Buffer) :
    (instruction (binaryOpcode op) inputs 0 b).state? sequences = none := by
  obtain ⟨f, hf, hk, hstateful⟩ := op.exists_builtin
  obtain ⟨hstep, hplay⟩ := Builtin.op_ne hf hk
  have hkeeps := Builtin.keepsState_eq hf hk
  simp [Instruction.state?, Instruction.stateId?, instruction, hstep, hplay, hkeeps, hstateful]

theorem Lowers.number {F : Lowered} (h : Lowers R bank site i l b l')
    (hnode : R.patch.nodes[i]? = some ⟨.number v, s⟩) :
    l'.issued = l.issued ∧ F.Adds l l' [] [] ∧ ∀ k ≠ i, l'.memo.lookup k = l.memo.lookup k := by
  cases h with
  | memo => exact ⟨rfl, .of_eq rfl rfl, fun _ _ => rfl⟩
  | fresh _ hmake =>
    obtain ⟨bits, happ⟩ := hmake.of_literal hnode rfl
    refine ⟨happ.issued_eq, (happ.adds_none rfl).trans (.of_eq rfl rfl), fun k hk => ?_⟩
    rw [List.lookup_cons, beq_false_of_ne hk, happ.memo_eq]

/-- Literals that resolution made may have a buffer on one side only. -/
theorem InStep.fresh {f : Frame} (h : Alike f root l₁ l₂) (hi : f.size₁ ≤ i) (hj : f.size₂ ≤ j)
    (h₁ : Lowers R₁ bank site₁ i l₁ b₁ l₁') (hnode₁ : R₁.patch.nodes[i]? = some ⟨.number v₁, s₁⟩)
    (h₂ : Lowers R₂ bank site₂ j l₂ b₂ l₂') (hnode₂ : R₂.patch.nodes[j]? = some ⟨.number v₂, s₂⟩) :
    InStep F₁ F₂ f root l₁ l₂ l₁' l₂' := by
  obtain ⟨hissued₁, hadds₁, hmemo₁⟩ := h₁.number (F := F₁) hnode₁
  obtain ⟨hissued₂, hadds₂, hmemo₂⟩ := h₂.number (F := F₂) hnode₂
  refine ⟨⟨?_, fun k k' ha => ?_, h₁.grows.paced_of h.paced₁, h₂.grows.paced_of h.paced₂⟩,
    [], [], hadds₁, hadds₂⟩
  · unfold Lowered.count
    rw [hissued₁, hissued₂]
    exact h.counts
  · rw [hmemo₁ k (Nat.ne_of_lt (Nat.lt_of_lt_of_le ha.lt₁ hi)),
      hmemo₂ k' (Nat.ne_of_lt (Nat.lt_of_lt_of_le ha.lt₂ hj))]
    exact h.memo k k' ha

section

variable {root : List String} {site₁ site₂ : Site} {name₁ name₂ : String} {l₁ l₂ : Lowered}

theorem TwinSites.expansion (h : TwinSites R₁ R₂ root site₁ site₂) (hT : TwinPrograms P₁ P₂ R₁ R₂)
    (hl : Alike f root l₁ l₂) (hname : name₁ = name₂) (params₁ params₂ : List Parameter)
    (inputs₁ inputs₂ : List Buffer) :
    TwinSites R₁ R₂ root
      (site₁.expansion R₁.symbols name₁ (l₁.count site₁.path name₁) params₁ inputs₁)
      (site₂.expansion R₂.symbols name₂ (l₂.count site₂.path name₂) params₂ inputs₂) := by
  subst hname
  obtain ⟨through, hpath₁, hpath₂⟩ := h.path
  refine ⟨hT.normal₁.seesValues_expansion .., hT.normal₂.seesValues_expansion ..,
    through ++ [numbered name₁ (l₁.count site₁.path name₁)], ?_, ?_⟩
  · simp only [Site.expansion, hpath₁, List.append_assoc]
  · simp only [Site.expansion, hpath₁, hpath₂, List.append_assoc, hl.counts]

theorem Alike.enter (h : Alike f root l₁ l₂) (hsite : TwinSites R₁ R₂ root site₁ site₂)
    (hname : name₁ = name₂) (f' : Frame) :
    Alike f' root { l₁.issue site₁.path name₁ with memo := [] }
      { l₂.issue site₂.path name₂ with memo := [] } := by
  subst hname
  obtain ⟨through, hpath₁, hpath₂⟩ := hsite.path
  have h' := h.issue through name₁
  rw [hpath₁, hpath₂]
  exact ⟨h'.counts, fun _ _ _ => rfl, h'.paced₁, h'.paced₂⟩

theorem InStep.leave (h : InStep F₁ F₂ f' root { l₁.issue path₁ name₁ with memo := [] }
      { l₂.issue path₂ name₂ with memo := [] } l₁' l₂') (hl : Alike f root l₁ l₂) :
    InStep F₁ F₂ f root l₁ l₂ { l₁' with memo := l₁.memo } { l₂' with memo := l₂.memo } :=
  ⟨⟨h.alike.counts, hl.memo, h.alike.paced₁, h.alike.paced₂⟩, h.adds⟩

end

mutual

theorem Lowers.inStep (hT : TwinPrograms P₁ P₂ R₁ R₂) : Lowers R₁ bank site₁ i l₁ b₁ l₁' →
    Lowers R₂ bank site₂ j l₂ b₂ l₂' → Twins R₁.patch.nodes R₂.patch.nodes (frame P₁ P₂ c₁ c₂) i j →
    TwinSites R₁ R₂ root site₁ site₂ → Alike (frame P₁ P₂ c₁ c₂) root l₁ l₂ → l₁'.Grows F₁ →
    l₂'.Grows F₂ → InStep F₁ F₂ (frame P₁ P₂ c₁ c₂) root l₁ l₂ l₁' l₂'
  | .memo hmemo, h₂, ht, _, hl, _, _ => by
    rcases ht.aligned_or_fresh with ha | ⟨hi, hj, ⟨_, _, hnode₁⟩, _, _, hnode₂⟩
    · cases h₂ with
      | memo => exact .refl hl
      | fresh hnone =>
        have := hl.memo _ _ ha
        simp [hmemo, hnone] at this
    · have h₁ : Lowers R₁ bank site₁ _ _ _ _ := .memo hmemo
      exact .fresh hl hi hj h₁ hnode₁ h₂ hnode₂
  | .fresh hnone h, h₂, ht, hsite, hl, hF₁, hF₂ => by
    rcases ht.aligned_or_fresh with ha | ⟨hi, hj, ⟨_, _, hnode₁⟩, _, _, hnode₂⟩
    · cases h₂ with
      | memo hmemo =>
        have := hl.memo _ _ ha
        simp [hmemo, hnone] at this
      | fresh _ h₂ =>
        have hstep := h.inStep hT h₂ ht ha hsite hl (hF₁.of_eq rfl rfl) (hF₂.of_eq rfl rfl)
        exact hstep.trans ⟨hstep.alike.remember ha _ _, [], [], .of_eq rfl rfl, .of_eq rfl rfl⟩
    · exact .fresh hl hi hj (.fresh hnone h) hnode₁ h₂ hnode₂

theorem Makes.inStep (hT : TwinPrograms P₁ P₂ R₁ R₂) : Makes R₁ bank site₁ i l₁ b₁ l₁' →
    Makes R₂ bank site₂ j l₂ b₂ l₂' → Twins R₁.patch.nodes R₂.patch.nodes (frame P₁ P₂ c₁ c₂) i j →
    (frame P₁ P₂ c₁ c₂).Aligned i j →
    TwinSites R₁ R₂ root site₁ site₂ → Alike (frame P₁ P₂ c₁ c₂) root l₁ l₂ → l₁'.Grows F₁ →
    l₂'.Grows F₂ → InStep F₁ F₂ (frame P₁ P₂ c₁ c₂) root l₁ l₂ l₁' l₂'
  | .number hnode h, h₂, ht, _, _, hl, _, _ | .bool hnode h, h₂, ht, _, _, hl, _, _ => by
    obtain ⟨_, _, hnode₂, hlit, -⟩ := ht.of_literal hnode rfl
    obtain ⟨_, h₂⟩ := h₂.of_literal hnode₂ hlit
    exact .plain hl h h₂ rfl rfl
  | .ident hnode _ _ _, h₂, ht, _, _, hl, _, _ => by
    obtain ⟨_, hnode₂⟩ := ht.of_ident hnode
    obtain rfl := h₂.of_ident hnode₂
    exact .refl hl
  | .binary hnode hlhs hrhs h, h₂, ht, _, hsite, hl, hF₁, hF₂ => by
    obtain ⟨_, _, _, hnode₂, htl, htr⟩ := ht.of_binary hnode
    obtain ⟨_, _, _, _, hlhs₂, hrhs₂, h₂⟩ := h₂.of_binary hnode₂
    have hF₁' := h.grows.trans hF₁
    have hF₂' := h₂.grows.trans hF₂
    have hstep₁ := hlhs.inStep hT hlhs₂ htl hsite hl (hrhs.grows.trans hF₁')
      (hrhs₂.grows.trans hF₂')
    have hstep₂ := hrhs.inStep hT hrhs₂ htr hsite hstep₁.alike hF₁' hF₂'
    exact (hstep₁.trans hstep₂).trans
      (.plain hstep₂.alike h h₂ (binary_state? ..) (binary_state? ..))
  | .op hnode hm hf hk _ hargs h, h₂, ht, _, hsite, hl, hF₁, hF₂ => by
    obtain ⟨_, _, hnode₂, hts⟩ := ht.of_call hnode
    obtain ⟨_, hm₂, ⟨⟩⟩ := hT.called hsite hm rfl h₂ hnode₂
    obtain ⟨_, _, hargs₂, h₂⟩ := h₂.of_op hnode₂ hm₂ hk
    obtain ⟨through, hpath₁, hpath₂⟩ := hsite.path
    have hF₁' := ((Lowered.grows_issueFor _ _ _).trans h.grows).trans hF₁
    have hF₂' := ((Lowered.grows_issueFor _ _ _).trans h₂.grows).trans hF₂
    have hstep := hargs.inStep hT hargs₂ hts hsite hl hF₁' hF₂'
    rw [hpath₁] at h
    rw [hpath₂] at h₂
    exact hstep.trans (.op hstep.alike hf hk h h₂)
  | .pattern hnode hm hk hp _ h, h₂, ht, _, hsite, hl, hF₁, hF₂ => by
    obtain ⟨_, _, hnode₂, hts⟩ := ht.of_call hnode
    obtain ⟨_, hm₂, ⟨⟩⟩ := hT.called hsite hm rfl h₂ hnode₂
    obtain ⟨_, _, _, rfl, hp₂, h₂⟩ := h₂.of_pattern hnode₂ hm₂ hk
    obtain ⟨through, hpath₁, hpath₂⟩ := hsite.path
    cases hts with
    | cons htext _ =>
      cases hT.pattern htext hp hp₂
      rw [hpath₁] at h
      rw [hpath₂] at h₂
      exact .pattern hl h h₂ hF₁ hF₂
  | .control hnode hm hk _ _ h, h₂, ht, _, hsite, hl, _, _ => by
    obtain ⟨_, _, hnode₂, -⟩ := ht.of_call hnode
    obtain ⟨_, hm₂, ⟨⟩⟩ := hT.called hsite hm rfl h₂ hnode₂
    obtain ⟨_, h₂⟩ := h₂.of_control hnode₂ hm₂ hk
    exact .control hl h h₂
  | .expand hnode hm _ hargs hdef _ hbody, h₂, ht, _, hsite, hl, hF₁, hF₂ => by
    obtain ⟨_, _, hnode₂, hts⟩ := ht.of_call hnode
    obtain ⟨_, hm₂, htwin⟩ := hT.called hsite hm rfl h₂ hnode₂
    cases htwin with
    | function hf =>
      obtain ⟨_, _, _, _, _, _, hargs₂, hdef₂, hbody₂, rfl⟩ := h₂.of_function hnode₂ hm₂
      have hF₁' := hbody.grows.trans (hF₁.of_eq rfl rfl)
      have hF₂' := hbody₂.grows.trans (hF₂.of_eq rfl rfl)
      have hstep := hargs.inStep hT hargs₂ hts hsite hl (hF₁'.of_eq rfl rfl) (hF₂'.of_eq rfl rfl)
      -- the bodies stand elsewhere than the calls: they are twins in a frame of their own
      obtain ⟨c₁', c₂', htbody⟩ := hT.bodies hf hdef hdef₂
      have hin := hbody.inStep hT hbody₂ htbody (hsite.expansion hT hstep.alike hf.name _ _ _ _)
        (hstep.alike.enter hsite hf.name _) (hF₁.of_eq rfl rfl) (hF₂.of_eq rfl rfl)
      exact hstep.trans (hin.leave hstep.alike)

theorem LowersArgs.inStep (hT : TwinPrograms P₁ P₂ R₁ R₂) :
    LowersArgs R₁ bank site₁ args₁ l₁ bs₁ l₁' →
    LowersArgs R₂ bank site₂ args₂ l₂ bs₂ l₂' →
    List.Forall₂
      (fun a a' => Twins R₁.patch.nodes R₂.patch.nodes (frame P₁ P₂ c₁ c₂) a.value a'.value)
      args₁ args₂ →
    TwinSites R₁ R₂ root site₁ site₂ → Alike (frame P₁ P₂ c₁ c₂) root l₁ l₂ → l₁'.Grows F₁ →
    l₂'.Grows F₂ → InStep F₁ F₂ (frame P₁ P₂ c₁ c₂) root l₁ l₂ l₁' l₂'
  | .nil, h₂, hts, _, hl, _, _ => by
    cases hts
    cases h₂
    exact .refl hl
  | .cons h hs, h₂, hts, hsite, hl, hF₁, hF₂ => by
    cases hts with
    | cons ht hts =>
      cases h₂ with
      | cons h₂ hs₂ =>
        have hstep := h.inStep hT h₂ ht hsite hl (hs.grows.trans hF₁) (hs₂.grows.trans hF₂)
        exact hstep.trans (hs.inStep hT hs₂ hts hsite hstep.alike hF₁ hF₂)

end

end SignalPatch
