import SignalPatch.Proofs.SideTables

/-!
# Identities of stateful instances

Every instance of state is known by the fingerprint of a text: the path of names that leads to it,
with a running number. No text is used twice in a program, so instances with one identity are a
collision of fingerprints.
-/

namespace SignalPatch

open Lowering

/-! ## Numbered paths -/

theorem notMem_toString {c : Char} (hc : c.isDigit = false) (n : Nat) :
    c ∉ (toString n).toList := by
  rw [Nat.toString_eq_ofList_toDigits, String.toList_ofList]
  intro h
  have := Nat.isDigit_of_mem_toDigits (by decide) (by decide) h
  cases this.symm.trans hc

theorem toString_inj {m n : Nat} (h : toString m = toString n) : m = n := by
  rw [Nat.toString_eq_ofList_toDigits, Nat.toString_eq_ofList_toDigits] at h
  have hdigits := congrArg (fun s => Nat.ofDigitChars 10 s.toList 0) h
  simpa using hdigits

theorem append_hash_inj {as bs xs ys : List Char} (hx : '#' ∉ xs) (hy : '#' ∉ ys)
    (h : as ++ '#' :: xs = bs ++ '#' :: ys) : as = bs ∧ xs = ys := by
  induction as generalizing bs with
  | nil =>
    cases bs with
    | nil => simpa using h
    | cons b bs =>
      simp only [List.nil_append, List.cons_append, List.cons.injEq] at h
      exact absurd (h.2 ▸ by simp) hx
  | cons a as ih =>
    cases bs with
    | nil =>
      simp only [List.nil_append, List.cons_append, List.cons.injEq] at h
      exact absurd (h.2 ▸ by simp) hy
    | cons b bs =>
      simp only [List.cons_append, List.cons.injEq] at h
      simpa [h.1] using ih h.2

/-- A number has no `#`, so a numbered name can be taken apart. -/
theorem numbered_inj (h : numbered a m = numbered b n) : a = b ∧ m = n := by
  have h := congrArg String.toList h
  simp only [numbered, String.toList_append, List.append_assoc] at h
  obtain ⟨hname, hdigits⟩ := append_hash_inj (notMem_toString rfl m) (notMem_toString rfl n) h
  exact ⟨String.toList_inj.mp hname, toString_inj (String.toList_inj.mp hdigits)⟩

theorem Lowered.key_numbered (path : List String) (callee : String) (n : Nat) :
    key path (numbered callee n) = numbered (key path callee) n := by
  simp [key, numbered, String.append_assoc]

theorem Lowered.key_inj (h : key path (numbered callee m) = key path' (numbered callee' n)) :
    key path callee = key path' callee' ∧ m = n := by
  rw [key_numbered, key_numbered] at h
  exact numbered_inj h

/-! ## Instances of state -/

def Opcode.keepsState (o : Opcode) : Bool := Builtin.table.any fun f => f.kind = .op o && f.stateful

/-- The identity of the state that an instruction keeps. A step keeps that of its sequence; a player
of samples works on the state of the step before it. -/
def Instruction.stateId? (sequences : List SequenceInit) (ins : Instruction) : Option UInt32 :=
  if ins.opcode = .seqStep then sequences[ins.payload.toNat]?.map (·.stateId)
  else if ins.opcode.keepsState then some ins.payload
  else none

theorem Builtin.keepsState_eq (hf : f ∈ Builtin.table) (hk : f.kind = .op opcode) :
    opcode.keepsState = f.stateful := by
  have h : ∀ f ∈ Builtin.table, (match f.kind with
      | .op o => o.keepsState == f.stateful
      | _ => true) = true := by decide
  simpa [hk] using h f hf

/-- The texts are paths with numbers that were issued, each is used once, and their fingerprints are
the identities in the code. -/
structure Identified (l : Lowered) : Prop where
  issued : ∀ t ∈ l.identified, ∃ path callee n,
    t = Lowered.key path (numbered callee n) ∧ n < l.count path callee
  nodup : l.identified.Nodup
  instances : l.instructions.filterMap (·.stateId? l.sequences) = l.identified.map Text.fingerprint

theorem Identified.empty : Identified {} := ⟨by simp, by simp, rfl⟩

theorem Lowered.count_le_issue (l : Lowered) (path path' : List String) (leaf leaf' : String) :
    l.count path leaf ≤ (l.issue path' leaf').count path leaf := by
  simp [count, issue]

theorem Lowered.count_issue (l : Lowered) (path : List String) (leaf : String) :
    (l.issue path leaf).count path leaf = l.count path leaf + 1 := by
  simp [count, issue]

theorem Identified.fresh (h : Identified l) (path : List String) (callee : String) :
    l.identityText path callee ∉ l.identified := by
  intro hmem
  obtain ⟨path', callee', n, htext, hn⟩ := h.issued _ hmem
  obtain ⟨hkey, rfl⟩ := Lowered.key_inj htext
  rw [Lowered.count, Lowered.count, hkey] at hn
  exact Nat.lt_irrefl _ hn

theorem Identified.identify (h : Identified l) (path : List String) (callee : String)
    (hissued : l'.issued = (l.identify path callee).issued)
    (hidentified : l'.identified = (l.identify path callee).identified)
    (hinstances : l'.instructions.filterMap (·.stateId? l'.sequences) =
      l.instructions.filterMap (·.stateId? l.sequences) ++ [l.identity path callee]) :
    Identified l' := by
  -- The count of this path and name has gone up by one, the others are the same.
  have hcount : ∀ path' leaf, l'.count path' leaf = (l.issue path callee).count path' leaf := by
    intro path' leaf
    rw [Lowered.count, hissued]
    rfl
  refine ⟨?_, ?_, ?_⟩
  · rw [hidentified]
    intro t ht
    rcases List.mem_append.mp ht with ht | ht
    · obtain ⟨path', callee', n, htext, hn⟩ := h.issued t ht
      exact ⟨path', callee', n, htext, (hcount _ _).symm ▸ Nat.lt_of_lt_of_le hn
        (l.count_le_issue ..)⟩
    · rw [List.mem_singleton] at ht
      refine ⟨path, callee, _, ht, ?_⟩
      rw [hcount, Lowered.count_issue]
      exact Nat.lt_succ_self _
  · rw [hidentified]
    refine List.nodup_append.mpr ⟨h.nodup, by simp, ?_⟩
    rintro s hs t ht rfl
    rw [List.mem_singleton] at ht
    exact h.fresh path callee (ht ▸ hs)
  · rw [hinstances, hidentified, h.instances]
    simp [Lowered.identify, Lowered.identity]

theorem Identified.plain (h : Identified l) (happ : l.Appends make b l')
    (hnone : (make b).stateId? l.sequences = none) : Identified l' := by
  obtain ⟨-, -, rfl⟩ := happ
  refine ⟨h.issued, h.nodup, ?_⟩
  simp [hnone, h.instances]

theorem TablesMatch.stateId?_append (h : TablesMatch is ss names ps bank)
    (more : List SequenceInit) :
    is.filterMap (·.stateId? (ss ++ more)) = is.filterMap (·.stateId? ss) := by
  refine List.filterMap_congr fun ins hins => ?_
  unfold Instruction.stateId?
  split
  · rename_i hstep
    obtain ⟨i, hi⟩ := List.getElem?_of_mem hins
    obtain ⟨s, hs, -⟩ := h.players i ins hi hstep
    rw [List.getElem?_append_left (List.getElem?_eq_some_iff.mp hs).1]
  · rfl

theorem Lowering.PatternLowered.identified (h : PatternLowered path p span l b l')
    (hl : Identified l) (htables : Lowered.TablesMatch l ps bank) : Identified l' := by
  have hstep : ∀ {c l₁}, (l.withSequence path p span).Appends
      (instruction .seqStep [] l.sequences.length.toUInt32) c l₁ → Identified l₁ := by
    rintro c l₁ ⟨hroom, -, rfl⟩
    refine hl.identify path "pat" rfl rfl ?_
    have hid : (instruction .seqStep [] l.sequences.length.toUInt32 c).stateId?
        (l.withSequence path p span).sequences = some (l.identity path "pat") := by
      simp [Instruction.stateId?, instruction, htables.toNat_length hroom,
        Lowered.withSequence, initOf]
    have hold := TablesMatch.stateId?_append htables
      [initOf (l.identity path "pat") p span l.samples]
    rw [List.filterMap_append, List.filterMap_cons_some hid]
    exact congrArg (· ++ _) hold
  cases h with
  | values _ happ => exact hstep happ
  | samples _ happ hpitch hplay =>
    exact ((hstep happ).plain hpitch rfl).plain hplay rfl

theorem Move.identified (h : Move R bank l l') (hl : Identified l)
    (htables : Lowered.TablesMatch l R.hostParams bank) : Identified l' := by
  cases h with
  | remember => exact ⟨hl.issued, hl.nodup, hl.instances⟩
  | @expand _ path name =>
    refine ⟨fun t ht => ?_, hl.nodup, hl.instances⟩
    obtain ⟨path', callee, n, htext, hn⟩ := hl.issued t ht
    exact ⟨path', callee, n, htext, Nat.lt_of_lt_of_le hn (l.count_le_issue ..)⟩
  | const happ => exact hl.plain happ rfl
  | @op f opcode _ _ path _ _ hf hkind happ =>
    have hkeeps := Builtin.keepsState_eq hf hkind
    have hne : opcode ≠ .seqStep := by
      rintro rfl
      cases Builtin.isLeaf_eq hf hkind
    -- Only an operation that keeps a state is given an identity, and its payload is that identity.
    cases hstate : f.stateful with
    | false =>
      have hissue : l.issueFor path f = l := by simp [Lowered.issueFor, hstate]
      rw [hissue] at happ
      exact hl.plain happ (by simp [Instruction.stateId?, instruction, hne, hkeeps, hstate])
    | true =>
      obtain ⟨-, -, rfl⟩ := happ
      simp only [Lowered.issueFor, Lowered.payload, hstate, if_true]
      refine hl.identify path f.name rfl rfl ?_
      rw [List.filterMap_append]
      simp [Instruction.stateId?, instruction, hne, hkeeps, hstate, Lowered.identify, Lowered.issue]
  | pattern _ _ hpat => exact hpat.identified hl htables
  | control _ hget =>
    cases hget with
    | intro hfallback hlook => exact (hl.plain hfallback rfl).plain hlook rfl

/-! ## Compiled programs -/

theorem collision_of_nodup {texts : List String} (h : texts.Nodup) {i j : Nat} {id : UInt32}
    (hne : i ≠ j) (hi : (texts.map Text.fingerprint)[i]? = some id)
    (hj : (texts.map Text.fingerprint)[j]? = some id) :
    ∃ s ∈ texts, ∃ t ∈ texts, s ≠ t ∧ Text.fingerprint s = id ∧ Text.fingerprint t = id := by
  simp only [List.getElem?_map, Option.map_eq_some_iff] at hi hj
  obtain ⟨s, hs, rfl⟩ := hi
  obtain ⟨t, ht, heq⟩ := hj
  refine ⟨s, List.mem_of_getElem? hs, t, List.mem_of_getElem? ht, ?_, rfl, heq⟩
  rintro rfl
  exact hne ((List.getElem?_inj (List.getElem?_eq_some_iff.mp hs).1 h).mp (hs.trans ht.symm))

/-- The code is identified by the texts: no text stands twice, their fingerprints are the identities
of the instances in their order, and instances share one only where fingerprints collide. -/
def Compiled.IdentifiedBy (c : Compiled) (texts : List String) : Prop :=
  texts.Nodup ∧ (∀ t ∈ texts, ∃ path callee n, t = Lowered.key path (numbered callee n)) ∧
    ∃ is, Bytecode.decode c.bytecode = .ok is ∧
      is.filterMap (·.stateId? c.sequences) = texts.map Text.fingerprint ∧
      ∀ (i j : Nat) (id : UInt32), i ≠ j → (is.filterMap (·.stateId? c.sequences))[i]? = some id →
        (is.filterMap (·.stateId? c.sequences))[j]? = some id →
        ∃ s ∈ texts, ∃ t ∈ texts, s ≠ t ∧ Text.fingerprint s = id ∧ Text.fingerprint t = id

theorem Instruction.stateId?_shift (boundary : Boundary) (sequences : List SequenceInit)
    (ins : Instruction) :
    ins.stateId? (sequences.map (.shift boundary)) = ins.stateId? sequences := by
  simp only [stateId?, List.getElem?_map, Option.map_map]
  rfl

theorem Accepted.identified (h : Accepted linked bank c) :
    c.IdentifiedBy (linked.patch.resolve.walked bank).identified := by
  have hE := parse_resolve_elaborated _ h.resolved
  have hR := parse_resolve_normal _ h.resolved
  -- that steps refer to sequences that are there is part of the invariant
  obtain ⟨-, hid⟩ := hR.keeps
    (P := fun l => l.TablesMatch linked.patch.resolve.hostParams bank ∧ Identified l)
      hE.read h.lowered
    ⟨.nil _ _, .empty⟩ fun _ _ hmove hl => ⟨hmove.tables hl.1, hmove.identified hl.2 hl.1⟩
  have hinstances : (linked.patch.resolve.walked bank).instructions.filterMap
      (·.stateId? c.sequences) =
        (linked.patch.resolve.walked bank).identified.map Text.fingerprint := by
    simp only [h.sequences, Instruction.stateId?_shift]
    exact hid.instances
  refine ⟨hid.nodup, fun t ht => ?_, _, h.bytecode ▸ Bytecode.decode_encode _, hinstances, ?_⟩
  · obtain ⟨path, callee, n, htext, -⟩ := hid.issued t ht
    exact ⟨path, callee, n, htext⟩
  · rw [hinstances]
    intro i j id hne hi hj
    exact collision_of_nodup hid.nodup hne hi hj

/-- The texts that were fingerprinted for the instances of a program are all different. -/
theorem compile_identified (source filename : String) (bank : SampleRegistry)
    (h : (compile source filename bank).success) :
    (compile source filename bank).IdentifiedBy
      ((LinkedSource.standard source).patch.resolve.walked bank).identified :=
  (compile_accepted h).identified

theorem drumLine_identified :
    (compile drumLine "drums" .drums).success ∧
      (compile drumLine "drums" .drums).IdentifiedBy
        ((LinkedSource.standard drumLine).patch.resolve.walked .drums).identified :=
  ⟨compile_drumLine, compile_identified drumLine "drums" .drums compile_drumLine⟩

end SignalPatch
