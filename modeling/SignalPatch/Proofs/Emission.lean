import SignalPatch.Proofs.SingleAssignment

/-!
# The moves of lowering

Whatever the shape of a patch, the walk over it does only a few things to the code: it remembers
buffers, numbers an expansion, and adds a constant, an operation, a pattern or a host parameter.
`Lowers.moves` says so once; what every move keeps, the whole walk keeps (`NormalPatch.keeps`).
-/

namespace SignalPatch

open Lowering

inductive Move (R : Resolved) (bank : SampleRegistry) : Lowered → Lowered → Prop
  | remember : Move R bank l { l with memo }
  | expand : Move R bank l (l.issue path name)
  | const : l.Appends (Instruction.constant · bits) b l' → Move R bank l l'
  | op : f ∈ Builtin.table → f.kind = .op opcode →
      (l.issueFor path f).Appends (instruction opcode inputs (l.payload path f)) b l' →
      Move R bank l l'
  | pattern : Pattern.parse t s = .ok p → (∀ name ∈ p.sampleNames, bank.contains name) →
      PatternLowered path p span l b l' → Move R bank l l'
  | control : param ∈ R.hostParams → HostParamLowered param l b l' → Move R bank l l'

abbrev Moves (R : Resolved) (bank : SampleRegistry) : Lowered → Lowered → Prop :=
  Relation.ReflTransGen (Move R bank)

theorem BinaryOp.exists_builtin (op : BinaryOp) :
    ∃ f ∈ Builtin.table, f.kind = .op (binaryOpcode op) ∧ f.stateful = false := by
  cases op <;> decide

theorem Move.operator {op : BinaryOp}
    (h : l.Appends (instruction (binaryOpcode op) inputs 0) b l') : Move R bank l l' := by
  obtain ⟨f, hf, hkind, hstate⟩ := op.exists_builtin
  have hissue : l.issueFor [] f = l := by simp [Lowered.issueFor, hstate]
  have hpayload : l.payload [] f = 0 := by simp [Lowered.payload, hstate]
  have h' : (l.issueFor [] f).Appends
      (instruction (binaryOpcode op) inputs (l.payload [] f)) b l' := by
    rwa [hissue, hpayload]
  exact .op hf hkind h'

theorem Moves.expansion (h : Moves R bank { l.issue path name with memo := [] } l') :
    Moves R bank l { l' with memo } :=
  (Relation.ReflTransGen.head .expand (.head .remember h)).tail .remember

mutual

theorem Lowers.moves (hread : PatternsRead R.patch.nodes R.patterns) :
    Lowers R bank site i l b l' → Moves R bank l l'
  | .memo _ => .refl
  | .fresh _ h => (h.moves hread).tail .remember

theorem Makes.moves (hread : PatternsRead R.patch.nodes R.patterns) :
    Makes R bank site i l b l' → Moves R bank l l'
  | .number _ h => .single (.const h)
  | .bool _ h => .single (.const h)
  | .ident _ _ _ _ => .refl
  | .binary _ hlhs hrhs h => ((hlhs.moves hread).trans (hrhs.moves hread)).tail (.operator h)
  | .op _ _ hf hkind _ hargs h => (hargs.moves hread).tail (.op hf hkind h)
  | .pattern _ _ _ hp hknown h => by
    obtain ⟨t, s, -, hparse⟩ := hread _ _ hp
    exact .single (.pattern hparse hknown h)
  | .control _ _ _ _ hparam h => .single (.control (List.mem_of_find?_eq_some hparam) h)
  | .expand _ _ _ hargs _ _ hbody => (hargs.moves hread).trans (hbody.moves hread).expansion

theorem LowersArgs.moves (hread : PatternsRead R.patch.nodes R.patterns) :
    LowersArgs R bank site args l bs l' → Moves R bank l l'
  | .nil => .refl
  | .cons h hs => (h.moves hread).trans (hs.moves hread)

end

theorem StatementsLowered.moves (hread : PatternsRead R.patch.nodes R.patterns)
    (h : StatementsLowered R bank symbols l ids bs l') : Moves R bank l l' := by
  induction h with
  | nil => exact .refl
  | define _ _ ih => exact ih
  | assign _ hv _ ih => exact (hv.moves hread).trans ih
  | expr _ hv _ ih => exact (hv.moves hread).trans ih

theorem Moves.keep {P : Lowered → Prop} (hmove : ∀ l l', Move R bank l l' → P l → P l')
    (h : Moves R bank l l') (hl : P l) : P l' := by
  induction h with
  | refl => exact hl
  | tail _ hlast ih => exact hmove _ _ hlast ih

/-- What holds of no code at all and what every move keeps holds of the code of a whole patch. -/
theorem NormalPatch.keeps {P : Lowered → Prop} (hR : NormalPatch R n)
    (hread : PatternsRead R.patch.nodes R.patterns) (h : (R.lower bank).success) (hstart : P {})
    (hmove : ∀ l l', Move R bank l l' → P l → P l') : P (R.walked bank) :=
  ((hR.lowered h).moves hread).keep hmove hstart

end SignalPatch
