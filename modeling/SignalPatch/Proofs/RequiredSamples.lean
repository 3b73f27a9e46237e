import SignalPatch.Proofs.LoweringAdequacy
import SignalPatch.Proofs.SideTables

/-!
# A bank matters through the samples needed

Lowering asks a bank for nothing but the samples that a pattern plays, and those end up among the
samples of the program. So code that one bank allows, any other bank with these samples allows, too
(`Lowers.inBank`); and if two banks allow a patch, so does the bank of the samples of both, which
gives either code.
-/

namespace SignalPatch

open Lowering

/-! ## Samples are only added -/

theorem Lowered.withSequence_samples (l : Lowered) (path : List String) (p : Pattern)
    (span : Span) :
    (l.withSequence path p span).samples = p.sampleNames.foldl need l.samples := by
  simp [withSequence, soundNumbers_samples, Pattern.sampleNames, List.filterMap_map]

theorem Lowered.Appends.samples_eq (h : Appends l make b l') : l'.samples = l.samples := by
  rw [h.next]

theorem Lowered.issueFor_samples (l : Lowered) (path : List String) (f : Builtin) :
    (l.issueFor path f).samples = l.samples := by
  unfold issueFor
  split <;> rfl

theorem Lowering.PatternLowered.samples_eq (h : PatternLowered path p span l b l') :
    l'.samples = p.sampleNames.foldl need l.samples := by
  rw [← l.withSequence_samples path p span]
  cases h with
  | values _ hstep => exact hstep.samples_eq
  | samples _ hstep hpitch hplay =>
    exact (hplay.samples_eq.trans hpitch.samples_eq).trans hstep.samples_eq

theorem Lowering.HostParamLowered.samples_eq (h : HostParamLowered param l b l') :
    l'.samples = l.samples := by
  cases h with
  | intro hfallback hget => exact hget.samples_eq.trans hfallback.samples_eq

mutual

theorem Lowers.samples_subset : Lowers R bank site i l b l' → l.samples ⊆ l'.samples
  | .memo _ => List.Subset.refl _
  | .fresh _ h => h.samples_subset

theorem Makes.samples_subset : Makes R bank site i l b l' → l.samples ⊆ l'.samples
  | .number _ h | .bool _ h => h.samples_eq ▸ List.Subset.refl _
  | .ident _ _ _ _ => List.Subset.refl _
  | .binary _ hlhs hrhs h =>
    h.samples_eq ▸ List.Subset.trans hlhs.samples_subset hrhs.samples_subset
  | .op _ _ _ _ _ hargs h => by
    rw [h.samples_eq, Lowered.issueFor_samples]
    exact hargs.samples_subset
  | .pattern _ _ _ _ _ h => h.samples_eq ▸ (prefix_foldl_need _ _).subset
  | .control _ _ _ _ _ h => h.samples_eq ▸ List.Subset.refl _
  | .expand _ _ _ hargs _ _ hbody => List.Subset.trans hargs.samples_subset hbody.samples_subset

theorem LowersArgs.samples_subset : LowersArgs R bank site args l bs l' → l.samples ⊆ l'.samples
  | .nil => List.Subset.refl _
  | .cons h hs => List.Subset.trans h.samples_subset hs.samples_subset

end

/-! ## Another bank -/

def Lowered.Supplied (l : Lowered) (bank : SampleRegistry) : Prop :=
  ∀ name ∈ l.samples, bank.contains name

theorem Lowered.Supplied.of_subset (h : Supplied l' bank) (hsub : l.samples ⊆ l'.samples) :
    Supplied l bank :=
  fun name hname => h name (hsub hname)

mutual

/-- A bank with the samples that the code needs in the end allows every step to it. -/
theorem Lowers.inBank (hbank : Lowered.Supplied l' bank') :
    Lowers R bank site i l b l' → Lowers R bank' site i l b l'
  | .memo hmemo => .memo hmemo
  | .fresh hmemo h => .fresh hmemo (h.inBank hbank)

theorem Makes.inBank (hbank : Lowered.Supplied l' bank') :
    Makes R bank site i l b l' → Makes R bank' site i l b l'
  | .number hnode h => .number hnode h
  | .bool hnode h => .bool hnode h
  | .ident hnode hlook hvalue hbuffer => .ident hnode hlook hvalue hbuffer
  | .binary hnode hlhs hrhs h =>
    have hbank₂ := hbank.of_subset (h.samples_eq ▸ List.Subset.refl _)
    .binary hnode (hlhs.inBank (hbank₂.of_subset hrhs.samples_subset)) (hrhs.inBank hbank₂) h
  | .op hnode hm hf hk hlen hargs h =>
    have hbank₁ :=
      hbank.of_subset (by rw [h.samples_eq, Lowered.issueFor_samples]; exact List.Subset.refl _)
    .op hnode hm hf hk hlen (hargs.inBank hbank₁) h
  | .pattern hnode hm hk hp _ h =>
    have hknown := fun name hname => hbank name (by
      rw [h.samples_eq]
      exact mem_foldl_need.mpr (.inr hname))
    .pattern hnode hm hk hp hknown h
  | .control hnode hm hk htext hparam h => .control hnode hm hk htext hparam h
  | .expand hnode hm hnew hargs hdef hlen hbody =>
    .expand hnode hm hnew (hargs.inBank (hbank.of_subset hbody.samples_subset)) hdef hlen
      (hbody.inBank hbank)

theorem LowersArgs.inBank (hbank : Lowered.Supplied l' bank') :
    LowersArgs R bank site args l bs l' → LowersArgs R bank' site args l bs l'
  | .nil => .nil
  | .cons h hs => .cons (h.inBank (hbank.of_subset hs.samples_subset)) (hs.inBank hbank)

end

theorem StatementsLowered.samples_subset (h : StatementsLowered R bank t l ids bs l') :
    l.samples ⊆ l'.samples := by
  induction h with
  | nil => exact List.Subset.refl _
  | define _ _ ih => exact ih
  | assign _ h _ ih | expr _ h _ ih => exact List.Subset.trans h.samples_subset ih

theorem StatementsLowered.inBank (h : StatementsLowered R bank t l ids bs l')
    (hbank : Lowered.Supplied l' bank') : StatementsLowered R bank' t l ids bs l' := by
  induction h with
  | nil => exact .nil
  | define hnode _ ih => exact .define hnode (ih hbank)
  | assign hnode h hrest ih =>
    exact .assign hnode (h.inBank (hbank.of_subset hrest.samples_subset)) (ih hbank)
  | expr hkind h hrest ih =>
    exact .expr hkind (h.inBank (hbank.of_subset hrest.samples_subset)) (ih hbank)

/-! ## Patches -/

theorem Resolved.lower_congr {R : Resolved} (h : R.walked bank' = R.walked bank) :
    R.lower bank' = R.lower bank := by
  unfold walked at h
  have hrun : (lowerStatements R bank' R.depth R.symbols.push R.patch.statements).run {} =
      (lowerStatements R bank R.depth R.symbols.push R.patch.statements).run {} :=
    Prod.ext (Subsingleton.elim _ _) h
  unfold lower
  rw [hrun]

theorem NormalPatch.lower_eq (hR : NormalPatch R n) (h : (R.lower bank).success)
    (hbank : (R.walked bank).Supplied bank') : R.lower bank' = R.lower bank :=
  Resolved.lower_congr (hR.walked_eq ((hR.lowered h).inBank hbank)).2

def SampleRegistry.union (bank bank' : SampleRegistry) : SampleRegistry :=
  ⟨fun name => bank.contains name || bank'.contains name⟩

theorem Accepted.supplied (h : Accepted linked bank c) :
    (linked.patch.resolve.walked bank).Supplied bank := by
  obtain ⟨⟨is, -, htables⟩, -⟩ := h.tablesMatch
  intro name hname
  exact htables.known name (h.samples ▸ hname)

/-- Two banks that allow a text give the same code, that of their union. -/
theorem Accepted.lower_eq (h : Accepted linked bank c) (h' : Accepted linked bank' c') :
    linked.patch.resolve.lower bank' = linked.patch.resolve.lower bank := by
  have hR := parse_resolve_normal _ h.resolved
  have hunion : linked.patch.resolve.lower (bank.union bank') = linked.patch.resolve.lower bank :=
    hR.lower_eq h.lowered fun name hname => by simp [SampleRegistry.union, h.supplied name hname]
  have hunion' : linked.patch.resolve.lower (bank.union bank') = linked.patch.resolve.lower bank' :=
    hR.lower_eq h'.lowered fun name hname => by simp [SampleRegistry.union, h'.supplied name hname]
  exact hunion'.symm.trans hunion

/-! ## Compiled programs -/

theorem compile_congr (filename : String)
    (h : (LinkedSource.standard source).patch.resolve.lower bank' =
      (LinkedSource.standard source).patch.resolve.lower bank) :
    compile source filename bank' = compile source filename bank := by
  unfold LinkedSource.patch at h
  unfold compile compileLinked
  dsimp only
  rw [h]

/-- Under another bank, a program that compiles compiles just if that bank has the samples it needs,
and then all that comes out is the same. -/
theorem compile_bank (source filename : String) (bank bank' : SampleRegistry)
    (h : (compile source filename bank).success) :
    ((compile source filename bank').success ↔
      ∀ name ∈ (compile source filename bank).samples, bank'.contains name) ∧
    ((compile source filename bank').success →
      compile source filename bank' = compile source filename bank) := by
  have haccepted := compile_accepted h
  have hR := parse_resolve_normal _ haccepted.resolved
  have hsame : (compile source filename bank').success →
      compile source filename bank' = compile source filename bank :=
    fun h' => compile_congr filename (haccepted.lower_eq (compile_accepted h'))
  refine ⟨⟨fun h' name hname => ?_, fun hbank => ?_⟩, hsame⟩
  · have haccepted' := compile_accepted h'
    refine haccepted'.supplied name ?_
    rwa [← haccepted'.samples, hsame h']
  · rw [haccepted.samples] at hbank
    rw [compile_congr filename (hR.lower_eq haccepted.lowered hbank)]
    exact h

def drumTrio : SampleBank := ⟨["hh", "sd", "bd"]⟩

theorem drumLine_bank :
    (compile drumLine "drums" .drums).success ∧
      ((compile drumLine "drums" drumTrio).success ↔
        ∀ name ∈ (compile drumLine "drums" .drums).samples, drumTrio.contains name) ∧
      ((compile drumLine "drums" drumTrio).success →
        compile drumLine "drums" drumTrio = compile drumLine "drums" .drums) :=
  ⟨compile_drumLine, compile_bank drumLine "drums" .drums drumTrio compile_drumLine⟩

end SignalPatch
