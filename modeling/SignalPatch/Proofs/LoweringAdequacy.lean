import SignalPatch.Proofs.Visits

/-!
# The rules of lowering are complete

Whatever lowering gives a buffer was lowered by the rules of `Lowers`. Here is the other direction:
what the rules derive on a normal patch, lowering computes within its budget (`Lowers.exec`). So the
rules describe lowering exactly: it succeeds if and only if all statements can be lowered by them,
and then it gives their code (`NormalPatch.success_iff`).
-/

namespace SignalPatch

open Lowering

/-! ## Primitive steps -/

theorem Lowered.Appends.exec_append (h : Appends l make b l') (span : Span) :
    exec (append span make) l = (some b, l') := by
  unfold append
  rw [exec_bind_some (exec_get l)]
  simp only [h.room, ↓reduceIte]
  rw [exec_bind_some (exec_modify _ _), exec_pure, h.next, h.buffer]

theorem Lowered.Appends.exec_emit {inputs : List Buffer} {payload : UInt32}
    (h : Appends l (instruction opcode inputs payload) b l') (span : Span) :
    exec (emit opcode inputs payload span) l = (some b, l') :=
  h.exec_append span

theorem Lowered.Appends.exec_emitConst {v : Float}
    (h : Appends l (Instruction.constant · (Decimal.narrow v)) b l') (span : Span) :
    exec (emitConst v span) l = (some b, l') :=
  h.exec_append span

namespace Lowering

theorem PatternLowered.exec {r : Resolved} (h : PatternLowered path p span l b l')
    (hp : r.patterns.lookup text = some p) (hknown : ∀ name ∈ p.sampleNames, bank.contains name) :
    exec (lowerPattern r bank path text span) l = (some b, l') := by
  have hunknown : p.sampleNames.eraseDups.filter (!bank.contains ·) = [] := by
    refine List.filter_eq_nil_iff.mpr fun name hname => ?_
    simp [hknown name (List.mem_eraseDups.mp hname)]
  unfold lowerPattern
  rw [hp]
  dsimp only
  rw [hunknown, exec_bind_some (exec_reportAll [] _ l)]
  simp only [List.map_nil, List.append_nil, List.isEmpty_nil, Bool.not_true, Bool.false_eq_true,
    ↓reduceIte]
  rw [exec_bind_some (exec_stateId path "pat" l), exec_bind_some (exec_sequenceInit _ p span _),
    exec_bind_some (exec_get _), exec_bind_some (exec_modify _ _)]
  cases h with
  | values hsample hstep =>
    refine (exec_bind_some (hstep.exec_emit span) _).trans ?_
    simp only [initOf, hsample, Bool.false_eq_true, ↓reduceIte]
    rfl
  | samples hsample hstep hpitch hplay =>
    refine (exec_bind_some (hstep.exec_emit span) _).trans ?_
    simp only [initOf, hsample, ↓reduceIte]
    rw [exec_bind_some (hpitch.exec_emitConst span)]
    exact hplay.exec_emit span

theorem HostParamLowered.exec {r : Resolved} (h : HostParamLowered param l b l')
    (hnode : r.patch.nodes[i]? = some ⟨.text name, s⟩)
    (hparam : r.hostParams.find? (·.name == name) = some param) (span : Span) :
    exec (lowerHostParam r i span) l = (some b, l') := by
  unfold lowerHostParam
  rw [Arena.kind_eq hnode]
  dsimp only
  rw [hparam]
  cases h with
  | intro hfallback hget =>
    dsimp only
    rw [exec_bind_some (hfallback.exec_emitConst span)]
    exact hget.exec_emit span

end Lowering

/-! ## Nodes -/

theorem Arena.refers_arg {nodes : Arena} (hnode : nodes[i]? = some ⟨.call callee args, s⟩)
    (ha : a ∈ args) : nodes.Refers i a.value := by
  rw [Refers, kind_eq hnode]
  exact List.mem_map_of_mem ha

theorem VisitOk.succ {k : Nat} (h : VisitOk R n ⟨k, site, i, l⟩) : ∃ d, k = d + 1 := by
  cases k with
  | zero =>
    have := h.depth
    simp [budget] at this
  | succ d => exact ⟨d, rfl⟩

theorem exec_payload (l : Lowered) (path : List String) (f : Builtin) :
    exec (if f.stateful then stateId path f.name else pure 0 : Lowering UInt32) l =
      (some (l.payload path f), l.issueFor path f) := by
  unfold Lowered.payload Lowered.issueFor
  cases f.stateful with
  | true => exact exec_stateId _ _ _
  | false => exact exec_pure _ _

mutual

/-- What the rules derive for a node, lowering computes. -/
theorem Lowers.exec (hR : NormalPatch R n) :
    Lowers R bank site i l b l' → VisitOk R n ⟨depth, site, i, l⟩ →
      exec (lower R bank depth site i) l = (some b, l')
  | .memo hmemo, hv => by
    obtain ⟨d, rfl⟩ := hv.succ
    rw [lower_succ, exec_bind_some (exec_get l), hmemo]
    rfl
  | .fresh hmemo h, hv => by
    obtain ⟨d, rfl⟩ := hv.succ
    rw [lower_succ, exec_bind_some (exec_get l), hmemo]
    dsimp only
    rw [exec_bind_some (h.exec hR hmemo hv)]
    rfl

theorem Makes.exec (hR : NormalPatch R n) (h : Makes R bank site i l b l')
    (hmemo : l.memo.lookup i = none) (hv : VisitOk R n ⟨d + 1, site, i, l⟩) :
    exec (lowerNode R bank d site i) l = (some b, l') := by
  unfold lowerNode
  match h with
  | .number hnode happ | .bool hnode happ =>
    rw [Arena.kind_eq hnode]
    exact happ.exec_emitConst _
  | .ident hnode hlook hvalue hbuffer =>
    rw [Arena.kind_eq hnode]
    unfold lowerIdent
    simp [hlook, hvalue, hbuffer, exec_pure]
  | .binary hnode hlhs hrhs happ =>
    rw [Arena.kind_eq hnode]
    dsimp only
    have hkind := Arena.kind_eq hnode
    -- the right operand is visited in the state that lowering the left one leaves
    have hl := hlhs.exec hR (hv.calls hR (.lhs hmemo hkind : Calls R bank _ _))
    have hr := hrhs.exec hR (hv.calls hR (.rhs hmemo hkind hl))
    rw [exec_bind_some hl, exec_bind_some hr]
    exact happ.exec_emit _
  | .op hnode hm hf hk hlen hargs happ =>
    rw [Arena.kind_eq hnode]
    dsimp only
    rw [hm]
    dsimp only
    unfold lowerBuiltin
    rw [hk]
    dsimp only
    rw [exec_bind_some (hargs.exec hR hv (fun a => Arena.refers_arg hnode) hv.memo rfl),
      exec_bind_some (exec_payload _ _ _)]
    exact happ.exec_emit _
  | .pattern hnode hm hk hp hknown hpat =>
    rw [Arena.kind_eq hnode, Arena.span_eq hnode]
    dsimp only
    rw [hm]
    dsimp only
    unfold lowerBuiltin
    rw [hk]
    exact hpat.exec hp hknown
  | .control hnode hm hk htext hparam hhost =>
    rw [Arena.kind_eq hnode]
    dsimp only
    rw [hm]
    dsimp only
    unfold lowerBuiltin
    rw [hk]
    exact hhost.exec htext hparam _
  | .expand hnode hm hnew hargs hdef _ hbody =>
    rw [Arena.kind_eq hnode]
    dsimp only
    rw [hm]
    dsimp only
    have hrun := hargs.exec hR hv (fun a => Arena.refers_arg hnode) hv.memo rfl
    have hbodyRun := hbody.exec hR
      (hv.calls hR (.body hmemo (Arena.kind_eq hnode) hm hnew hrun (Arena.kind_eq hdef)))
    unfold lowerExpansion
    simp only [List.contains_eq_mem, hnew, decide_false, Bool.false_eq_true, ↓reduceIte]
    rw [exec_bind_some hrun, Arena.kind_eq hdef]
    dsimp only
    rw [exec_bind_some (exec_number _ _ _), exec_inOwnMemo, hbodyRun]
    rfl

theorem LowersArgs.exec (hR : NormalPatch R n) :
    LowersArgs R bank site args l bs l' → VisitOk R n ⟨d + 1, site, i, l₀⟩ →
      (∀ a ∈ args, R.patch.nodes.Refers i a.value) → MemoOk l → l.findings = l₀.findings →
      exec (args.mapM fun a => lower R bank d site a.value) l = (some bs, l')
  | .nil, _, _, _, _ => rfl
  | .cons h hs, hv, hrefs, hmemo, hf => by
    have hv' := hv.child (hrefs _ List.mem_cons_self) hmemo hf
    have hrun := h.exec hR hv'
    obtain ⟨hf', -, hmemo', -⟩ := (hv'.safe hR _).of_some hrun
    rw [List.mapM_cons, exec_bind_some hrun, exec_bind_some
      (hs.exec hR hv (fun a ha => hrefs a (List.mem_cons_of_mem _ ha)) hmemo' (hf'.trans hf))]
    rfl

end

/-! ## Statements -/

theorem run_lowerStatement_define (hkind : R.patch.nodes.kind i = .define name params body)
    (bank : SampleRegistry) (depth : Nat) (t : SymbolTable) (l : Lowered) :
    (lowerStatement R bank depth t i).run l = (t, l) := by
  unfold lowerStatement
  rw [hkind]
  rfl

theorem run_lowerStatement_assign (hkind : R.patch.nodes.kind i = .assign x value)
    (hrun : exec (lower R bank depth ⟨t, ["main", x], []⟩ value) l = (some b, l₁)) :
    (lowerStatement R bank depth t i).run l = (t.define (.ofVariable x b), l₁) := by
  unfold lowerStatement
  rw [hkind]
  dsimp only
  rw [StateT.run_bind]
  unfold exec at hrun
  rw [hrun]
  rfl

theorem run_lowerStatement_expr (hkind : (R.patch.nodes.kind i).isStatement = false)
    (hrun : exec (lower R bank depth ⟨t, ["main"], []⟩ i) l = (o, l₁)) :
    (lowerStatement R bank depth t i).run l = (t, l₁) := by
  have hstatement : lowerStatement R bank depth t i = do
      discard (lower R bank depth ⟨t, ["main"], []⟩ i).run
      return t := by
    unfold lowerStatement
    cases hk : R.patch.nodes.kind i <;> first | rfl | simp [hk, NodeKind.isStatement] at hkind
  rw [hstatement]
  change (t, (exec (lower R bank depth ⟨t, ["main"], []⟩ i) l).2) = _
  rw [hrun]

theorem run_lowerStatements_cons (hrun : (lowerStatement R bank depth t i).run l = (t', l₁))
    (hl₁ : l₁.findings = []) :
    (lowerStatements R bank depth t (i :: is)).run l =
      (lowerStatements R bank depth t' is).run l₁ := by
  rw [lowerStatements_cons hrun, hasErrors_of_findings hl₁]
  rfl

theorem StatementsNormal.run (hR : NormalPatch R n) (h : StatementsNormal R n vars ids) :
    ∀ {t l bs l'}, StatementsLowered R bank t l ids bs l' → SiteOk R vars ⟨t, [], []⟩ → MemoOk l →
      l.findings = [] → (lowerStatements R bank R.depth t ids).run l = ((), l') ∧
        l'.findings = [] := by
  induction h with
  | nil =>
    rintro t l bs l' (_ | _) - - hl
    exact ⟨rfl, hl⟩
  | define hnode _ ih =>
    intro t l bs l' hlow hsite hmemo hl
    cases hlow with
    | define _ hrest =>
      rw [run_lowerStatements_cons
        (run_lowerStatement_define (Arena.kind_eq hnode) bank R.depth t l) hl]
      exact ih hrest hsite hmemo hl
    | assign hnode' => cases hnode.symm.trans hnode'
    | expr hkind =>
      rw [Arena.kind_eq hnode] at hkind
      cases hkind
  | @assign _ _ _ x _ _ hnode hv hfree _ ih =>
    intro t l bs l' hlow hsite hmemo hl
    cases hlow with
    | define hnode' => cases hnode.symm.trans hnode'
    | assign hnode' hlower hrest =>
      cases hnode.symm.trans hnode'
      -- The value is lowered as the relation says, and what it leaves is fit for the next
      -- statement.
      have hvisit := VisitOk.root hR hv (hsite.atPath ["main", x]) hmemo hl
      have hrun := hlower.exec hR hvisit
      obtain ⟨hf, hb, hmemo', -⟩ := (hvisit.safe hR _).of_some hrun
      rw [run_lowerStatements_cons (run_lowerStatement_assign (Arena.kind_eq hnode) hrun)
        (hf.trans hl)]
      exact ih hrest (hsite.assign hfree hb _) hmemo' (hf.trans hl)
    | expr hkind =>
      rw [Arena.kind_eq hnode] at hkind
      cases hkind
  | expr hv _ ih =>
    intro t l bs l' hlow hsite hmemo hl
    obtain ⟨node, hnode, hstatement⟩ := hv.root
    rw [← Arena.kind_eq hnode] at hstatement
    cases hlow with
    | define hnode' | assign hnode' =>
      rw [Arena.kind_eq hnode'] at hstatement
      cases hstatement
    | expr _ hlower hrest =>
      have hvisit := VisitOk.root hR hv (hsite.atPath ["main"]) hmemo hl
      have hrun := hlower.exec hR hvisit
      obtain ⟨hf, -, hmemo', -⟩ := (hvisit.safe hR _).of_some hrun
      rw [run_lowerStatements_cons (run_lowerStatement_expr hstatement hrun) (hf.trans hl)]
      exact ih hrest hsite hmemo' (hf.trans hl)

theorem NormalPatch.walked_eq (hR : NormalPatch R n)
    (h : StatementsLowered R bank R.symbols.push {} R.patch.statements bs l') :
    (R.lower bank).success ∧ R.walked bank = l' := by
  obtain ⟨hrun, hf⟩ := hR.statements.run hR h hR.siteOk (fun i b hb => by simp at hb) rfl
  have hwalked : R.walked bank = l' := congrArg Prod.snd hrun
  refine ⟨?_, hwalked⟩
  change (!Lowering.hasErrors (R.walked bank)) = true
  rw [hwalked, hasErrors_of_findings hf]
  rfl

/-- Lowering succeeds on just the patches whose statements can be lowered by the rules. -/
theorem NormalPatch.success_iff (hR : NormalPatch R n) :
    (R.lower bank).success ↔
      ∃ bs l', StatementsLowered R bank R.symbols.push {} R.patch.statements bs l' :=
  ⟨fun h => ⟨_, _, hR.lowered h⟩, fun ⟨_, _, h⟩ => (hR.walked_eq h).1⟩

end SignalPatch
