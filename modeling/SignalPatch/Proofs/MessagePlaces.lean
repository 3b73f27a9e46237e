import SignalPatch.Proofs.TextOrigin

/-!
# Where messages point

Lowering reports at the places of nodes. So if the nodes of a patch stem from a text, all that is
found wrong with the patch lies in that text.
-/

namespace SignalPatch

variable {cs : List Char}

def Lowered.LiesIn (l : Lowered) (cs : List Char) : Prop := ∀ f ∈ l.findings, f.LiesIn cs

namespace Lowering

/-- The step reports only at places in the text. -/
def Keeps (cs : List Char) (x : Lowering α) : Prop :=
  ∀ l : Lowered, l.LiesIn cs → (exec x l).2.LiesIn cs

theorem Keeps.bind {x : Lowering α} {f : α → Lowering β} (hx : Keeps cs x)
    (hf : ∀ a, Keeps cs (f a)) :
    Keeps cs (x >>= f) := by
  intro l hl
  have hx' := hx l hl
  rw [exec_bind]
  generalize exec x l = out at hx'
  obtain ⟨_ | a, l'⟩ := out
  · exact hx'
  · exact hf a l' hx'

theorem Keeps.pure (a : α) : Keeps cs (Pure.pure a) := fun _ hl => hl

theorem Keeps.failure : Keeps cs (Alternative.failure : Lowering α) := fun _ hl => hl

theorem Keeps.get : Keeps cs (MonadState.get : Lowering Lowered) := fun _ hl => hl

/-- Steps that report nothing. -/
theorem Keeps.silent {x : Lowering α} (h : ∀ l, (exec x l).2.findings = l.findings) :
    Keeps cs x := by
  intro l hl
  unfold Lowered.LiesIn
  rw [h]
  exact hl

theorem Keeps.mapM {f : α → Lowering β} (h : ∀ x, Keeps cs (f x)) (xs : List α) :
    Keeps cs (xs.mapM f) := by
  induction xs with
  | nil => exact .pure _
  | cons x xs ih =>
    rw [List.mapM_cons]
    exact (h x).bind fun _ => ih.bind fun _ => .pure _

theorem Keeps.forM {f : α → Lowering Unit} (h : ∀ x, Keeps cs (f x)) (xs : List α) :
    Keeps cs (xs.forM f) := by
  induction xs with
  | nil => exact .pure _
  | cons x xs ih => exact (h x).bind fun _ => ih

theorem report_keeps (h : Finding.LiesIn ⟨issue, s⟩ cs) : Keeps cs (report issue s) := by
  intro l hl f hf
  rw [exec_report] at hf
  rcases List.mem_append.mp hf with hf | hf
  · exact hl f hf
  · cases List.mem_singleton.mp hf
    exact h

theorem fail_keeps (h : Finding.LiesIn ⟨issue, s⟩ cs) : Keeps cs (fail issue s : Lowering α) :=
  (report_keeps h).bind fun _ => .failure

theorem append_keeps (h : Span.LiesIn s cs) (make : Buffer → Instruction) :
    Keeps cs (append s make) := by
  refine Keeps.get.bind fun l => ?_
  dsimp only
  split
  · exact .silent fun _ => rfl
  · exact fail_keeps (.of_span h fun _ => rfl)

theorem number_keeps (path : List String) (leaf : String) : Keeps cs (number path leaf) :=
  .silent fun _ => rfl

theorem stateId_keeps (path : List String) (callee : String) : Keeps cs (stateId path callee) :=
  .silent fun l => by rw [exec_stateId]; rfl

theorem sequenceInit_keeps (id : UInt32) (p : Pattern) (s : Span) :
    Keeps cs (sequenceInit id p s) :=
  .silent fun l => by rw [exec_sequenceInit]

theorem inOwnMemo_keeps {x : Lowering α} (h : Keeps cs x) : Keeps cs (inOwnMemo x) := by
  intro l hl
  rw [exec_inOwnMemo]
  exact h { l with memo := [] } hl

variable {r : Resolved} {bank : SampleRegistry}

theorem lowerPattern_keeps (hr : r.patch.nodes.StemsFrom cs) (path : List String) (text : NodeId)
    (h : Span.LiesIn s cs) : Keeps cs (lowerPattern r bank path text s) := by
  have htext := (hr.node text).span
  unfold lowerPattern
  dsimp only
  split
  · exact fail_keeps (.of_span htext fun _ => rfl)
  refine (Keeps.forM (fun _ => report_keeps (.of_span htext fun _ => rfl)) _).bind fun _ => ?_
  split
  · exact .failure
  refine (stateId_keeps path "pat").bind fun id => ?_
  refine (sequenceInit_keeps id _ s).bind fun init => Keeps.get.bind fun l => ?_
  refine Keeps.bind (.silent fun _ => rfl) fun _ => ?_
  refine (append_keeps h _).bind fun step => ?_
  split
  · exact .pure _
  · exact (append_keeps h _).bind fun pitch => append_keeps h _

theorem lowerHostParam_keeps (nameNode : NodeId) (h : Span.LiesIn s cs) :
    Keeps cs (lowerHostParam r nameNode s) := by
  unfold lowerHostParam
  dsimp only
  split
  · exact fail_keeps (.of_span h fun _ => rfl)
  · exact (append_keeps h _).bind fun fallback => append_keeps h _

theorem lowerIdent_keeps (site : Site) (name : String) (h : Span.LiesIn s cs) :
    Keeps cs (lowerIdent site name s) := by
  unfold lowerIdent
  split
  · split
    · exact .pure _
    · exact fail_keeps (.of_span h fun _ => rfl)
  · exact fail_keeps (.of_span h fun _ => rfl)

theorem lowerBuiltin_keeps (hr : r.patch.nodes.StemsFrom cs)
    (ih : ∀ site id, Keeps cs (lower r bank depth site id)) (site : Site) (b : Builtin)
    (args : List (Arg NodeId)) (h : Span.LiesIn s cs) :
    Keeps cs (lowerBuiltin r bank depth site b args s) := by
  unfold lowerBuiltin
  split
  · refine (Keeps.mapM (fun a => ih site a.value) args).bind fun inputs => ?_
    refine Keeps.bind ?_ fun payload => append_keeps h _
    split
    · exact stateId_keeps site.path b.name
    · exact .pure _
  · split
    · exact .failure
    · exact lowerPattern_keeps hr _ _ h
  · split
    · exact .failure
    · exact lowerHostParam_keeps _ h

theorem lowerExpansion_keeps (ih : ∀ site id, Keeps cs (lower r bank depth site id)) (site : Site)
    (f : Function) (args : List (Arg NodeId)) (h : Span.LiesIn s cs) :
    Keeps cs (lowerExpansion r bank depth site f args s) := by
  unfold lowerExpansion
  dsimp only
  split
  · rw [fail_bind]
    exact fail_keeps (.of_span h fun _ => rfl)
  refine (Keeps.mapM (fun a => ih site a.value) args).bind fun inputs => ?_
  split
  · exact (number_keeps site.path f.name).bind fun n => inOwnMemo_keeps (ih _ _)
  · exact fail_keeps (.of_span h fun _ => rfl)

theorem lowerNode_keeps (hr : r.patch.nodes.StemsFrom cs)
    (ih : ∀ site id, Keeps cs (lower r bank depth site id)) (site : Site) (id : NodeId) :
    Keeps cs (lowerNode r bank depth site id) := by
  have h := (hr.node id).span
  unfold lowerNode
  dsimp only
  split
  · exact append_keeps h _
  · exact append_keeps h _
  · exact fail_keeps (.of_span h fun _ => rfl)
  · exact lowerIdent_keeps site _ h
  · exact (ih site _).bind fun a => (ih site _).bind fun b => append_keeps h _
  · split
    · exact lowerBuiltin_keeps hr ih site _ _ h
    · exact lowerExpansion_keeps ih site _ _ h
    · exact fail_keeps (.of_span h fun _ => rfl)
  all_goals exact fail_keeps (.of_span h fun _ => rfl)

theorem lower_keeps (hr : r.patch.nodes.StemsFrom cs) (bank : SampleRegistry) (depth : Nat)
    (site : Site) (id : NodeId) :
    Keeps cs (lower r bank depth site id) := by
  induction depth generalizing site id with
  | zero => exact .failure
  | succ depth ih =>
    rw [lower_succ]
    refine Keeps.get.bind fun l => ?_
    split
    · exact .pure _
    · exact (lowerNode_keeps hr ih site id).bind fun b => .silent fun _ => rfl

theorem lowerStatement_liesIn (hr : r.patch.nodes.StemsFrom cs) (bank : SampleRegistry)
    (depth : Nat) (symbols : SymbolTable) (id : NodeId) (hl : Lowered.LiesIn l cs) :
    ((lowerStatement r bank depth symbols id).run l).2.LiesIn cs := by
  unfold lowerStatement
  split
  · exact hl
  · rename_i name value _
    have hlower := lower_keeps hr bank depth ⟨symbols, ["main", name], []⟩ value l hl
    rw [StateT.run_bind]
    unfold exec at hlower
    generalize (lower r bank depth _ value).run.run l = out at hlower ⊢
    obtain ⟨_ | b, l'⟩ := out
    · exact hlower
    · exact hlower
  · exact lower_keeps hr bank depth ⟨symbols, ["main"], []⟩ id l hl

theorem lowerStatements_liesIn (hr : r.patch.nodes.StemsFrom cs) (depth : Nat)
    (symbols : SymbolTable) (ids : List NodeId) (hl : Lowered.LiesIn l cs) :
    ((lowerStatements r bank depth symbols ids).run l).2.LiesIn cs := by
  induction ids generalizing symbols l with
  | nil => exact hl
  | cons id ids ih =>
    have hl' := lowerStatement_liesIn hr bank depth symbols id hl
    rw [lowerStatements_cons rfl]
    split
    · exact hl'
    · exact ih _ hl'

end Lowering

theorem Resolved.lower_liesIn {r : Resolved} (hr : r.patch.nodes.StemsFrom cs)
    (bank : SampleRegistry) :
    ∀ f ∈ (r.lower bank).findings, f.LiesIn cs := by
  have h : Lowered.LiesIn {} cs := by simp [Lowered.LiesIn]
  exact Lowering.lowerStatements_liesIn hr _ _ _ h

end SignalPatch
