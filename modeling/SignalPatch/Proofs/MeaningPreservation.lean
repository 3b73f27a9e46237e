import SignalPatch.Proofs.TreeMeaning

/-!
# Compilation preserves meaning

Unfolding the compiled code from the buffer of a statement gives the term that the statement means
as it was written. The walk over the statements carries the argument: the variables assigned so far
stand for the terms in their buffers, and so do the nodes that were lowered for them.
-/

namespace SignalPatch

open Lowering

/-! ## Variables -/

def Env.Within (env : Env) (vars : Scope) : Prop :=
  ∀ x v, env x = some v → (vars.find? (Text.fingerprint x)).isSome

theorem Env.Within.fresh {env : Env} (h : env.Within vars)
    (hfree : vars.find? (Text.fingerprint x) = none) : env x = none := by
  cases hx : env x with
  | none => rfl
  | some v => simpa [hfree] using h x v hx

theorem Env.Within.assign {env : Env} (h : env.Within vars) (x : String) (v : Option Value)
    (span : Span) : (env.assign x v).Within (variableSymbol x span :: vars) := by
  intro y w hy
  rw [Scope.find?_cons]
  split
  · rfl
  · rename_i hhash
    have hne : y ≠ x := by
      rintro rfl
      exact hhash rfl
    rw [Env.assign, if_neg hne] at hy
    exact h y w hy

theorem Env.assign_of_some {env : Env} (hx : env x = none) (hy : env y = some w) :
    env.assign x v y = some w := by
  have hne : y ≠ x := by
    rintro rfl
    cases hx.symm.trans hy
  rw [Env.assign, if_neg hne, hy]

theorem SiteMeans.assign {env : Env} (h : SiteMeans F env ⟨.above G bound, path, []⟩)
    (hx : env x = none) (hb : F.value b = some t) :
    SiteMeans F (env.assign x (some (.signal t)))
      ⟨(SymbolTable.above G bound).define (.ofVariable x b), path, []⟩ := by
  intro y symbol hlook hvalue
  rcases SymbolTable.lookup_define_above hlook with rfl | hold
  · obtain rfl : x = y := (SymbolTable.lookup_mem hlook).1
    exact ⟨t, by simp [Env.assign], hb⟩
  · obtain ⟨u, hu, hub⟩ := h y symbol hold hvalue
    exact ⟨u, Env.assign_of_some hx hu, hub⟩

theorem MemoMeans.assign {env : Env} (h : MemoMeans R F depth env l) (hx : env x = none)
    (v : Option Value) : MemoMeans R F depth (env.assign x v) l := by
  intro i b hb
  obtain ⟨t, ht, hval⟩ := h i b hb
  exact ⟨t, ht.mono fun _ _ hy => Env.assign_of_some hx hy, hval⟩

/-! ## Statements -/

theorem StatementsLowered.grows (h : StatementsLowered R bank symbols l ids bs l') :
    l.Grows l' := by
  induction h with
  | nil => exact .refl _
  | define _ _ ih => exact ih
  | assign _ hv _ ih => exact hv.grows.trans ih
  | expr _ hv _ ih => exact hv.grows.trans ih

/-- Between two statements: the variables in scope and the nodes lowered so far are in buffers with
their terms. -/
structure WalkMeans (R : Resolved) (F : Lowered) (depth : Nat) (vars : Scope)
    (symbols : SymbolTable) (env : Env) (l : Lowered) : Prop where
  site : SiteOk R vars ⟨symbols, [], []⟩
  names : SiteMeans F env ⟨symbols, [], []⟩
  memo : MemoMeans R F depth env l
  within : env.Within vars

theorem WalkMeans.start (hR : NormalPatch R n) (F : Lowered) (depth : Nat) :
    WalkMeans R F depth [] R.symbols.push .empty {} where
  site := hR.siteOk
  names := by
    intro x symbol hlook hvalue
    rw [hR.symbols] at hlook
    cases (hR.mem_scope hlook hvalue).2
  memo := by simp [MemoMeans]
  within := by
    intro x v hx
    cases hx

theorem WalkMeans.assign {env : Env} (h : WalkMeans R F depth vars symbols env l) (hF : Finished F)
    (hfree : vars.find? (Text.fingerprint x) = none) (hb : F.value b = some t) (span : Span) :
    WalkMeans R F depth (variableSymbol x span :: vars) (symbols.define (.ofVariable x b))
      (env.assign x (some (.signal t))) l where
  site := h.site.assign hfree (hF.ne_unused hb) span
  names := by
    obtain ⟨bound, hsym, -, -⟩ := h.site.symbols
    dsimp only at hsym
    subst hsym
    exact h.names.assign (h.within.fresh hfree) hb
  memo := h.memo.assign (h.within.fresh hfree) _
  within := h.within.assign x _ span

section

variable (hE : Elaborated P ids R) (hprogram : StoredList P 0 program ids) (hR : NormalPatch R n)
  (hF : Finished F) (hdepth : R.symbols.functionCount ≤ depth)

include hE hprogram hR hF hdepth

theorem WalkMeans.lowers (h : WalkMeans R F depth vars symbols env l)
    (hrew : Rewritten P R (.above R.symbols.globals vars) none i j) (hstored : Stored P a e i)
    (hlow : Lowers R bank ⟨symbols, path, []⟩ j l b l') (hgrows : l'.Grows F) :
    WalkMeans R F depth vars symbols env l' ∧ ∃ t, F.value b = some t ∧
      e.denote (callIn program (HostParam.defaultIn R.hostParams) depth) env none =
        some (.signal t) := by
  obtain ⟨hmemo, t, ht, hb⟩ := hlow.means hR hE.read hF (h.site.atPath path) (by simpa using hdepth)
    hgrows h.names h.memo
  exact ⟨{ h with memo := hmemo }, t, hb, hrew.denotes hE hprogram h.site.values hstored ht⟩

theorem StatementsLowered.means (hres : StatementsResolved P R vars is is') :
    ∀ {a ss symbols l bs l' env}, StoredList P a ss is →
      StatementsLowered R bank symbols l is' bs l' → l'.Grows F →
      WalkMeans R F depth vars symbols env l →
      ∀ {k : Nat} {s}, ss[k]? = some s → s.defines? = none →
      ∃ b t, bs[k]? = some (some b) ∧ F.value b = some t ∧
        (denoteFrom (callIn program (HostParam.defaultIn R.hostParams) depth) env ss)[k]? =
          some (some (.signal t)) := by
  -- along the resolved statements; the trees they were read from and the walk follow in step
  induction hres with
  | nil =>
    rintro a ss symbols l bs l' env ⟨⟩ _ _ _ k s hk
    simp at hk
  | define hP hnode _ ih =>
    rintro a ss symbols l bs l' env (_ | ⟨_, hst, hrest⟩) hlow hgrows hwalk k s hk hs
    obtain ⟨body, rfl, -, -⟩ := hst.of_define hP
    cases hlow with
    | define _ hlow =>
      cases k with
      | zero =>
        cases hk
        cases hs
      | succ k => exact ih hrest hlow hgrows hwalk hk hs
    | assign hnode' => cases hnode.symm.trans hnode'
    | expr hkind => simp [Arena.kind_eq hnode, NodeKind.isStatement] at hkind
  | assign hP hnode hrew hfree _ ih =>
    rintro a ss symbols l bs l' env (_ | ⟨_, hst, hrest⟩) hlow hgrows hwalk k s hk hs
    obtain ⟨value, rfl, -, hstored⟩ := hst.of_assign hP
    cases hlow with
    | define hnode' => cases hnode.symm.trans hnode'
    | assign hnode' hv hlow =>
      cases hnode.symm.trans hnode'
      obtain ⟨hwalk', t, hb, ht⟩ := hwalk.lowers hE hprogram hR hF hdepth hrew hstored hv
        (hlow.grows.trans hgrows)
      rw [denoteFrom, ht]
      cases k with
      | zero => exact ⟨_, t, rfl, hb, rfl⟩
      | succ k => exact ih hrest hlow hgrows (hwalk'.assign hF hfree hb _) hk hs
    | expr hkind => simp [Arena.kind_eq hnode, NodeKind.isStatement] at hkind
  | expr hrew _ ih =>
    rintro a ss symbols l bs l' env (_ | ⟨_, hst, hrest⟩) hlow hgrows hwalk k s hk hs
    obtain ⟨node, hP, hkind⟩ := hrew.read
    obtain ⟨e, rfl, hstored⟩ := hst.of_expr hP hkind
    obtain ⟨node', hnode, hkind'⟩ := hrew.root (by simp)
    cases hlow with
    | define hnode' | assign hnode' =>
      cases hnode.symm.trans hnode'
      cases hkind'
    | expr _ hv hlow =>
      obtain ⟨hwalk', t, hb, ht⟩ := hwalk.lowers hE hprogram hR hF hdepth hrew hstored hv
        (hlow.grows.trans hgrows)
      rw [denoteFrom, ht]
      cases k with
      | zero => exact ⟨_, t, rfl, hb, rfl⟩
      | succ k => exact ih hrest hlow hgrows hwalk' hk hs

end

/-! ## Programs -/

theorem dataflow_shift (boundary : Boundary) (sequences : List SequenceInit)
    (is : List Instruction) (b : Buffer) :
    dataflow (sequences.map (.shift boundary)) is b = dataflow sequences is b := by
  have hterm : ∀ (ins : Instruction) (value : Buffer → Option Term),
      ins.term (sequences.map (.shift boundary)) value = ins.term sequences value := by
    intro ins value
    unfold Instruction.term
    rw [List.getElem?_map, Option.map_map]
    rfl
  unfold dataflow
  induction is.reverse generalizing b with
  | nil => rfl
  | cons ins earlier ih =>
    rw [unfolded, unfolded, hterm, ih, funext ih]

theorem NormalPatch.finished (hR : NormalPatch R n) (h : (R.lower bank).success) :
    Finished (R.walked bank) := by
  refine ⟨hR.assigned h, ?_⟩
  have hpaced := (hR.lowered h).grows.paced
  simpa using hpaced

def LinkedSource.program (linked : LinkedSource) : List Statement :=
  Grammar.statements (scan linked.text).tokens

/-- Every statement of the program that is no definition has a buffer, and unfolding the code from
there gives what the statement means. -/
def Compiled.Implements (c : Compiled) (program : List Statement) (buffers : List (Option Buffer)) :
    Prop :=
  ∃ is, Bytecode.decode c.bytecode = .ok is ∧
    ∀ (k : Nat) s, program[k]? = some s → s.defines? = none →
      ∃ b t, buffers[k]? = some (some b) ∧ dataflow c.sequences is b = some t ∧
        (denotations program (HostParam.defaultIn c.hostParams))[k]? = some (some (.signal t))

theorem Accepted.implements (h : Accepted linked bank c) :
    c.Implements linked.program (linked.patch.resolve.buffers bank) := by
  have hE := parse_resolve_elaborated _ h.resolved
  have hR := parse_resolve_normal _ h.resolved
  have hstored := parse_stored (scan linked.text).tokens
  refine ⟨_, h.bytecode ▸ Bytecode.decode_encode _, fun k s hk hs => ?_⟩
  obtain ⟨b, t, hb, ht, hmeans⟩ := StatementsLowered.means hE hstored hR (hR.finished h.lowered)
    (hE.functionCount_le hstored) hE.statements hstored (hR.lowered h.lowered) (.refl _)
    (.start hR _ _) hk hs
  refine ⟨b, t, hb, ?_, ?_⟩
  · rw [h.sequences, dataflow_shift]
    exact ht
  · rw [h.hostParams]
    exact hmeans

/-- Compiled code means what the program means that it was compiled from. -/
theorem compile_preservesMeaning (source filename : String) (bank : SampleRegistry)
    (h : (compile source filename bank).success) :
    (compile source filename bank).Implements (LinkedSource.standard source).program
      ((LinkedSource.standard source).patch.resolve.buffers bank) := by
  unfold compile at h ⊢
  split at h
  · cases h
  · rw [if_neg ‹_›]
    rcases compileLinked_cases (.standard source) filename bank with ⟨ds, -, heq⟩ | haccepted
    · rw [heq] at h
      cases h
    · exact haccepted.implements

/-- A bass line through functions of the preamble, with a variable and two pipes. -/
def pluckedBass : String := "x = pluck(110)\nx |> gain(%, 0.5) |> out(%)"

theorem compile_pluckedBass : (compile pluckedBass "bass" .drums).success :=
  compile_success String.toList_ofList (by simp) (by decide +kernel)

theorem pluckedBass_preservesMeaning :
    (compile pluckedBass "bass" .drums).success ∧
      (compile pluckedBass "bass" .drums).Implements (LinkedSource.standard pluckedBass).program
        ((LinkedSource.standard pluckedBass).patch.resolve.buffers .drums) :=
  ⟨compile_pluckedBass, compile_preservesMeaning pluckedBass "bass" .drums compile_pluckedBass⟩

end SignalPatch
