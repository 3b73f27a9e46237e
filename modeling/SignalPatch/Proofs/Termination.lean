import SignalPatch.Proofs.Descent
import SignalPatch.Proofs.GraphMeaning

/-!
# Lowering ends

Every patch that was read can be lowered, also one with errors. Along a chain of visits the
functions being expanded become more, and each is expanded once, or the rank of the node falls. So
the depth that lowering starts with is enough for every visit, and more of it would change nothing
(`LoweringEnds`).
-/

namespace SignalPatch

open Lowering

/-! ## Sites -/

/-- Over the global names the site sees values only, and it expands each function once. -/
structure Sited (R : Resolved) (site : Site) : Prop where
  symbols : ∃ bound, site.symbols = .above R.symbols.globals bound ∧ ∀ s ∈ bound, s.isValue
  nodup : site.expanding.Nodup
  functions : ∀ name ∈ site.expanding, ∃ s ∈ R.symbols.globals, s.name = name ∧
    ∃ f, s.meaning = .function f

theorem Sited.length_le (h : Sited R site) : site.expanding.length ≤ R.symbols.functionCount :=
  length_le_functionCount h.nodup h.functions

theorem Sited.function (h : Sited R site) (hR : Grounded P ids R)
    (hm : (site.symbols.lookup callee).map Symbol.meaning = some (.function f)) :
    ∃ s ∈ R.symbols.globals, s.name = f.name ∧ s.meaning = .function f := by
  obtain ⟨bound, hsym, hvalues⟩ := h.symbols
  rw [hsym] at hm
  obtain ⟨s, hs, hmeaning⟩ := Option.map_eq_some_iff.mp (Resolved.Calls.of_lookup hvalues hm rfl)
  obtain ⟨hmem, -⟩ := Scope.named?_eq_some hs
  refine ⟨s, hmem, ?_, hmeaning⟩
  cases hR.globals.known s hmem with
  | builtin b hb => simp [hb] at hmeaning
  | function i name params body span _ _ hf =>
    subst hf
    cases hmeaning
    rfl

theorem Sited.expansion (h : Sited R site) (hR : Grounded P ids R)
    (hf : ∃ s ∈ R.symbols.globals, s.name = f.name ∧ s.meaning = .function f)
    (hnew : f.name ∉ site.expanding) (k : Nat) (params : List Parameter) (inputs : List Buffer) :
    Sited R (site.expansion R.symbols f.name k params inputs) := by
  refine ⟨⟨argumentScope params inputs, ?_, ?_⟩, List.nodup_cons.mpr ⟨hnew, h.nodup⟩, ?_⟩
  · rw [hR.symbols]
    exact site.expansion_symbols R.symbols.globals f.name k params inputs
  · intro s hs
    obtain ⟨p, b, -, rfl⟩ := mem_argumentScope hs
    rfl
  · intro name hname
    rcases List.mem_cons.mp hname with rfl | hname
    · obtain ⟨s, hs, hsname, hmeaning⟩ := hf
      exact ⟨s, hs, hsname, f, hmeaning⟩
    · exact h.functions name hname

theorem Sited.define (h : Sited R ⟨table, path, []⟩) (x : String) (b : Buffer) :
    Sited R ⟨table.define (.ofVariable x b), path, []⟩ := by
  obtain ⟨bound, hsym, hvalues⟩ := h.symbols
  dsimp only at hsym
  refine ⟨⟨bound.add (.ofVariable x b), ?_, fun s hs => ?_⟩, h.nodup, h.functions⟩
  · rw [hsym, SymbolTable.define_above]
  · rcases Scope.mem_add hs with rfl | hs
    · rfl
    · exact hvalues s hs

theorem Sited.atPath (h : Sited R ⟨table, path, []⟩) (path' : List String) :
    Sited R ⟨table, path', []⟩ :=
  ⟨h.symbols, h.nodup, h.functions⟩

theorem Grounded.sited (hR : Grounded P ids R) (path : List String) :
    Sited R ⟨R.symbols.push, path, []⟩ := by
  refine ⟨⟨[], ?_, by simp⟩, .nil, by simp⟩
  dsimp only
  rw [hR.symbols]
  exact SymbolTable.push_eq_above R.symbols.globals

theorem Grounded.budget_le (hR : Grounded P ids R) (symbols : SymbolTable) (path : List String)
    (i : NodeId) :
    budget R P.size ⟨symbols, path, []⟩ i ≤ R.depth := by
  have hrank := rank_le P.size i
  have hsize := hR.size
  simp only [budget, Resolved.depth, List.length_nil, Nat.sub_zero, Nat.succ_mul]
  omega

/-! ## Visits -/

/-- The depth of the visit suffices for its node. -/
structure InBudget (R : Resolved) (n : Nat) (v : Visit) : Prop where
  sited : Sited R v.site
  depth : budget R n v.site v.node ≤ v.depth

theorem InBudget.child (h : InBudget R P.size ⟨d + 1, site, i, l⟩) (hR : Grounded P ids R)
    (hj : R.patch.nodes.Refers i j) (l' : Lowered) : InBudget R P.size ⟨d, site, j, l'⟩ :=
  ⟨h.sited, budget_child h.depth (hR.nodes i j hj)⟩

theorem InBudget.calls (h : InBudget R P.size v) (hR : Grounded P ids R) (hc : Calls R bank v v') :
    InBudget R P.size v' := by
  cases hc with
  | lhs _ hkind => exact h.child hR (by simp [Arena.Refers, hkind, NodeKind.children]) _
  | rhs _ hkind => exact h.child hR (by simp [Arena.Refers, hkind, NodeKind.children]) _
  | arg _ hkind => exact h.child hR (by simp [Arena.Refers, hkind, NodeKind.children]) _
  | body _ _ hm hnew _ _ =>
    have hsited := h.sited.expansion hR (h.sited.function hR hm) hnew
    exact ⟨hsited .., budget_expansion (hsited ..).length_le hR.size h.depth _⟩

theorem InBudget.reachable (h : InBudget R P.size v) (hR : Grounded P ids R)
    (hcalls : Relation.ReflTransGen (Calls R bank) v v') : InBudget R P.size v' := by
  induction hcalls with
  | refl => exact h
  | tail _ hcall ih => exact ih.calls hR hcall

/-! ## More depth -/

namespace Lowering

/-- Nodes in their budgets are lowered in the same way, whichever of the depths is allowed. -/
def LowersAlike (R : Resolved) (bank : SampleRegistry) (n depth depth' : Nat) : Prop :=
  ∀ {site i}, Sited R site → budget R n site i ≤ depth →
    lower R bank depth' site i = lower R bank depth site i

theorem lowerExpansion_deeper (hR : Grounded P ids R) (ih : LowersAlike R bank P.size depth depth')
    (hsite : Sited R site) (hd : budget R P.size site i ≤ depth + 1)
    (hm : (site.symbols.lookup callee).map Symbol.meaning = some (.function f))
    (hargs : ∀ a ∈ args, lower R bank depth' site a.value = lower R bank depth site a.value)
    (span : Span) :
    lowerExpansion R bank depth' site f args span =
      lowerExpansion R bank depth site f args span := by
  unfold lowerExpansion
  cases hrec : site.expanding.contains f.name with
  | true => rfl
  | false =>
    have hnew : f.name ∉ site.expanding := by simpa using hrec
    rw [mapM_congr hargs]
    refine bind_congr fun inputs => ?_
    cases R.patch.nodes.kind f.definition with
    | define name params body =>
      refine bind_congr fun k => ?_
      have hsite' := hsite.expansion hR (hsite.function hR hm) hnew k params inputs
      rw [ih hsite' (budget_expansion hsite'.length_le hR.size hd body)]
    | _ => rfl

theorem lowerNode_deeper (hR : Grounded P ids R) (ih : LowersAlike R bank P.size depth depth')
    (hsite : Sited R site) (hd : budget R P.size site i ≤ depth + 1) :
    lowerNode R bank depth' site i = lowerNode R bank depth site i := by
  -- One step down costs one of the budget, so both depths are enough there.
  have hchild : ∀ {j}, R.patch.nodes.Refers i j →
      lower R bank depth' site j = lower R bank depth site j :=
    fun hj => ih hsite (budget_child hd (hR.nodes i _ hj))
  unfold lowerNode
  dsimp only
  cases hkind : R.patch.nodes.kind i with
  | binary op lhs rhs =>
    dsimp only
    rw [hchild (j := lhs) (by simp [Arena.Refers, hkind, NodeKind.children]),
      hchild (j := rhs) (by simp [Arena.Refers, hkind, NodeKind.children])]
  | call callee args =>
    have hargs : ∀ a ∈ args, lower R bank depth' site a.value =
        lower R bank depth site a.value := by
      intro a ha
      refine hchild ?_
      rw [Arena.Refers, hkind]
      exact List.mem_map_of_mem ha
    dsimp only
    cases hm : (site.symbols.lookup callee).map Symbol.meaning with
    | none => rfl
    | some m =>
      cases m with
      | builtin b =>
        unfold lowerBuiltin
        dsimp only
        rw [mapM_congr hargs]
      | function f => exact lowerExpansion_deeper hR ih hsite hd hm hargs _
      | _ => rfl
  | _ => rfl

theorem lower_deeper (hR : Grounded P ids R) (bank : SampleRegistry) (depth : Nat) :
    ∀ {depth'}, depth ≤ depth' → LowersAlike R bank P.size depth depth' := by
  induction depth with
  | zero =>
    intro depth' _ site i _ hd
    simp [budget] at hd
  | succ depth ih =>
    intro depth' hle site i hsite hd
    obtain ⟨depth', rfl⟩ : ∃ d, depth' = d + 1 := ⟨depth' - 1, by omega⟩
    rw [lower_succ, lower_succ, lowerNode_deeper hR (ih (Nat.le_of_succ_le_succ hle)) hsite hd]

/-! ## Statements -/

theorem lowerStatement_deeper (hR : Grounded P ids R) (bank : SampleRegistry)
    (hle : R.depth ≤ depth) (hsite : Sited R ⟨symbols, [], []⟩) (i : NodeId) :
    lowerStatement R bank depth symbols i = lowerStatement R bank R.depth symbols i := by
  have hlower : ∀ path j, lower R bank depth ⟨symbols, path, []⟩ j =
      lower R bank R.depth ⟨symbols, path, []⟩ j := fun path j =>
    lower_deeper hR bank R.depth hle (hsite.atPath path) (hR.budget_le symbols path j)
  unfold lowerStatement
  cases R.patch.nodes.kind i with
  | define name params body => rfl
  | assign name value => simp only [hlower]
  | _ => simp only [hlower]

theorem lowerStatement_sited (hsite : Sited R ⟨symbols, [], []⟩)
    (hrun : (lowerStatement R bank depth symbols i).run l = (symbols', l')) :
    Sited R ⟨symbols', [], []⟩ := by
  unfold lowerStatement at hrun
  cases hkind : R.patch.nodes.kind i with
  | define name params body =>
    rw [hkind] at hrun
    cases hrun
    exact hsite
  | assign name value =>
    rw [hkind] at hrun
    dsimp only at hrun
    rw [StateT.run_bind] at hrun
    generalize (lower R bank depth ⟨symbols, ["main", name], []⟩ value).run.run l = out at hrun
    obtain ⟨o, l₁⟩ := out
    cases o with
    | none =>
      cases hrun
      exact hsite
    | some b =>
      cases hrun
      exact hsite.define name b
  | _ =>
    rw [hkind] at hrun
    cases hrun
    exact hsite

theorem lowerStatements_deeper (hR : Grounded P all R) (bank : SampleRegistry)
    (hle : R.depth ≤ depth) (ids : List NodeId) :
    ∀ {symbols} (l : Lowered), Sited R ⟨symbols, [], []⟩ →
      (lowerStatements R bank depth symbols ids).run l =
        (lowerStatements R bank R.depth symbols ids).run l := by
  induction ids with
  | nil => exact fun l _ => rfl
  | cons i ids ih =>
    intro symbols l hsite
    cases hrun : (lowerStatement R bank R.depth symbols i).run l with
    | mk symbols' l₁ =>
      have hrun' :=
        (congrArg (StateT.run · l) (lowerStatement_deeper hR bank hle hsite i)).trans hrun
      rw [lowerStatements_cons hrun, lowerStatements_cons hrun',
        ih l₁ (lowerStatement_sited hsite hrun)]

theorem visit?_inBudget (hR : Grounded P ids R) (hsite : Sited R ⟨symbols, [], []⟩)
    (hv : R.visit? symbols l i = some v) : InBudget R P.size v := by
  unfold Resolved.visit? at hv
  split at hv
  · cases hv
  · cases hv
    exact ⟨hsite.atPath _, hR.budget_le ..⟩
  · cases hv
    exact ⟨hsite.atPath _, hR.budget_le ..⟩

theorem visitsFrom_inBudget (hR : Grounded P all R) (bank : SampleRegistry) (ids : List NodeId) :
    ∀ {symbols} (l : Lowered), Sited R ⟨symbols, [], []⟩ →
      ∀ v, some v ∈ visitsFrom R bank symbols l ids → InBudget R P.size v := by
  induction ids with
  | nil => simp [visitsFrom]
  | cons i ids ih =>
    intro symbols l hsite v hv
    cases hrun : (lowerStatement R bank R.depth symbols i).run l with
    | mk symbols' l₁ =>
      rw [visitsFrom_cons hrun] at hv
      rcases List.mem_cons.mp hv with hv | hv
      · exact visit?_inBudget hR hsite hv.symm
      · split at hv
        · cases hv
        · exact ih l₁ (lowerStatement_sited hsite hrun) v hv

end Lowering

/-- Lowering ends: no visit runs out of depth, and more depth would change nothing. -/
structure LoweringEnds (R : Resolved) (bank : SampleRegistry) : Prop where
  visits : ∀ root v, some root ∈ R.visits bank →
    Relation.ReflTransGen (Calls R bank) root v → 0 < v.depth
  deeper : ∀ depth, R.depth ≤ depth →
    (lowerStatements R bank depth R.symbols.push R.patch.statements).run {} =
      (lowerStatements R bank R.depth R.symbols.push R.patch.statements).run {}

theorem Grounded.ends (hR : Grounded P ids R) (bank : SampleRegistry) : LoweringEnds R bank := by
  refine ⟨fun root v hroot hcalls => ?_, fun depth hle => ?_⟩
  · have hv := (visitsFrom_inBudget hR bank _ _ (hR.sited []) root hroot).reachable hR hcalls
    exact Nat.lt_of_lt_of_le (Nat.succ_pos _) hv.depth
  · exact lowerStatements_deeper hR bank hle _ _ (hR.sited [])

end SignalPatch
