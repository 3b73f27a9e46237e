import SignalPatch.Proofs.LoweringSafety

/-!
# The visits of lowering

A visit is one call of `lower`. The statements of a patch start visits (`Resolved.visits`), and
visits make further ones (`Calls`). On a patch that was resolved without errors, every visit that
fails has reported an error before, and only of the kinds that resolution leaves to lowering.
-/

namespace SignalPatch

open Lowering

/-- One call of `lower`: how deep it may go, where it stands, its node, and the code before it. -/
structure Visit where
  depth : Nat
  site : Site
  node : NodeId
  before : Lowered

def Visit.result (R : Resolved) (bank : SampleRegistry) (v : Visit) : Option Buffer × Lowered :=
  exec (lower R bank v.depth v.site v.node) v.before

/-- A call whose arguments are lowered: of an operation, or of a function that is not being
expanded. -/
def LowersArguments (site : Site) (callee : String) : Prop :=
  match (site.symbols.lookup callee).map Symbol.meaning with
  | some (.builtin b) => ∃ opcode, b.kind = .op opcode
  | some (.function f) => f.name ∉ site.expanding
  | _ => False

/-- The first visit makes the second. -/
inductive Calls (R : Resolved) (bank : SampleRegistry) : Visit → Visit → Prop
  | lhs : l.memo.lookup i = none → R.patch.nodes.kind i = .binary op lhs rhs →
      Calls R bank ⟨d + 1, site, i, l⟩ ⟨d, site, lhs, l⟩
  | rhs : l.memo.lookup i = none → R.patch.nodes.kind i = .binary op lhs rhs →
      Visit.result R bank ⟨d, site, lhs, l⟩ = (some a, l') →
      Calls R bank ⟨d + 1, site, i, l⟩ ⟨d, site, rhs, l'⟩
  | arg : l.memo.lookup i = none → R.patch.nodes.kind i = .call callee (before ++ x :: after) →
      LowersArguments site callee →
      exec (before.mapM fun a => lower R bank d site a.value) l = (some bs, l') →
      Calls R bank ⟨d + 1, site, i, l⟩ ⟨d, site, x.value, l'⟩
  | body : l.memo.lookup i = none → R.patch.nodes.kind i = .call callee args →
      (site.symbols.lookup callee).map Symbol.meaning = some (.function f) →
      f.name ∉ site.expanding →
      exec (args.mapM fun a => lower R bank d site a.value) l = (some inputs, l') →
      R.patch.nodes.kind f.definition = .define name params body →
      Calls R bank ⟨d + 1, site, i, l⟩
        ⟨d, site.expansion R.symbols f.name (l'.count site.path f.name) params inputs, body,
          { l'.issue site.path f.name with memo := [] }⟩

def Resolved.visit? (r : Resolved) (symbols : SymbolTable) (l : Lowered) (id : NodeId) :
    Option Visit :=
  match r.patch.nodes.kind id with
  | .define _ _ _ => none
  | .assign name value => some ⟨r.depth, ⟨symbols, ["main", name], []⟩, value, l⟩
  | _ => some ⟨r.depth, ⟨symbols, ["main"], []⟩, id, l⟩

def visitsFrom (r : Resolved) (bank : SampleRegistry) :
    SymbolTable → Lowered → List NodeId → List (Option Visit)
  | _, _, [] => []
  | symbols, l, id :: ids =>
    let (symbols', l') := (lowerStatement r bank r.depth symbols id).run l
    r.visit? symbols l id :: if Lowering.hasErrors l' then [] else visitsFrom r bank symbols' l' ids

def Resolved.visits (r : Resolved) (bank : SampleRegistry) : List (Option Visit) :=
  visitsFrom r bank r.symbols.push {} r.patch.statements

/-! ## Visits within the budget -/

/-- The node is in normal form, the site sees its values, and the depth suffices. -/
structure VisitOk (R : Resolved) (n : Nat) (v : Visit) : Prop where
  node : ∃ scope, Normal R (.above R.symbols.globals scope) n v.node ∧ SiteOk R scope v.site
  depth : budget R n v.site v.node ≤ v.depth
  memo : MemoOk v.before
  findings : v.before.findings = []

theorem VisitOk.safe (h : VisitOk R n v) (hR : NormalPatch R n) (bank : SampleRegistry) :
    Safe (lower R bank v.depth v.site v.node) v.before
      (LowersQ R bank v.site v.node v.before) := by
  obtain ⟨scope, hnormal, hsite⟩ := h.node
  exact lower_safe hR bank v.depth hnormal hsite h.depth h.memo

theorem Lowering.Safe.of_some {x : Lowering α} (h : Safe x l Q) (hx : exec x l = (some a, l')) :
    l'.findings = l.findings ∧ Q a l' := by
  unfold Safe at h
  rwa [hx] at h

theorem Lowering.Safe.of_none {x : Lowering α} (h : Safe x l Q) (hx : exec x l = (none, l')) :
    Fails l l' := by
  unfold Safe at h
  rwa [hx] at h

theorem VisitOk.child (h : VisitOk R n ⟨d + 1, site, i, l⟩) (hj : R.patch.nodes.Refers i j)
    (hmemo : MemoOk l') (hfindings : l'.findings = l.findings) : VisitOk R n ⟨d, site, j, l'⟩ := by
  obtain ⟨scope, hnormal, hsite⟩ := h.node
  obtain ⟨hnormal', hrank⟩ := hnormal.child hj
  exact ⟨⟨scope, hnormal', hsite⟩, budget_child h.depth hrank, hmemo, hfindings.trans h.findings⟩

theorem VisitOk.args (h : VisitOk R n ⟨d + 1, site, i, l⟩) (hR : NormalPatch R n)
    {xs : List (Arg NodeId)} (hxs : ∀ x ∈ xs, R.patch.nodes.Refers i x.value)
    (hrun : exec (xs.mapM fun a => lower R bank d site a.value) l = (some bs, l')) :
    l'.findings = l.findings ∧ bs.length = xs.length ∧ (∀ b ∈ bs, b ≠ .unused) ∧ MemoOk l' := by
  obtain ⟨scope, hnormal, hsite⟩ := h.node
  have hlower : ∀ x ∈ xs, ∀ l, MemoOk l →
      Safe (lower R bank d site x.value) l (LowersQ R bank site x.value l) := by
    intro x hx l hl
    obtain ⟨hnormal', hrank⟩ := hnormal.child (hxs x hx)
    exact lower_safe hR bank d hnormal' hsite (budget_child h.depth hrank) hl
  obtain ⟨hf, hlen, hbs, hl', -⟩ := (lowerArgs_safe hlower l h.memo).of_some hrun
  exact ⟨hf, hlen, hbs, hl'⟩

theorem Normal.call_length (h : Normal R T n i) (hkind : R.patch.nodes.kind i = .call callee args)
    (hm : (T.lookup callee).map Symbol.meaning = some m) (hsig : m.signature? = some params) :
    args.length = params.length := by
  cases h with
  | literal hnode hl =>
    rw [Arena.kind_eq hnode] at hkind
    simp [hkind, NodeKind.isLiteral] at hl
  | ident hnode | binary hnode =>
    rw [Arena.kind_eq hnode] at hkind
    cases hkind
  | call hnode hm' hsig' hlen =>
    rw [Arena.kind_eq hnode] at hkind
    cases hkind
    cases hm.symm.trans hm'
    cases hsig.symm.trans hsig'
    exact hlen

/-- A visit within its budget makes only such visits. -/
theorem VisitOk.calls (h : VisitOk R n v) (hR : NormalPatch R n) (hc : Calls R bank v v') :
    VisitOk R n v' := by
  cases hc with
  | lhs _ hkind => exact h.child (by simp [Arena.Refers, hkind, NodeKind.children]) h.memo rfl
  | @rhs i op lhs rhs d site l _ _ _ hkind hrun =>
    have hlhs : VisitOk R n ⟨d, site, lhs, _⟩ :=
      h.child (by simp [Arena.Refers, hkind, NodeKind.children]) h.memo rfl
    obtain ⟨hf, -, hmemo, -⟩ := (hlhs.safe hR bank).of_some hrun
    exact h.child (by simp [Arena.Refers, hkind, NodeKind.children]) hmemo hf
  | @arg i callee before x after _ _ _ _ _ _ hkind _ hrun =>
    have hxs : ∀ y ∈ before ++ x :: after, R.patch.nodes.Refers i y.value := by
      intro y hy
      rw [Arena.Refers, hkind]
      exact List.mem_map_of_mem hy
    obtain ⟨hf, -, -, hmemo⟩ := h.args hR (fun y hy => hxs y (List.mem_append_left _ hy)) hrun
    exact h.child (hxs x (by simp)) hmemo hf
  | @body i callee args d site l inputs l' name params body f _ hkind hm hnew hrun hdef =>
    have hxs : ∀ y ∈ args, R.patch.nodes.Refers i y.value := by
      intro y hy
      rw [Arena.Refers, hkind]
      exact List.mem_map_of_mem hy
    obtain ⟨hf, hlen, hbs, hmemo⟩ := h.args hR hxs hrun
    obtain ⟨scope, hnormal, hsite⟩ := h.node
    obtain ⟨s, hs, hname, hmeaning, params', body', span, hdef', hparams, -, hbody⟩ :=
      hsite.function hR hm
    rw [Arena.kind_eq hdef'] at hdef
    cases hdef
    -- Each parameter has its argument, so the body finds a buffer for every name.
    have hargs := hnormal.call_length hkind ((hsite.meaning _).symm.trans hm) rfl
    have hsite' := hsite.expansion hR ⟨s, hs, hname, hmeaning⟩ hnew
      (by rw [hlen, hargs, hparams, List.length_map]) hbs (l'.count site.path f.name)
    refine ⟨⟨_, hbody, hsite'⟩, hsite'.budget_expansion hR.size h.depth body, ?_,
      hf.trans h.findings⟩
    intro j b hj
    simp at hj

theorem Issue.severity_of_isLowering {issue : Issue} (h : issue.isLowering) :
    issue.severity = .error := by
  cases issue <;> simp_all [isLowering, severity]

theorem Issue.code_of_isLowering {issue : Issue} (h : issue.isLowering) :
    issue.code ∈ ["E201", "E202", "E203", "E204"] := by
  cases issue <;> simp_all [isLowering, code]

theorem Fails.hasErrors (h : Fails l l') : Lowering.hasErrors l' := by
  obtain ⟨fs, hfs, hne, hall⟩ := h
  obtain ⟨f, hf⟩ := List.exists_mem_of_ne_nil fs hne
  refine List.any_eq_true.mpr ⟨f, by simp [hfs, hf], ?_⟩
  simp [Finding.isError, Issue.severity_of_isLowering (hall f hf)]

theorem VisitOk.hasErrors (h : VisitOk R n v) (hR : NormalPatch R n)
    (hnone : (v.result R bank).1 = none) : Lowering.hasErrors (v.result R bank).2 :=
  ((h.safe hR bank).of_none (Prod.ext hnone rfl)).hasErrors

/-! ## Statements -/

def buffersFrom (r : Resolved) (bank : SampleRegistry) (symbols : SymbolTable) (l : Lowered)
    (ids : List NodeId) : List (Option Buffer) :=
  (visitsFrom r bank symbols l ids).map fun v? => v?.bind fun v => (v.result r bank).1

/-- The walk over statements: each visit gives a buffer, and the statements after it see the
variable that it assigns. -/
inductive Visited (R : Resolved) (bank : SampleRegistry) :
    SymbolTable → Lowered → List NodeId → List (Option Visit) → Lowered → Prop
  | nil : Visited R bank symbols l [] [] l
  | define : R.patch.nodes[i]? = some ⟨.define name params body, s⟩ →
      Visited R bank symbols l is vs l' → Visited R bank symbols l (i :: is) (none :: vs) l'
  | assign : R.patch.nodes[i]? = some ⟨.assign x value, s⟩ →
      Visit.result R bank ⟨R.depth, ⟨symbols, ["main", x], []⟩, value, l⟩ = (some b, l₁) →
      Visited R bank (symbols.define (.ofVariable x b)) l₁ is vs l₂ →
      Visited R bank symbols l (i :: is)
        (some ⟨R.depth, ⟨symbols, ["main", x], []⟩, value, l⟩ :: vs) l₂
  | expr : (R.patch.nodes.kind i).isStatement = false →
      Visit.result R bank ⟨R.depth, ⟨symbols, ["main"], []⟩, i, l⟩ = (some b, l₁) →
      Visited R bank symbols l₁ is vs l₂ →
      Visited R bank symbols l (i :: is) (some ⟨R.depth, ⟨symbols, ["main"], []⟩, i, l⟩ :: vs) l₂

/-- The same walk without its visits: each statement gets its buffer. -/
inductive StatementsLowered (R : Resolved) (bank : SampleRegistry) :
    SymbolTable → Lowered → List NodeId → List (Option Buffer) → Lowered → Prop
  | nil : StatementsLowered R bank symbols l [] [] l
  | define : R.patch.nodes[i]? = some ⟨.define name params body, s⟩ →
      StatementsLowered R bank symbols l is bs l' →
      StatementsLowered R bank symbols l (i :: is) (none :: bs) l'
  | assign : R.patch.nodes[i]? = some ⟨.assign x v, s⟩ →
      Lowers R bank ⟨symbols, ["main", x], []⟩ v l b l₁ →
      StatementsLowered R bank (symbols.define (.ofVariable x b)) l₁ is bs l₂ →
      StatementsLowered R bank symbols l (i :: is) (some b :: bs) l₂
  | expr : (R.patch.nodes.kind i).isStatement = false →
      Lowers R bank ⟨symbols, ["main"], []⟩ i l b l₁ →
      StatementsLowered R bank symbols l₁ is bs l₂ →
      StatementsLowered R bank symbols l (i :: is) (some b :: bs) l₂

/-- What lowering the statements from `l` on comes to. -/
structure StatementsOk (R : Resolved) (bank : SampleRegistry) (n : Nat) (symbols : SymbolTable)
    (l : Lowered) (ids : List NodeId) : Prop where
  visits : ∀ v, some v ∈ visitsFrom R bank symbols l ids → VisitOk R n v
  findings : ∀ f ∈ ((lowerStatements R bank R.depth symbols ids).run l).2.findings,
    f.issue.isLowering
  visited : ((lowerStatements R bank R.depth symbols ids).run l).2.findings = [] →
    Visited R bank symbols l ids (visitsFrom R bank symbols l ids)
      ((lowerStatements R bank R.depth symbols ids).run l).2

theorem lowerStatements_cons
    (hrun : (lowerStatement r bank depth symbols i).run l = (symbols', l₁)) :
    (lowerStatements r bank depth symbols (i :: is)).run l =
      if Lowering.hasErrors l₁ then ((), l₁)
      else (lowerStatements r bank depth symbols' is).run l₁ := by
  rw [lowerStatements, StateT.run_bind, hrun]
  change StateT.run (if Lowering.hasErrors l₁ then _ else _) l₁ = _
  split <;> rfl

theorem visitsFrom_cons (hrun : (lowerStatement r bank r.depth symbols i).run l = (symbols', l₁)) :
    visitsFrom r bank symbols l (i :: is) =
      r.visit? symbols l i ::
        if Lowering.hasErrors l₁ then [] else visitsFrom r bank symbols' l₁ is := by
  rw [visitsFrom, hrun]

theorem hasErrors_of_findings (h : l.findings = []) : Lowering.hasErrors l = false := by
  simp [Lowering.hasErrors, h]

theorem StatementsOk.visit (next : Option Buffer → SymbolTable) (hR : NormalPatch R n)
    (hv : VisitOk R n v) (hvisit : R.visit? symbols v.before i = some v)
    (hrun : (lowerStatement R bank R.depth symbols i).run v.before =
      (next (v.result R bank).1, (v.result R bank).2))
    (hrest : ∀ {b l}, b ≠ .unused → MemoOk l → l.findings = [] →
      StatementsOk R bank n (next (some b)) l is)
    (hcons : ∀ {b l vs l'}, v.result R bank = (some b, l) →
      Visited R bank (next (some b)) l is vs l' →
      Visited R bank symbols v.before (i :: is) (some v :: vs) l') :
    StatementsOk R bank n symbols v.before (i :: is) := by
  have hsafe := hv.safe hR bank
  cases hres : v.result R bank with
  | mk o l₁ =>
    rw [hres] at hrun
    cases o with
    | none =>
      -- a statement with an error is the last
      have hfails := hsafe.of_none hres
      obtain ⟨fs, hfs, hne, hall⟩ := id hfails
      rw [hv.findings, List.nil_append] at hfs
      refine ⟨?_, ?_, ?_⟩
      · rw [visitsFrom_cons hrun, hvisit, hfails.hasErrors]
        simpa using hv
      · rw [lowerStatements_cons hrun, hfails.hasErrors]
        simpa [hfs] using hall
      · rw [lowerStatements_cons hrun, hfails.hasErrors]
        intro hnil
        simp [hfs, hne] at hnil
    | some b =>
      obtain ⟨hf, hb, hmemo, -⟩ := hsafe.of_some hres
      have hl₁ : l₁.findings = [] := hf.trans hv.findings
      have herr := hasErrors_of_findings hl₁
      have hrest := hrest hb hmemo hl₁
      refine ⟨?_, ?_, ?_⟩
      · rw [visitsFrom_cons hrun, hvisit, herr]
        intro v' hv'
        rcases List.mem_cons.mp hv' with hv' | hv'
        · cases hv'
          exact hv
        · exact hrest.visits v' (by simpa using hv')
      · rw [lowerStatements_cons hrun, herr]
        simpa using hrest.findings
      · rw [lowerStatements_cons hrun, herr, visitsFrom_cons hrun, herr, hvisit]
        exact fun h => hcons hres (hrest.visited h)

theorem StatementsOk.define (hnode : R.patch.nodes[i]? = some ⟨.define name params body, s⟩)
    (hl : l.findings = []) (h : StatementsOk R bank n symbols l is) :
    StatementsOk R bank n symbols l (i :: is) := by
  have hvisit : R.visit? symbols l i = none := by
    unfold Resolved.visit?
    rw [Arena.kind_eq hnode]
  have hrun : (lowerStatement R bank R.depth symbols i).run l = (symbols, l) := by
    unfold lowerStatement
    rw [Arena.kind_eq hnode]
    rfl
  have herr := hasErrors_of_findings hl
  refine ⟨?_, ?_, ?_⟩
  · rw [visitsFrom_cons hrun, hvisit, herr]
    intro v hv
    exact h.visits v (by simpa using hv)
  · rw [lowerStatements_cons hrun, herr]
    simpa using h.findings
  · rw [lowerStatements_cons hrun, herr, visitsFrom_cons hrun, herr, hvisit]
    exact fun hf => .define hnode (h.visited hf)

theorem StatementsOk.assign (hR : NormalPatch R n)
    (hnode : R.patch.nodes[i]? = some ⟨.assign x value, s⟩)
    (hv : VisitOk R n ⟨R.depth, ⟨symbols, ["main", x], []⟩, value, l⟩)
    (hrest : ∀ {b l}, b ≠ .unused → MemoOk l → l.findings = [] →
      StatementsOk R bank n (symbols.define (.ofVariable x b)) l is) :
    StatementsOk R bank n symbols l (i :: is) := by
  refine .visit (fun o => o.elim symbols fun b => symbols.define (.ofVariable x b)) hR hv
    ?_ ?_ hrest (.assign hnode)
  · unfold Resolved.visit?
    rw [Arena.kind_eq hnode]
  · unfold lowerStatement
    rw [Arena.kind_eq hnode]
    dsimp only
    rw [StateT.run_bind]
    unfold Visit.result exec
    dsimp only
    generalize (lower R bank R.depth ⟨symbols, ["main", x], []⟩ value).run.run l = out
    obtain ⟨o, l'⟩ := out
    cases o <;> rfl

theorem StatementsOk.expr (hR : NormalPatch R n)
    (hkind : (R.patch.nodes.kind i).isStatement = false)
    (hv : VisitOk R n ⟨R.depth, ⟨symbols, ["main"], []⟩, i, l⟩)
    (hrest : ∀ {l}, MemoOk l → l.findings = [] → StatementsOk R bank n symbols l is) :
    StatementsOk R bank n symbols l (i :: is) := by
  refine .visit (fun _ => symbols) hR hv ?_ ?_ (fun _ => hrest) (.expr hkind)
  · unfold Resolved.visit?
    cases hk : R.patch.nodes.kind i <;> simp_all [NodeKind.isStatement]
  · unfold lowerStatement
    cases hk : R.patch.nodes.kind i <;> first | rfl | simp [hk, NodeKind.isStatement] at hkind

theorem SiteOk.atPath (h : SiteOk R scope ⟨table, path, []⟩) (path' : List String) :
    SiteOk R scope ⟨table, path', []⟩ :=
  ⟨h.values, h.symbols, h.nodup, h.functions⟩

theorem Scope.add_variableSymbol {vars : Scope} (hfree : vars.find? (Text.fingerprint x) = none)
    (span : Span) :
    vars.add (variableSymbol x span) = variableSymbol x span :: vars := by
  unfold Scope.add
  rw [show (variableSymbol x span).hash = Text.fingerprint x from rfl, hfree]
  rfl

theorem SiteOk.assign (h : SiteOk R vars ⟨table, path, []⟩)
    (hfree : vars.find? (Text.fingerprint x) = none) (hb : b ≠ .unused) (span : Span) :
    SiteOk R (variableSymbol x span :: vars) ⟨table.define (.ofVariable x b), path, []⟩ := by
  obtain ⟨bound, hsym, houtline, hbound⟩ := h.symbols
  dsimp only at hsym
  refine ⟨?_, ⟨bound.add (.ofVariable x b), ?_, ?_, ?_⟩, h.nodup, h.functions⟩
  · intro s hs
    rcases List.mem_cons.mp hs with rfl | hs
    · rfl
    · exact h.values s hs
  · rw [hsym, SymbolTable.define_above]
  · rw [← Scope.add_variableSymbol hfree]
    exact Scope.add_outline houtline rfl
  · intro s hs
    rcases Scope.mem_add hs with rfl | hs
    · exact hb
    · exact hbound s hs

theorem VisitOk.root (hR : NormalPatch R n) (h : Normal R (.above R.symbols.globals scope) n i)
    (hsite : SiteOk R scope ⟨symbols, path, []⟩) (hmemo : MemoOk l) (hl : l.findings = []) :
    VisitOk R n ⟨R.depth, ⟨symbols, path, []⟩, i, l⟩ := by
  refine ⟨⟨scope, h, hsite⟩, ?_, hmemo, hl⟩
  have hrank := rank_le n i
  have hsize := hR.size
  simp only [budget, Resolved.depth, List.length_nil, Nat.sub_zero, Nat.succ_mul]
  omega

theorem lowerStatements_ok (hR : NormalPatch R n) (h : StatementsNormal R n vars ids) :
    ∀ {symbols l}, SiteOk R vars ⟨symbols, [], []⟩ → MemoOk l → l.findings = [] →
      StatementsOk R bank n symbols l ids := by
  induction h with
  | nil =>
    intro symbols l _ _ hl
    refine ⟨by simp [visitsFrom], ?_, fun _ => .nil⟩
    change ∀ f ∈ l.findings, _
    simp [hl]
  | define hnode _ ih =>
    intro symbols l hsite hmemo hl
    exact .define hnode hl (ih hsite hmemo hl)
  | assign hnode hv hfree _ ih =>
    intro symbols l hsite hmemo hl
    refine .assign hR hnode (.root hR hv (hsite.atPath _) hmemo hl) ?_
    exact fun hb hmemo' hl' => ih (hsite.assign hfree hb _) hmemo' hl'
  | expr hv _ ih =>
    intro symbols l hsite hmemo hl
    obtain ⟨node, hnode, hkind⟩ := hv.root
    rw [← Arena.kind_eq hnode] at hkind
    exact .expr hR hkind (.root hR hv (hsite.atPath _) hmemo hl) (ih hsite)

/-! ## Patches -/

def Resolved.buffers (r : Resolved) (bank : SampleRegistry) : List (Option Buffer) :=
  buffersFrom r bank r.symbols.push {} r.patch.statements

def Resolved.walked (r : Resolved) (bank : SampleRegistry) : Lowered :=
  ((lowerStatements r bank r.depth r.symbols.push r.patch.statements).run {}).2

theorem NormalPatch.siteOk (hR : NormalPatch R n) : SiteOk R [] ⟨R.symbols.push, [], []⟩ := by
  refine ⟨by simp, ⟨[], ?_, rfl, by simp⟩, .nil, by simp⟩
  dsimp only
  rw [hR.symbols]
  exact SymbolTable.push_eq_above R.symbols.globals

theorem NormalPatch.statementsOk (hR : NormalPatch R n) (bank : SampleRegistry) :
    StatementsOk R bank n R.symbols.push {} R.patch.statements := by
  refine lowerStatements_ok hR hR.statements hR.siteOk ?_ rfl
  intro i b hb
  simp at hb

theorem NormalPatch.isLowering (hR : NormalPatch R n) (bank : SampleRegistry) :
    ∀ f ∈ (R.lower bank).findings, f.issue.isLowering :=
  (hR.statementsOk bank).findings

theorem NormalPatch.findings_eq_nil (hR : NormalPatch R n) (h : (R.lower bank).success) :
    (R.lower bank).findings = [] := by
  refine List.eq_nil_iff_forall_not_mem.mpr fun f hf => ?_
  change (!Lowering.hasErrors (R.walked bank)) = true at h
  have hsuccess : Lowering.hasErrors (R.walked bank) = false := by simpa using h
  have := List.any_eq_false.mp hsuccess f hf
  simp [Finding.isError, Issue.severity_of_isLowering (hR.isLowering bank f hf)] at this

theorem NormalPatch.visited (hR : NormalPatch R n) (h : (R.lower bank).success) :
    Visited R bank R.symbols.push {} R.patch.statements (R.visits bank) (R.walked bank) :=
  (hR.statementsOk bank).visited (hR.findings_eq_nil h)

theorem VisitOk.lowers (h : VisitOk R n v) (hR : NormalPatch R n)
    (hv : v.result R bank = (some b, l')) :
    Lowers R bank v.site v.node v.before b l' :=
  ((h.safe hR bank).of_some hv).2.2.2

theorem Visited.lowered (h : Visited R bank symbols l ids vs l') (hR : NormalPatch R n)
    (hvs : ∀ v, some v ∈ vs → VisitOk R n v) :
    StatementsLowered R bank symbols l ids
      (vs.map fun v? => v?.bind fun v => (v.result R bank).1) l' := by
  induction h with
  | nil => exact .nil
  | define hnode _ ih => exact .define hnode (ih fun v hv => hvs v (List.mem_cons_of_mem _ hv))
  | assign hnode hv _ ih =>
    rw [List.map_cons, Option.bind_some, hv]
    exact .assign hnode ((hvs _ List.mem_cons_self).lowers hR hv)
      (ih fun v hv => hvs v (List.mem_cons_of_mem _ hv))
  | expr hkind hv _ ih =>
    rw [List.map_cons, Option.bind_some, hv]
    exact .expr hkind ((hvs _ List.mem_cons_self).lowers hR hv)
      (ih fun v hv => hvs v (List.mem_cons_of_mem _ hv))

theorem NormalPatch.lowered (hR : NormalPatch R n) (h : (R.lower bank).success) :
    StatementsLowered R bank R.symbols.push {} R.patch.statements
      (R.buffers bank) (R.walked bank) :=
  (hR.visited h).lowered hR (hR.statementsOk bank).visits

theorem StatementsLowered.buffer {k : Nat} (h : StatementsLowered R bank symbols l ids bs l')
    (hi : ids[k]? = some i)
    (hkind : ∀ name params body, R.patch.nodes.kind i ≠ .define name params body) :
    ∃ b, bs[k]? = some (some b) := by
  induction h generalizing k with
  | nil => simp at hi
  | define hnode _ ih =>
    cases k with
    | zero =>
      cases hi
      exact absurd (Arena.kind_eq hnode) (hkind _ _ _)
    | succ k => exact ih hi
  | assign _ _ _ ih | expr _ _ _ ih =>
    cases k with
    | zero => exact ⟨_, rfl⟩
    | succ k => exact ih hi

theorem VisitOk.reachable (h : VisitOk R n v) (hR : NormalPatch R n)
    (hcalls : Relation.ReflTransGen (Calls R bank) v v') : VisitOk R n v' := by
  induction hcalls with
  | refl => exact h
  | tail _ hcall ih => exact ih.calls hR hcall

/-- Lowering reports errors of four kinds only, no visit fails without one, and success means that
every statement has a buffer. -/
structure FailsWithReason (R : Resolved) (bank : SampleRegistry) : Prop where
  codes : ∀ f ∈ (R.lower bank).findings, f.issue.code ∈ ["E201", "E202", "E203", "E204"]
  visits : ∀ root v, some root ∈ R.visits bank → Relation.ReflTransGen (Calls R bank) root v →
    (v.result R bank).1 = none → Lowering.hasErrors (v.result R bank).2
  statements : (R.lower bank).success → ∀ (k : Nat) (i : NodeId), R.patch.statements[k]? = some i →
    (∀ name params body, R.patch.nodes.kind i ≠ .define name params body) →
    ∃ b, (R.buffers bank)[k]? = some (some b)

/-- A patch that was resolved without errors is lowered, or there is an error that tells why not. -/
theorem resolved_failsWithReason (tokens : List Token) (h : (parse tokens).patch.resolve.success)
    (bank : SampleRegistry) : FailsWithReason (parse tokens).patch.resolve bank := by
  have hR := parse_resolve_normal tokens h
  refine ⟨fun f hf => Issue.code_of_isLowering (hR.isLowering bank f hf), ?_, ?_⟩
  · intro root v hroot hcalls hnone
    have hv := ((hR.statementsOk bank).visits root hroot).reachable hR hcalls
    exact hv.hasErrors hR hnone
  · exact fun hsuccess k i hi hkind => (hR.lowered hsuccess).buffer hi hkind

theorem filteredSaw_failsWithReason :
    (parse filteredSaw).patch.resolve.success ∧
      FailsWithReason (parse filteredSaw).patch.resolve .drums :=
  ⟨resolve_filteredSaw, resolved_failsWithReason filteredSaw resolve_filteredSaw .drums⟩

end SignalPatch
