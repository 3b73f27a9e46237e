import Mathlib.Data.List.Forall2
import SignalPatch.Proofs.ArgumentMatching
import SignalPatch.Proofs.Scopes
import SignalPatch.Resolution

/-!
# What resolution makes of a tree

`Rewritten` relates a node of a patch as it was read to the node that stands for it in the resolved
patch. A hole is stood for by the node that flows into its own pipe, a pipe by its right side, and
every other node by itself, with its children exchanged for the nodes that stand for them.

`Within` bounds what a step of resolution changes, and `Kept` says what of it reaches the resolved
patch. The steps that are not about trees are here: names, patterns, host parameters and calls.
-/

namespace SignalPatch

/-! ## Nodes of an arena -/

theorem Arena.kind_eq {nodes : Arena} {i : NodeId} {node : Node} (h : nodes[i]? = some node) :
    nodes.kind i = node.kind := by
  simp [Arena.kind, Arena.node, Array.getD_eq_getD_getElem?, h]

theorem Arena.span_eq {nodes : Arena} {i : NodeId} {node : Node} (h : nodes[i]? = some node) :
    nodes.span i = node.span := by
  simp [Arena.span, Arena.node, Array.getD_eq_getD_getElem?, h]

theorem Arena.getElem?_of_kind {nodes : Arena} {i : NodeId} {kind : NodeKind}
    (h : nodes.kind i = kind) (hk : kind ≠ .hole) : nodes[i]? = some ⟨kind, nodes.span i⟩ := by
  cases hn : nodes[i]? with
  | none =>
    simp [Arena.kind, Arena.node, Array.getD_eq_getD_getElem?, hn] at h
    exact absurd h.symm hk
  | some node => rw [← h, kind_eq hn, span_eq hn]

theorem Arena.span_congr {nodes nodes' : Arena} {i : NodeId} (h : nodes'[i]? = nodes[i]?) :
    nodes'.span i = nodes.span i := by
  simp [Arena.span, Arena.node, Array.getD_eq_getD_getElem?, h]

@[simp] theorem Arena.size_setKind (nodes : Arena) (i : NodeId) (kind : NodeKind) :
    (nodes.setKind i kind).size = nodes.size := by
  simp [setKind]

theorem Arena.getElem?_setKind_self {nodes : Arena} {i : NodeId} {node : Node}
    (h : nodes[i]? = some node) (kind : NodeKind) :
    (nodes.setKind i kind)[i]? = some ⟨kind, node.span⟩ := by
  simp [setKind, Array.getElem?_modify, h]

theorem Arena.getElem?_setKind_ne {i k : Nat} (nodes : Arena) (kind : NodeKind) (h : k ≠ i) :
    (nodes.setKind i kind)[k]? = nodes[k]? := by
  simp [setKind, Array.getElem?_modify, Ne.symm h]

theorem Arena.span_setKind (nodes : Arena) (i : NodeId) (kind : NodeKind) (k : NodeId) :
    (nodes.setKind i kind).span k = nodes.span k := by
  by_cases h : k = i
  · subst h
    cases hk : nodes[k]? with
    | none => exact span_congr (by simp [setKind, Array.getElem?_modify, hk])
    | some node => rw [span_eq (getElem?_setKind_self hk kind), span_eq hk]
  · exact span_congr (getElem?_setKind_ne _ _ h)

/-- Numbers, truth values and texts: resolution leaves their nodes alone. -/
def NodeKind.isLiteral : NodeKind → Bool
  | .number _ | .bool _ | .text _ => true
  | _ => false

/-! ## The relation -/

def Meaning.signature? : Meaning → Option Signature
  | .builtin b => some b.params
  | .function f => some f.params
  | .variable | .parameter => none

def Meaning.Checked (R : Resolved) (values : List NodeId) : Meaning → Prop
  | .builtin b =>
    match b.kind with
    | .op _ => True
    | .pattern => ∀ v, values.head? = some v → ∃ t s p, R.patch.nodes[v]? = some ⟨.text t, s⟩ ∧
        R.patterns.lookup v = some p ∧ Pattern.parse t s = .ok p
    | .control _ => ∀ v, values.head? = some v → ∃ name s,
        R.patch.nodes[v]? = some ⟨.text name, s⟩ ∧ (R.hostParams.find? (·.name == name)).isSome
  | _ => True

/-- In the resolved patch the call at `i` has one unnamed argument per parameter of what it calls.
Each is one of the arguments it was given, or a literal made for it behind the first `n` nodes. -/
inductive CallResolved (R : Resolved) (T : SymbolTable) (n : Nat) (s : Span) (callee : String)
    (args : List (Arg NodeId)) (i : NodeId) : Prop
  | intro : (T.lookup callee).map Symbol.meaning = some m → m.signature? = some params →
      Binding.Supplies (fun v x => n ≤ v ∧ R.patch.nodes[v]? = some ⟨.number x, s⟩) params args
        (args'.map Arg.value) →
      R.patch.nodes[i]? = some ⟨.call callee args', s⟩ → (∀ a ∈ args', a.name = none) →
      m.Checked R (args'.map Arg.value) → CallResolved R T n s callee args i

/-- The host parameter that a call at `s` with these arguments declares: the first is its name, the
others are its numbers. -/
inductive HostParam.DeclaredBy (p : HostParam) (R : Resolved) (args : List (Arg NodeId))
    (s : Span) :
    Prop
  | intro {v : NodeId} {text : String} : args.map Arg.value = v :: vs →
      R.patch.nodes[v]? = some ⟨.text text, t⟩ → Resolving.numbers R.patch.nodes vs = .ok values →
      p = .make p.kind text values s → DeclaredBy p R args s

inductive Declared (R : Resolved) (p : HostParam) : Prop
  | intro {i : NodeId} : R.patch.nodes[i]? = some ⟨.call callee args, s⟩ →
      Builtin.find? callee = some b →
      b.kind = .control p.kind → p.DeclaredBy R args s → Declared R p

def Declares (R : Resolved) (r r' : Resolution) : Prop :=
  ∀ p ∈ r'.hostParams, p ∈ r.hostParams ∨ Declared R p

theorem Declares.of_eq (h : r'.hostParams = r.hostParams) : Declares R r r' :=
  fun _ hp => .inl (h ▸ hp)

theorem Declares.trans (h : Declares R r₁ r₂) (h' : Declares R r₂ r₃) : Declares R r₁ r₃ :=
  fun p hp => (h' p hp).elim (h p) .inr

/-- `Rewritten P R T hole i j`: the node `j` of the resolved patch `R` stands for the node `i` of
the arena `P` that was read, where `T` gives the meaning of names and a hole is stood for by
`hole`. -/
inductive Rewritten (P : Arena) (R : Resolved) (T : SymbolTable) :
    Option NodeId → NodeId → NodeId → Prop
  | literal : P[i]? = some node → node.kind.isLiteral → R.patch.nodes[i]? = some node →
      Rewritten P R T hole i i
  | ident : P[i]? = some ⟨.ident x, s⟩ → R.patch.nodes[i]? = some ⟨.ident x, s⟩ →
      T.lookup x = some symbol → symbol.isValue → Rewritten P R T hole i i
  | hole : P[i]? = some ⟨.hole, s⟩ → Rewritten P R T (some j) i j
  | binary : P[i]? = some ⟨.binary op lhs rhs, s⟩ → Rewritten P R T hole lhs lhs' →
      Rewritten P R T hole rhs rhs' → R.patch.nodes[i]? = some ⟨.binary op lhs' rhs', s⟩ →
      Rewritten P R T hole i i
  | pipe : P[i]? = some ⟨.pipe source target, s⟩ → Rewritten P R T hole source source' →
      Rewritten P R T (some source') target target' → Rewritten P R T hole i target'
  | call : P[i]? = some ⟨.call callee args, s⟩ → args'.map Arg.name = args.map Arg.name →
      (∀ q ∈ args.zip args', Rewritten P R T hole q.1.value q.2.value) →
      CallResolved R T P.size s callee args' i → Rewritten P R T hole i i

/-! ## What a step of resolution leaves alone -/

/-- Every pattern kept under a node was read from the text of that node. -/
def PatternsRead (nodes : Arena) (patterns : List (NodeId × Pattern)) : Prop :=
  ∀ k p, patterns.lookup k = some p → ∃ t s, nodes[k]? = some ⟨.text t, s⟩ ∧
    Pattern.parse t s = .ok p

theorem PatternsRead.mono {nodes nodes' : Arena} (h : PatternsRead nodes patterns)
    (hl : ∀ (k : Nat) node, nodes[k]? = some node → node.kind.isLiteral → nodes'[k]? = some node) :
    PatternsRead nodes' patterns := by
  intro k p hk
  obtain ⟨t, s, hnode, hparse⟩ := h k p hk
  exact ⟨t, s, hl k _ hnode rfl, hparse⟩

def Hashed (params : List HostParam) : Prop := ∀ p ∈ params, p.hash = Text.fingerprint p.name

/-- Every call of the second arena is a call of the same function, at the same place, in the
first. -/
def Arena.SameCalls (nodes nodes' : Arena) : Prop :=
  ∀ (k : Nat) callee args s, nodes'[k]? = some ⟨.call callee args, s⟩ →
    ∃ args', nodes[k]? = some ⟨.call callee args', s⟩

/-- A step of resolution that changes only nodes from `a` up to `b`, and no literal. -/
structure Within (a b : Nat) (r r' : Resolution) : Prop where
  symbols : r'.symbols = r.symbols
  findings : r.findings <+: r'.findings
  size : r.nodes.size ≤ r'.nodes.size
  nodes : ∀ k < r.nodes.size, k < a ∨ b ≤ k → r'.nodes[k]? = r.nodes[k]?
  spans : ∀ k < r.nodes.size, r'.nodes.span k = r.nodes.span k
  literals : ∀ (k : Nat) node, r.nodes[k]? = some node → node.kind.isLiteral →
    r'.nodes[k]? = some node
  calls : r.nodes.SameCalls r'.nodes
  hostParams : r.hostParams <+: r'.hostParams
  patterns : ∀ k, (r.patterns.lookup k).isSome → (r'.patterns.lookup k).isSome
  read : PatternsRead r.nodes r.patterns → PatternsRead r'.nodes r'.patterns
  hashed : Hashed r.hostParams → Hashed r'.hostParams

namespace Within

theorem refl (a b : Nat) (r : Resolution) : Within a b r r :=
  ⟨rfl, List.prefix_rfl, Nat.le_refl _, fun _ _ _ => rfl, fun _ _ => rfl, fun _ _ h _ => h,
    fun _ _ _ _ h => ⟨_, h⟩, List.prefix_rfl, fun _ h => h, fun h => h, fun h => h⟩

theorem widen (h : Within a b r r') (ha : a' ≤ a) (hb : b ≤ b') : Within a' b' r r' :=
  { h with nodes := fun k hk hout => h.nodes k hk (by omega) }

theorem trans (h : Within a b r₁ r₂) (h' : Within a b r₂ r₃) : Within a b r₁ r₃ where
  symbols := h'.symbols.trans h.symbols
  findings := h.findings.trans h'.findings
  size := Nat.le_trans h.size h'.size
  nodes := fun k hk hout =>
    (h'.nodes k (Nat.lt_of_lt_of_le hk h.size) hout).trans (h.nodes k hk hout)
  spans := fun k hk => (h'.spans k (Nat.lt_of_lt_of_le hk h.size)).trans (h.spans k hk)
  literals := fun k node hk hl => h'.literals k node (h.literals k node hk hl) hl
  calls := fun k callee args s hk => by
    obtain ⟨args', hk'⟩ := h'.calls k callee args s hk
    exact h.calls k callee args' s hk'
  hostParams := h.hostParams.trans h'.hostParams
  patterns := fun k hk => h'.patterns k (h.patterns k hk)
  read := fun hr => h'.read (h.read hr)
  hashed := fun hp => h'.hashed (h.hashed hp)

theorem report (a b : Nat) (r : Resolution) (fs : List Finding) :
    Within a b r { r with findings := r.findings ++ fs } :=
  { refl a b r with findings := ⟨fs, rfl⟩ }

theorem setKind {r : Resolution} (h : r.nodes[i]? = some node) (hl : node.kind.isLiteral = false)
    (kind : NodeKind)
    (hcall : ∀ callee args, kind = .call callee args → ∃ args', node.kind = .call callee args') :
    Within i (i + 1) r { r with nodes := r.nodes.setKind i kind } := by
  have hlits : ∀ (k : Nat) (old : Node), r.nodes[k]? = some old → old.kind.isLiteral →
      (r.nodes.setKind i kind)[k]? = some old := by
    intro k old hk hlit
    have hne : k ≠ i := by
      rintro rfl
      cases h.symm.trans hk
      simp [hl] at hlit
    rw [Arena.getElem?_setKind_ne _ _ hne, hk]
  exact { refl i (i + 1) r with
    size := by simp
    nodes := fun k _ hout => Arena.getElem?_setKind_ne _ _ (by omega)
    spans := fun k _ => Arena.span_setKind ..
    literals := hlits
    calls := fun k callee args s hk => by
      by_cases hki : k = i
      · subst hki
        cases (Arena.getElem?_setKind_self h kind).symm.trans hk
        obtain ⟨args', hargs⟩ := hcall callee args rfl
        exact ⟨args', by rw [h, ← hargs]⟩
      · exact ⟨args, by rwa [Arena.getElem?_setKind_ne _ _ hki] at hk⟩
    read := fun hr => hr.mono hlits }

theorem grow {r : Resolution} (a b : Nat) {grown : Arena} (h : r.nodes.Extends grown)
    (hfresh : ∀ (k : Nat) node, r.nodes.size ≤ k → grown[k]? = some node → node.kind.isLiteral) :
    Within a b r { r with nodes := grown } := by
  have hkeep : ∀ (k : Nat) (old : Node), r.nodes[k]? = some old → old.kind.isLiteral →
      grown[k]? = some old :=
    fun k old hk _ => (h.2 k (Array.getElem?_eq_some_iff.mp hk).1).trans hk
  exact { refl a b r with
    size := h.1
    nodes := fun k hk _ => h.2 k hk
    spans := fun k hk => Arena.span_congr (h.2 k hk)
    literals := hkeep
    calls := fun k callee args s hk => by
      by_cases hlt : k < r.nodes.size
      · exact ⟨args, (h.2 k hlt).symm.trans hk⟩
      · exact absurd (hfresh k _ (by omega) hk) (by simp [NodeKind.isLiteral])
    read := fun hr => hr.mono hkeep }

theorem withSymbols (h : Within a b r r') (t : SymbolTable) :
    Within a b { r with symbols := t } { r' with symbols := t } :=
  { h with symbols := rfl }

theorem leaveScope (h : Within a b { r with symbols := t } r₁) (hsym : r.symbols = t') :
    Within a b r { r₁ with symbols := t' } :=
  hsym ▸ h.withSymbols r.symbols

end Within

/-- The finished patch `R` still has what `r` had made: the nodes from `a` up to `b`, the literals,
all places, and all that lies behind the first `n` nodes. -/
structure Kept (n a b : Nat) (r : Resolution) (R : Resolved) : Prop where
  findings : r.findings <+: R.findings
  nodes : ∀ k, a ≤ k → k < b → R.patch.nodes[k]? = r.nodes[k]?
  fresh : ∀ k, n ≤ k → k < r.nodes.size → R.patch.nodes[k]? = r.nodes[k]?
  spans : ∀ k < r.nodes.size, R.patch.nodes.span k = r.nodes.span k
  literals : ∀ (k : Nat) node, r.nodes[k]? = some node → node.kind.isLiteral →
    R.patch.nodes[k]? = some node
  hostParams : r.hostParams <+: R.hostParams
  patterns : ∀ k, (r.patterns.lookup k).isSome → (R.patterns.lookup k).isSome
  read : PatternsRead R.patch.nodes R.patterns

theorem Kept.before (h : Kept n a b r' R) (hw : Within c d r r') (hd : d ≤ n) (ha : a ≤ a')
    (hb : b' ≤ b) (hdis : b' ≤ c ∨ d ≤ a') (hsize : b' ≤ r.nodes.size) : Kept n a' b' r R where
  findings := hw.findings.trans h.findings
  nodes := fun k h₁ h₂ =>
    (h.nodes k (by omega) (by omega)).trans (hw.nodes k (by omega) (by omega))
  fresh := fun k h₁ h₂ => by
    have := hw.size
    exact (h.fresh k h₁ (by omega)).trans (hw.nodes k h₂ (by omega))
  spans := fun k hk => (h.spans k (Nat.lt_of_lt_of_le hk hw.size)).trans (hw.spans k hk)
  literals := fun k node hk hl => h.literals k node (hw.literals k node hk hl) hl
  hostParams := hw.hostParams.trans h.hostParams
  patterns := fun k hk => h.patterns k (hw.patterns k hk)
  read := h.read

theorem Kept.narrow (h : Kept n a b r R) (ha : a ≤ a') (hb : b' ≤ b) : Kept n a' b' r R :=
  { h with nodes := fun k h₁ h₂ => h.nodes k (by omega) (by omega) }

theorem Kept.withSymbols (h : Kept n a b r R) (t : SymbolTable) :
    Kept n a b { r with symbols := t } R :=
  { h with }

theorem Kept.noError (h : Kept n a b r R) (hR : R.success) :
    ∀ f ∈ r.findings, f.isError = false := by
  intro f hf
  have : R.findings.any Finding.isError = false := by simpa [Resolved.success] using hR
  simpa using List.any_eq_false.mp this f (h.findings.subset hf)

/-! ## Running steps -/

namespace Resolving

theorem run_bind (x : Resolving α) (f : α → Resolving β) (r : Resolution) :
    (x >>= f).run r = (f (x.run r).1).run (x.run r).2 := rfl

theorem run_pure (a : α) (r : Resolution) : (pure a : Resolving α).run r = (a, r) := rfl

theorem run_get (r : Resolution) : (get : Resolving Resolution).run r = (r, r) := rfl

theorem run_set (r r' : Resolution) : (set r' : Resolving Unit).run r = ((), r') := rfl

theorem run_modify (f : Resolution → Resolution) (r : Resolution) :
    (modify f : Resolving Unit).run r = ((), f r) := rfl

theorem run_kindOf (i : NodeId) (r : Resolution) : (kindOf i).run r = (r.nodes.kind i, r) := rfl

theorem run_spanOf (i : NodeId) (r : Resolution) : (spanOf i).run r = (r.nodes.span i, r) := rfl

theorem run_lookup (n : String) (r : Resolution) : (lookup n).run r = (r.symbols.lookup n, r) := rfl

theorem run_report (issue : Issue) (span : Span) (r : Resolution) :
    (report issue span).run r = ((), { r with findings := r.findings ++ [⟨issue, span⟩] }) := rfl

theorem run_setKind (i : NodeId) (kind : NodeKind) (r : Resolution) :
    (setKind i kind).run r = ((), { r with nodes := r.nodes.setKind i kind }) := rfl

theorem run_setSymbols (f : SymbolTable → SymbolTable) (r : Resolution) :
    (setSymbols f).run r = ((), { r with symbols := f r.symbols }) := rfl

def Clean (fs : List Finding) : Prop := ∀ f ∈ fs, f.isError = false

theorem Clean.of_prefix (h : Clean fs') (hp : fs <+: fs') : Clean fs :=
  fun f hf => h f (hp.subset hf)

theorem not_clean_report {issue : Issue} (h : issue.severity = .error) (fs : List Finding)
    (span : Span) : ¬ Clean (fs ++ [⟨issue, span⟩]) := by
  intro hc
  have := hc ⟨issue, span⟩ (by simp)
  simp [Finding.isError, h] at this

/-! ## Names, patterns and host parameters -/

theorem checkValue_ok (a b : Nat) (x : String) (span : Span) (r : Resolution) :
    Within a b r ((checkValue x span).run r).2 ∧
      (Clean ((checkValue x span).run r).2.findings →
        ∃ symbol, r.symbols.lookup x = some symbol ∧ symbol.isValue) := by
  unfold checkValue
  rw [run_bind, run_lookup]
  cases hl : r.symbols.lookup x with
  | none => exact ⟨.report a b r _, fun hc => absurd hc (not_clean_report rfl _ _)⟩
  | some symbol =>
    cases hv : symbol.isValue with
    | true =>
      simp only [hv, ↓reduceIte, run_pure]
      exact ⟨.refl a b r, fun _ => ⟨symbol, rfl, hv⟩⟩
    | false =>
      simp only [hv, Bool.false_eq_true, ↓reduceIte, run_report]
      exact ⟨.report a b r _, fun hc => absurd hc (not_clean_report rfl _ _)⟩

theorem checkValue_frame (x : String) (span : Span) (r : Resolution) :
    ((checkValue x span).run r).2 =
      { r with findings := ((checkValue x span).run r).2.findings } := by
  unfold checkValue
  rw [run_bind, run_lookup]
  cases r.symbols.lookup x with
  | none => rfl
  | some symbol => cases hv : symbol.isValue <;> simp only [hv] <;> rfl

theorem lookup_update (patterns : List (NodeId × Pattern)) (i : NodeId) (p : Pattern) (k : NodeId) :
    (patterns.filter (·.1 != i) ++ [(i, p)]).lookup k =
      if k = i then some p else patterns.lookup k := by
  induction patterns with
  | nil => by_cases h : k = i <;> simp [h]
  | cons q patterns ih =>
    obtain ⟨j, p'⟩ := q
    by_cases hji : j = i
    · subst hji
      by_cases h : k = j
      · simpa [h] using ih
      · have hb : (k == j) = false := by simpa using h
        simpa [h, List.lookup_cons, hb] using ih
    · by_cases h : k = j
      · subst h
        simp [hji]
      · have hb : (k == j) = false := by simpa using h
        simpa [hji, List.lookup_cons, hb] using ih

theorem parse_error (h : Pattern.parse t s = .error f) :
    ∃ m : Pattern.Misread, f.issue = .badPattern m.fault := by
  dsimp only [Pattern.parse] at h
  cases hp : Pattern.ofChars t.toList with
  | error m =>
    rw [hp] at h
    cases h
    exact ⟨m, rfl⟩
  | ok p =>
    rw [hp] at h
    cases h

theorem readPattern_frame (i : NodeId) (r : Resolution) :
    ∃ patterns findings, ((readPattern i).run r).2 = { r with patterns, findings } ∧
      ∀ k ≠ i, patterns.lookup k = r.patterns.lookup k := by
  unfold readPattern
  rw [run_bind, run_kindOf]
  cases r.nodes.kind i with
  | text t =>
    simp only [run_bind, run_spanOf]
    cases Pattern.parse t (r.nodes.span i) with
    | ok p => exact ⟨_, _, rfl, fun k hk => (lookup_update r.patterns i p k).trans (if_neg hk)⟩
    | error f => exact ⟨_, _, rfl, fun _ _ => rfl⟩
  | _ => exact ⟨_, _, rfl, fun _ _ => rfl⟩

theorem readPattern_hostParams (i : NodeId) (r : Resolution) :
    ((readPattern i).run r).2.hostParams = r.hostParams := by
  obtain ⟨_, _, hrun, -⟩ := readPattern_frame i r
  rw [hrun]

theorem readPattern_ok (a b : Nat) (i : NodeId) (r : Resolution) :
    Within a b r ((readPattern i).run r).2 ∧
      (Clean ((readPattern i).run r).2.findings → ∃ t s, r.nodes[i]? = some ⟨.text t, s⟩ ∧
        (((readPattern i).run r).2.patterns.lookup i).isSome) := by
  unfold readPattern
  rw [run_bind, run_kindOf]
  cases hk : r.nodes.kind i with
  | text t =>
    have hnode := Arena.getElem?_of_kind hk (by simp)
    simp only [run_bind, run_spanOf]
    cases hp : Pattern.parse t (r.nodes.span i) with
    | error f =>
      refine ⟨.report a b r _, fun hc => absurd hc (not_clean_report ?_ _ _)⟩
      obtain ⟨m, hm⟩ := parse_error hp
      simp [hm, Issue.severity]
    | ok p =>
      have hlook := lookup_update r.patterns i p
      -- What was there is kept, and the new entry is what the text at `i` says.
      refine ⟨{ Within.refl a b r with patterns := ?_, read := ?_ }, fun _ => ⟨t, _, hnode, ?_⟩⟩
      · intro k hsome
        simp only [run_modify, hlook]
        split <;> simp_all
      · intro hr k q hq
        simp only [run_modify, hlook] at hq
        split at hq
        · subst_vars
          cases hq
          exact ⟨t, _, hnode, hp⟩
        · exact hr k q hq
      · simp only [run_modify, hlook, ↓reduceIte, Option.isSome_some]
  | _ => exact ⟨.report a b r _, fun hc => absurd hc (not_clean_report rfl _ _)⟩

theorem declare_prefix (ps : List HostParam) (p : HostParam) : ps <+: HostParam.declare ps p := by
  unfold HostParam.declare
  split
  · exact List.prefix_rfl
  · exact List.prefix_append _ _

theorem declare_hashed (h : Hashed ps) (hp : p.hash = Text.fingerprint p.name) :
    Hashed (HostParam.declare ps p) := by
  unfold HostParam.declare
  split
  · exact h
  · intro q hq
    rcases List.mem_append.mp hq with hq | hq
    · exact h q hq
    · obtain rfl := List.mem_singleton.mp hq
      exact hp

theorem find?_declare (ps : List HostParam) (p : HostParam) :
    ((HostParam.declare ps p).find? (·.name == p.name)).isSome := by
  unfold HostParam.declare
  split
  · rename_i h
    simpa [List.find?_isSome] using h
  · simp

theorem declareHostParam_frame (callee : String) (kind : ControlKind) (args : List NodeId)
    (s : Span) (r : Resolution) :
    ∃ hostParams findings, ((declareHostParam callee kind args s).run r).2 =
      { r with hostParams, findings } := by
  unfold declareHostParam
  rw [run_bind, run_get]
  cases args with
  | nil => exact ⟨_, _, rfl⟩
  | cons v rest =>
    dsimp only
    cases r.nodes.kind v with
    | text name =>
      dsimp only
      cases numbers r.nodes rest <;> exact ⟨_, _, rfl⟩
    | _ => exact ⟨_, _, rfl⟩

theorem declareHostParam_ok (a b : Nat) (callee : String) (kind : ControlKind)
    (args : List NodeId) (span : Span) (r : Resolution) :
    Within a b r ((declareHostParam callee kind args span).run r).2 ∧
      (Clean ((declareHostParam callee kind args span).run r).2.findings →
        ∀ v, args.head? = some v → ∃ name s, r.nodes[v]? = some ⟨.text name, s⟩ ∧
          (((declareHostParam callee kind args span).run r).2.hostParams.find?
            (·.name == name)).isSome) := by
  unfold declareHostParam
  rw [run_bind, run_get]
  cases args with
  | nil => exact ⟨.refl a b r, by simp⟩
  | cons v rest =>
    dsimp only
    cases hk : r.nodes.kind v with
    | text name =>
      have hnode := Arena.getElem?_of_kind hk (by simp)
      dsimp only
      cases hn : numbers r.nodes rest with
      | error i => exact ⟨.report a b r _, fun hc => absurd hc (not_clean_report rfl _ _)⟩
      | ok values =>
        simp only [run_set]
        refine ⟨{ Within.refl a b r with
          findings := List.prefix_append _ _, hostParams := declare_prefix _ _,
          hashed := fun h => declare_hashed h rfl }, ?_⟩
        rintro - w hw
        obtain rfl : v = w := by simpa using hw
        exact ⟨name, _, hnode, find?_declare r.hostParams (HostParam.make kind name values span)⟩
    | _ => exact ⟨.report a b r _, fun hc => absurd hc (not_clean_report rfl _ _)⟩

theorem checkBuiltin_ok (a b : Nat) (callee : String) (f : Builtin) (args : List NodeId)
    (span : Span) (r : Resolution) :
    Within a b r ((checkBuiltin callee f args span).run r).2 := by
  unfold checkBuiltin
  cases f.kind with
  | op _ => exact .refl a b r
  | pattern =>
    cases args with
    | nil => exact .refl a b r
    | cons v _ => exact (readPattern_ok a b v r).1
  | control kind => exact (declareHostParam_ok a b callee kind args span r).1

/-- What is checked of a call of `m` once its arguments are matched. -/
def checkBound (callee : String) (m : Meaning) (s : Span) (values : Option (List NodeId)) :
    Resolving Unit :=
  match m, values with
  | .builtin f, some values => checkBuiltin callee f values s
  | _, _ => pure ()

theorem checkBound_ok (a b : Nat) (callee : String) (m : Meaning) (s : Span)
    (values : Option (List NodeId)) (r : Resolution) :
    Within a b r ((checkBound callee m s values).run r).2 := by
  unfold checkBound
  split
  · exact checkBuiltin_ok a b callee _ _ s r
  · exact .refl a b r

theorem checkBound_checked (hk : Kept n a b ((checkBound callee m s (some values)).run r).2 R)
    (hR : R.success) : m.Checked R values := by
  cases m with
  | builtin f =>
    have hc : Clean ((checkBuiltin callee f values s).run r).2.findings := hk.noError hR
    have hw := checkBuiltin_ok 0 0 callee f values s r
    unfold checkBound checkBuiltin at hk
    unfold checkBuiltin at hc hw
    simp only [Meaning.Checked]
    cases hf : f.kind with
    | op _ => trivial
    | pattern =>
      simp only [hf] at hk hc
      intro v hv
      obtain ⟨rest, rfl⟩ : ∃ rest, values = v :: rest := List.head?_eq_some_iff.mp hv
      obtain ⟨-, -, -, hsome⟩ := (readPattern_ok 0 0 v r).2 hc
      obtain ⟨p, hp⟩ := Option.isSome_iff_exists.mp (hk.patterns v hsome)
      obtain ⟨t, s, hnode, hparse⟩ := hk.read v p hp
      exact ⟨t, s, p, hnode, hp, hparse⟩
    | control kind =>
      simp only [hf] at hk hc hw
      intro v hv
      obtain ⟨name, s', hnode, hsome⟩ := (declareHostParam_ok 0 0 callee kind values s r).2 hc v hv
      -- The list of parameters only grows, so what was found then is found in the end.
      obtain ⟨rest, hrest⟩ := hk.hostParams
      refine ⟨name, s', hk.literals v _ (hw.literals v _ hnode rfl) rfl, ?_⟩
      rw [← hrest, List.find?_append, Option.isSome_or, hsome, Bool.true_or]
  | _ => trivial

theorem numbers_ok_iff {nodes : Arena} {vs : List NodeId} {values : List Float} :
    numbers nodes vs = .ok values ↔ List.Forall₂
      (fun v x => nodes.kind v = .number x) vs values := by
  induction vs generalizing values with
  | nil => cases values <;> simp [numbers]
  | cons v vs ih =>
    rw [numbers, List.forall₂_cons_left_iff]
    cases nodes.kind v with
    | number x =>
      cases hvs : numbers nodes vs <;> simp [← ih, hvs, Functor.map, Except.map, eq_comm]
    | _ => simp

theorem numbers_mono {nodes nodes' : Arena} (h : numbers nodes vs = .ok values)
    (hl : ∀ (k : Nat) node, nodes[k]? = some node → node.kind.isLiteral → nodes'[k]? = some node) :
    numbers nodes' vs = .ok values := by
  refine numbers_ok_iff.mpr ((numbers_ok_iff.mp h).imp fun v x hk => ?_)
  exact Arena.kind_eq (hl v _ (Arena.getElem?_of_kind hk (by simp)) rfl)

theorem nodup_declare (h : (ps.map HostParam.name).Nodup) :
    ((HostParam.declare ps p).map HostParam.name).Nodup := by
  unfold HostParam.declare
  split
  · exact h
  · rename_i hnew
    rw [List.map_append, List.nodup_append]
    refine ⟨h, by simp, ?_⟩
    rintro n hn _ (_ | ⟨_, ⟨⟩⟩) rfl
    obtain ⟨q, hq, hname⟩ := List.mem_map.mp hn
    exact hnew (List.any_eq_true.mpr ⟨q, hq, by simpa using hname⟩)

theorem mem_declare (h : p ∈ HostParam.declare ps q) : p ∈ ps ∨ p = q := by
  unfold HostParam.declare at h
  split at h
  · exact .inl h
  · simpa using h

theorem declareHostParam_declares {R : Resolved} {i : NodeId} {args : List (Arg NodeId)}
    (hnode : R.patch.nodes[i]? = some ⟨.call callee args, s⟩)
    (hfind : Builtin.find? callee = some f) (hkind : f.kind = .control kind)
    (hl : ∀ (k : Nat) node, r.nodes[k]? = some node → node.kind.isLiteral →
      R.patch.nodes[k]? = some node) :
    Declares R r ((declareHostParam callee kind (args.map Arg.value) s).run r).2 := by
  unfold declareHostParam
  rw [run_bind, run_get]
  cases hargs : args.map Arg.value with
  | nil => exact .of_eq rfl
  | cons v vs =>
    dsimp only
    cases hk : r.nodes.kind v with
    | text name =>
      dsimp only
      cases hn : numbers r.nodes vs with
      | error i => exact .of_eq rfl
      | ok values =>
        intro p hp
        refine (mem_declare hp).imp_right fun h => ?_
        subst h
        exact .intro hnode hfind hkind
          (.intro hargs (hl v _ (Arena.getElem?_of_kind hk (by simp)) rfl) (numbers_mono hn hl) rfl)
    | _ => exact .of_eq rfl

theorem checkBound_declares {R : Resolved} {i : NodeId} {args : List (Arg NodeId)}
    (hnode : R.patch.nodes[i]? = some ⟨.call callee args, s⟩)
    (hfind : ∀ f, m = .builtin f → Builtin.find? callee = some f)
    (hk : Kept n a b ((checkBound callee m s (some (args.map Arg.value))).run r).2 R) :
    Declares R r ((checkBound callee m s (some (args.map Arg.value))).run r).2 := by
  have hw := checkBound_ok 0 0 callee m s (some (args.map Arg.value)) r
  have hl := fun k node hnode hlit => hk.literals k node (hw.literals k node hnode hlit) hlit
  cases m with
  | builtin f =>
    change Declares R r ((checkBuiltin callee f _ s).run r).2
    unfold checkBuiltin
    cases hf : f.kind with
    | op _ => exact .of_eq rfl
    | pattern =>
      cases args.map Arg.value with
      | nil => exact .of_eq rfl
      | cons v _ => exact .of_eq (readPattern_hostParams v r)
    | control kind => exact declareHostParam_declares hnode (hfind f rfl) hf hl
  | _ => exact .of_eq rfl

/-! ## Calls -/

/-- The arena with the call at `i` once its arguments are matched: if nothing was wrong with them,
it has one for each parameter. -/
def boundNodes (bound : Binding.Outcome) (i : NodeId) (callee : String) : Arena :=
  (bound.values.map fun values =>
    bound.nodes.setKind i (.call callee (values.map fun v => ⟨none, v, bound.nodes.span v⟩))).getD
      bound.nodes

theorem run_bindCall (i : NodeId) (callee : String) (params : Signature) (args : List (Arg NodeId))
    (s : Span) (r : Resolution) : (bindCall i callee params args s).run r =
      let bound := Binding.bind callee params args s r.nodes
      let findings := r.findings ++ bound.findings
      (bound.values, { r with nodes := boundNodes bound i callee, findings }) := by
  unfold bindCall
  rw [run_bind, run_get, run_bind, run_set]
  dsimp only [boundNodes]
  cases (Binding.bind callee params args s r.nodes).values <;> rfl

theorem bindCall_hostParams (i : NodeId) (callee : String) (params : Signature)
    (args : List (Arg NodeId)) (s : Span) (r : Resolution) :
    ((bindCall i callee params args s).run r).2.hostParams = r.hostParams := by
  rw [run_bindCall]

theorem bindCall_ok {r : Resolution} (hnode : r.nodes[i]? = some ⟨.call callee args₀, s⟩)
    (hparams : Signature.CopiesRequired params) (args : List (Arg NodeId)) :
    Within i (i + 1) r ((bindCall i callee params args s).run r).2 ∧
      (Clean ((bindCall i callee params args s).run r).2.findings → ∃ args' : List (Arg NodeId),
        ((bindCall i callee params args s).run r).1 = some (args'.map Arg.value) ∧
        Binding.Supplies (fun v x => r.nodes.size ≤ v ∧
          ((bindCall i callee params args s).run r).2.nodes[v]? = some ⟨.number x, s⟩) params args
          (args'.map Arg.value) ∧
        ((bindCall i callee params args s).run r).2.nodes[i]? = some ⟨.call callee args', s⟩ ∧
        ∀ a ∈ args', a.name = none ∧ a.span =
          ((bindCall i callee params args s).run r).2.nodes.span a.value) := by
  have hi : i < r.nodes.size := (Array.getElem?_eq_some_iff.mp hnode).1
  have hext := Binding.bind_extends callee params args s r.nodes
  have hfresh : ∀ (k : Nat) node, r.nodes.size ≤ k →
      (Binding.bind callee params args s r.nodes).nodes[k]? = some node → node.kind.isLiteral := by
    intro k node hk hnode
    obtain ⟨x, rfl⟩ := Binding.bind_fresh hk hnode
    rfl
  have hgrow := (Within.grow i (i + 1) hext hfresh).trans
    (Within.report i (i + 1) _ (Binding.bind callee params args s r.nodes).findings)
  rw [run_bindCall]
  dsimp only [boundNodes]
  cases hv : (Binding.bind callee params args s r.nodes).values with
  | none =>
    -- nothing was bound, so something was reported, and it was an error
    refine ⟨hgrow, fun hc => ?_⟩
    have hfs : (Binding.bind callee params args s r.nodes).findings = [] := by
      refine List.eq_nil_iff_forall_not_mem.mpr fun f hf => ?_
      have := Binding.bind_isError callee params args s r.nodes f hf
      rw [hc f (List.mem_append_right _ hf)] at this
      cases this
    obtain ⟨values, hsome⟩ := Binding.bind_values_isSome hparams hfs
    simp [hv] at hsome
  | some values =>
    obtain ⟨hsup, -⟩ := Binding.bind_supplies hv
    have hnode' : (Binding.bind callee params args s r.nodes).nodes[i]? =
        some ⟨.call callee args₀, s⟩ := (hext.2 i hi).trans hnode
    dsimp only [Option.map_some, Option.getD_some]
    refine ⟨hgrow.trans (Within.setKind hnode' rfl _ (by rintro _ _ ⟨⟩; exact ⟨_, rfl⟩)), fun _ =>
      ⟨values.map fun v => ⟨none, v, (Binding.bind callee params args s r.nodes).nodes.span v⟩,
        ?_, ?_, Arena.getElem?_setKind_self hnode' _, ?_⟩⟩
    · simp [Function.comp_def]
    · simp only [List.map_map, Function.comp_def, List.map_id']
      refine hsup.mono fun v x _ hvx => ⟨hvx.1, ?_⟩
      rw [Arena.getElem?_setKind_ne _ _ (by omega), hvx.2]
    · intro a ha
      obtain ⟨v, -, rfl⟩ := List.mem_map.mp ha
      exact ⟨rfl, (Arena.span_setKind ..).symm⟩

/-- Everything that can be called has parameters that copy required ones only, and a name of a
built-in function is one of its own names. -/
structure SignaturesOk (T : SymbolTable) : Prop where
  copies : ∀ n m params, (T.lookup n).map Symbol.meaning = some m → m.signature? = some params →
    Signature.CopiesRequired params
  builtins : ∀ n b, (T.lookup n).map Symbol.meaning = some (.builtin b) → Builtin.find? n = some b

/-- What resolving a call comes to, once its arguments are resolved: it is refused, or the arguments
are matched to the parameters of what is called, and checked. -/
inductive Called (r : Resolution) (i : NodeId) (callee : String) (args : List (Arg NodeId))
    (s : Span) : Resolution → Prop
  | refused : (∀ m, (r.symbols.lookup callee).map Symbol.meaning = some m → m.signature? = none) →
      issue = .unknownFunction callee ∨ issue = .valueCalled callee →
      Called r i callee args s
        { r with
          nodes := r.nodes.setKind i (.call callee args)
          findings := r.findings ++ [⟨issue, s⟩] }
  | bound : (r.symbols.lookup callee).map Symbol.meaning = some m → m.signature? = some params →
      (bindCall i callee params args s).run
        { r with nodes := r.nodes.setKind i (.call callee args) } = (values, r₂) →
      Called r i callee args s ((checkBound callee m s values).run r₂).2

theorem resolveCall_called {r : Resolution} (hnode : r.nodes[i]? = some ⟨.call callee args₀, s⟩)
    (args : List (Arg NodeId)) :
    Called r i callee args s ((resolveCall i callee args).run r).2 := by
  unfold resolveCall
  rw [run_bind, run_spanOf, run_bind, run_setKind, run_bind, run_lookup, Arena.span_eq hnode]
  dsimp only
  cases hm : (r.symbols.lookup callee).map Symbol.meaning with
  | none => exact .refused (by simp [hm]) (.inl rfl)
  | some m =>
    cases m with
    | function f => exact .bound hm rfl rfl
    | builtin f =>
      simp only [run_bind]
      generalize hrun : (bindCall i callee f.params args s).run _ = out
      have hbound : Called r i callee args s
          ((checkBound callee (.builtin f) s out.1).run out.2).2 := .bound hm rfl hrun
      obtain ⟨_ | values, r₂⟩ := out <;> exact hbound
    | _ => exact .refused (by rw [hm]; rintro _ ⟨⟩; rfl) (.inr rfl)

/-- What has become of the call at `i` in the resolved patch. Its arguments are matched to the
parameters of what is called, which gives the state `r₂`, and checked there. -/
inductive CallBound (R : Resolved) (n : Nat) (s : Span) (callee : String) (args : List (Arg NodeId))
    (i : NodeId) (r : Resolution) : Resolution → Prop
  | intro : (r.symbols.lookup callee).map Symbol.meaning = some m → m.signature? = some params →
      Binding.Supplies (fun v x => n ≤ v ∧ R.patch.nodes[v]? = some ⟨.number x, s⟩) params args
        (args'.map Arg.value) →
      R.patch.nodes[i]? = some ⟨.call callee args', s⟩ → (∀ a ∈ args', a.name = none) →
      ((∀ a ∈ args, a.value < n) → ∀ a ∈ args', a.span = R.patch.nodes.span a.value) →
      r₂.hostParams = r.hostParams → r₂.patterns = r.patterns →
      CallBound R n s callee args i r
        ((checkBound callee m s (some (args'.map Arg.value))).run r₂).2

theorem CallBound.resolved (h : CallBound R n s callee args i r r') (hk : Kept n i (i + 1) r' R)
    (hR : R.success) (hT : SignaturesOk r.symbols) :
    CallResolved R r.symbols n s callee args i ∧ Declares R r r' := by
  cases h with
  | intro hm hsig hsup hnode hnone _ hhosts _ =>
    refine ⟨.intro hm hsig hsup hnode hnone (checkBound_checked hk hR), ?_⟩
    exact (Declares.of_eq hhosts).trans
      (checkBound_declares hnode (fun f hf => hT.builtins callee f (hf ▸ hm)) hk)

theorem resolveCall_ok {r : Resolution} (hnode : r.nodes[i]? = some ⟨.call callee args₀, s⟩)
    (hT : SignaturesOk r.symbols) (hi : i < n) (hn : n ≤ r.nodes.size) (args : List (Arg NodeId)) :
    Within i (i + 1) r ((resolveCall i callee args).run r).2 ∧
      ∀ R : Resolved, Kept n i (i + 1) ((resolveCall i callee args).run r).2 R → R.success →
        CallBound R n s callee args i r ((resolveCall i callee args).run r).2 := by
  have hset : Within i (i + 1) r { r with nodes := r.nodes.setKind i (.call callee args) } :=
    Within.setKind hnode rfl _ (by rintro _ _ ⟨⟩; exact ⟨_, rfl⟩)
  have hnode₁ : (r.nodes.setKind i (.call callee args))[i]? = some ⟨.call callee args, s⟩ :=
    Arena.getElem?_setKind_self hnode _
  have hcalled := resolveCall_called hnode args
  generalize ((resolveCall i callee args).run r).2 = r' at hcalled ⊢
  cases hcalled with
  | refused _ hissue =>
    refine ⟨hset.trans (.report _ _ _ _), fun R hk hR =>
      absurd (hk.noError hR) (not_clean_report ?_ _ _)⟩
    rcases hissue with rfl | rfl <;> rfl
  | @bound m params values r₂ hm hsig hrun =>
    let r₁ : Resolution := { r with nodes := r.nodes.setKind i (.call callee args) }
    have hb := bindCall_ok (r := r₁) hnode₁ (hT.copies callee _ _ hm hsig) args
    have hr₂ := congrArg Prod.snd hrun
    rw [run_bindCall] at hr₂
    rw [hrun] at hb
    have hw := checkBound_ok i i callee m s values r₂
    refine ⟨hset.trans (hb.1.trans (hw.widen (Nat.le_refl _) (Nat.le_succ _))), fun R hk hR => ?_⟩
    have hlt : i + 1 ≤ r₂.nodes.size :=
      Nat.lt_of_lt_of_le (Array.getElem?_eq_some_iff.mp hnode₁).1 hb.1.size
    have hk₂ : Kept n i (i + 1) r₂ R :=
      hk.before hw (Nat.le_of_lt hi) (Nat.le_refl _) (Nat.le_refl _) (.inr (Nat.le_refl _)) hlt
    obtain ⟨args', hv, hsup, hcall, hargs⟩ := hb.2 (hk₂.noError hR)
    obtain rfl : values = some (args'.map Arg.value) := hv
    have hcallR : R.patch.nodes[i]? = some ⟨.call callee args', s⟩ :=
      (hk₂.nodes i (Nat.le_refl _) (Nat.lt_succ_self _)).trans hcall
    -- numbers that stand in for defaults are new nodes, which no later step changes
    have hsupR :=
      hsup.mono fun v x _ (hvx : r₁.nodes.size ≤ v ∧ r₂.nodes[v]? = some ⟨.number x, s⟩) => by
      have hnv : n ≤ v := Nat.le_trans hn (by simpa [r₁] using hvx.1)
      exact And.intro hnv ((hk₂.fresh v hnv (Array.getElem?_eq_some_iff.mp hvx.2).1).trans hvx.2)
    refine .intro hm hsig hsupR hcallR (fun a ha => (hargs a ha).1) (fun hin a ha => ?_)
      (congrArg Resolution.hostParams hr₂).symm (congrArg Resolution.patterns hr₂).symm
    refine (hargs a ha).2.trans (hk₂.spans a.value ?_).symm
    rcases hsup.origin (hT.copies callee _ _ hm hsig) (List.mem_map_of_mem ha)
      with ⟨b, hb', hab⟩ | ⟨x, hx⟩
    · have hsize : r₁.nodes.size ≤ r₂.nodes.size := hb.1.size
      rw [Arena.size_setKind] at hsize
      exact hab ▸ Nat.lt_of_lt_of_le (hin b hb') (Nat.le_trans hn hsize)
    · exact (Array.getElem?_eq_some_iff.mp hx.2).1

end Resolving

theorem Resolved.success_iff_clean (R : Resolved) : R.success ↔ Resolving.Clean R.findings := by
  simp [Resolved.success, Resolving.Clean]

end SignalPatch
