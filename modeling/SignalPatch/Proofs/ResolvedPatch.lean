import SignalPatch.Proofs.TreeWalk

/-!
# What resolution makes of a patch

The names of functions are collected first, then function bodies are resolved, then the other
statements. Each stage works on the stretches of its own statements, so what one of them made is
still there at the end. `BodyWalks` and `StatementWalks` say what the last two stages do at each
statement, with the states between, and what holds of them is shown by induction on these.
`BodyRuns` and `StatementRuns` say besides that what was made is in the finished patch.

`PatchRun` takes a whole resolution apart, whether it finds errors or not (`Patch.resolve_run`).
`Elaborated` collects what a successful one amounts to, and `resolve_elaborated` says that every one
amounts to it.
-/

namespace SignalPatch

open Resolving (formal)

/-! ## Global names -/

inductive GlobalSymbol (P : Arena) (ids : List NodeId) (s : Symbol) : Prop
  | builtin (b : Builtin) : s.meaning = .builtin b → Builtin.find? s.name = some b →
      GlobalSymbol P ids s
  | function (i : NodeId) (name : String) (params : List Parameter) (body : NodeId) (span : Span) :
      i ∈ ids → P[i]? = some ⟨.define name params body, span⟩ →
      s = .ofFunction ⟨name, params.map formal, i⟩ span → GlobalSymbol P ids s

structure Globals (P : Arena) (ids : List NodeId) (G : Scope) : Prop where
  filed : G.Filed
  known : ∀ s ∈ G, GlobalSymbol P ids s

theorem Builtin.find?_name : ∀ b ∈ Builtin.table, Builtin.find? b.name = some b := by
  decide +kernel

theorem Builtin.mem_table (h : Builtin.find? n = some b) : b ∈ Builtin.table :=
  List.mem_of_find?_eq_some h

theorem Builtin.copiesRequired (h : b ∈ Builtin.table) : Signature.CopiesRequired b.params := by
  have hall : ∀ b ∈ Builtin.table, ∀ p ∈ b.params,
      (match p.fallback with
      | .sameAs j => decide (b.params[j]?.map Formal.fallback = some .required)
      | _ => true) = true := by
    decide
  intro p hp j hj
  have := hall b h p hp
  rw [hj] at this
  simpa using this

theorem foldl_define_globals (symbols : List Symbol) {G : Scope} :
    symbols.foldl SymbolTable.define ⟨[], G⟩ = ⟨[], symbols.foldl Scope.add G⟩ := by
  induction symbols generalizing G with
  | nil => rfl
  | cons s symbols ih =>
    have hdef : SymbolTable.define ⟨[], G⟩ s = ⟨[], G.add s⟩ := by
      unfold SymbolTable.define SymbolTable.define? Scope.add SymbolTable.current
      by_cases htaken : (G.find? s.hash).isSome <;> simp [htaken, SymbolTable.insert]
    rw [List.foldl_cons, hdef, ih, List.foldl_cons]

theorem foldl_add_filed {symbols : List Symbol}
    (hs : ∀ s ∈ symbols, s.hash = Text.fingerprint s.name) {G : Scope} (h : G.Filed) :
    (symbols.foldl Scope.add G).Filed := by
  induction symbols generalizing G with
  | nil => exact h
  | cons s symbols ih =>
    exact ih (fun s' hs' => hs s' (List.mem_cons_of_mem _ hs')) (h.add (hs s (by simp)))

theorem standard_globals (P : Arena) (ids : List NodeId) :
    ∃ G, SymbolTable.standard = ⟨[], G⟩ ∧ Globals P ids G := by
  have hsymbols : ∀ s ∈ SymbolTable.builtinSymbols ++ SymbolTable.aliasSymbols,
      s.hash = Text.fingerprint s.name ∧ ∃ b, s.meaning = .builtin b ∧
        Builtin.find? s.name = some b := by
    intro s hs
    rcases List.mem_append.mp hs with hs | hs
    · obtain ⟨b, hb, rfl⟩ := List.mem_map.mp hs
      exact ⟨rfl, b, rfl, Builtin.find?_name b hb⟩
    · obtain ⟨⟨name, target⟩, -, hname⟩ := List.mem_filterMap.mp hs
      obtain ⟨b, hb, rfl⟩ := Option.map_eq_some_iff.mp hname
      exact ⟨rfl, b, rfl, hb⟩
  refine ⟨_, foldl_define_globals _, foldl_add_filed (fun s hs => (hsymbols s hs).1) .nil, ?_⟩
  intro s hs
  rcases Scope.mem_foldl_add (f := id) hs with ⟨s', hs', rfl⟩ | hs
  · obtain ⟨-, b, hb, hfind⟩ := hsymbols _ hs'
    exact .builtin b hb hfind
  · simp at hs

theorem Globals.signaturesOk (hG : Globals P ids G) (hvalues : ∀ s ∈ scope, s.isValue) :
    Resolving.SignaturesOk (.above G scope) := by
  have hscope : ∀ s ∈ scope, s.meaning.signature? = none := by
    intro s hs
    have := hvalues s hs
    unfold Symbol.isValue at this
    cases hmeaning : s.meaning <;> simp [hmeaning, Meaning.signature?] at this ⊢
  constructor
  · intro n m params hm hsig
    obtain ⟨s, hs, rfl⟩ := Option.map_eq_some_iff.mp hm
    obtain ⟨-, hs | hs⟩ := SymbolTable.mem_of_lookup_above hs
    · rw [hscope s hs] at hsig
      cases hsig
    · cases hG.known s hs with
      | builtin b hb hfind =>
        rw [hb] at hsig
        cases hsig
        exact Builtin.copiesRequired (Builtin.mem_table hfind)
      | function i name ps body span _ _ hs =>
        subst hs
        cases hsig
        intro p hp j hj
        obtain ⟨q, -, rfl⟩ := List.mem_map.mp hp
        -- no parameter of a defined function has another one as its default
        unfold formal at hj
        split at hj <;> cases hj
  · intro n b hm
    obtain ⟨s, hs, hmeaning⟩ := Option.map_eq_some_iff.mp hm
    obtain ⟨rfl, hs | hs⟩ := SymbolTable.mem_of_lookup_above hs
    · have := hscope s hs
      rw [hmeaning] at this
      cases this
    · cases hG.known s hs with
      | builtin b' hb hfind =>
        cases hb.symm.trans hmeaning
        exact hfind
      | function i name ps body span _ _ hs =>
        subst hs
        cases hmeaning

/-! ## Scopes of bodies and of statements -/

def Parameter.symbol (p : Parameter) : Symbol :=
  { Symbol.of p.name .parameter with definedAt := some p.span }

/-- What a function body sees besides the global names. -/
def bodyScope (params : List Parameter) : Scope :=
  params.foldl (fun scope p => scope.add p.symbol) []

theorem foldl_defineParameter (G : Scope) (params : List Parameter) :
    params.foldl Resolving.defineParameter (SymbolTable.push ⟨[], G⟩) =
      .above G (bodyScope params) :=
  SymbolTable.foldl_define_above Parameter.symbol params G []

theorem mem_bodyScope (h : s ∈ bodyScope params) : ∃ p ∈ params, s = p.symbol := by
  rcases Scope.mem_foldl_add h with h | h
  · exact h
  · simp at h

theorem bodyScope_isValue : ∀ s ∈ bodyScope params, s.isValue := by
  intro s hs
  obtain ⟨p, -, rfl⟩ := mem_bodyScope hs
  rfl

def variableSymbol (x : String) (span : Span) : Symbol :=
  { Symbol.of x .variable with definedAt := some span }

def Defines (P : Arena) (i : NodeId) : Prop :=
  ∃ name params body span, P[i]? = some ⟨.define name params body, span⟩

theorem not_defines_assign {P : Arena} (hnode : P[i]? = some ⟨.assign x v, span⟩) :
    ¬ Defines P i := by
  rintro ⟨_, _, _, _, hnode'⟩
  cases hnode.symm.trans hnode'

theorem Stored.not_defines {nodes : Arena} (he : Stored P b e i) (hroot : nodes[i]? = P[i]?) :
    ¬ Defines nodes i := by
  obtain ⟨node, hnode, hkind⟩ := he.root
  rintro ⟨_, _, _, _, hnode'⟩
  cases (hroot.trans hnode).symm.trans hnode'
  cases hkind

/-! ## Statements -/

/-- The second list of nodes stands for the statements of the first, in the scope of the variables
that were assigned before them. -/
inductive StatementsResolved (P : Arena) (R : Resolved) : Scope → List NodeId → List NodeId → Prop
  | nil : StatementsResolved P R vars [] []
  | define : P[i]? = some ⟨.define name params body, span⟩ →
      R.patch.nodes[i]? = some ⟨.define name params body', span⟩ →
      StatementsResolved P R vars is is' → StatementsResolved P R vars (i :: is) (i :: is')
  | assign : P[i]? = some ⟨.assign x v, span⟩ → R.patch.nodes[i]? = some ⟨.assign x v', span⟩ →
      Rewritten P R (.above R.symbols.globals vars) none v v' →
      vars.find? (Text.fingerprint x) = none →
      StatementsResolved P R (variableSymbol x span :: vars) is is' →
      StatementsResolved P R vars (i :: is) (i :: is')
  | expr : Rewritten P R (.above R.symbols.globals vars) none i i' →
      StatementsResolved P R vars is is' → StatementsResolved P R vars (i :: is) (i' :: is')

namespace Resolving

/-! ## Collecting the functions -/

theorem repeatedParameters_isError (function : String) (seen : List String) (ps : List Parameter) :
    ∀ f ∈ repeatedParameters function seen ps, f.isError := by
  induction ps generalizing seen with
  | nil => simp [repeatedParameters]
  | cons p ps ih =>
    intro f hf
    rcases List.mem_append.mp hf with hf | hf
    · split at hf
      · obtain rfl := List.mem_singleton.mp hf
        rfl
      · simp at hf
    · exact ih _ f hf

theorem nodup_of_repeatedParameters (h : repeatedParameters function seen ps = []) :
    (ps.map Parameter.name).Nodup ∧ ∀ p ∈ ps, p.name ∉ seen := by
  induction ps generalizing seen with
  | nil => simp
  | cons p ps ih =>
    obtain ⟨hhead, htail⟩ := List.append_eq_nil_iff.mp h
    obtain ⟨hnodup, hseen⟩ := ih htail
    have hp : p.name ∉ seen := by
      intro hmem
      simp [hmem] at hhead
    refine ⟨List.nodup_cons.mpr ⟨fun hmem => ?_, hnodup⟩, fun q hq => ?_⟩
    · obtain ⟨q, hq, hname⟩ := List.mem_map.mp hmem
      exact hseen q hq (by simp [hname])
    · rcases List.mem_cons.mp hq with rfl | hq
      · exact hp
      · exact fun hmem => hseen q hq (List.mem_cons_of_mem _ hmem)

theorem run_define_some {r : Resolution}
    (h : r.symbols.define? { symbol with definedAt := some span } = some t) :
    (define symbol span).run r = ((), { r with symbols := t }) := by
  unfold define
  rw [run_bind, run_get]
  simp only [h, run_modify]

theorem run_define_none {r : Resolution}
    (h : r.symbols.define? { symbol with definedAt := some span } = none) :
    (define symbol span).run r = ((), { r with findings := r.findings ++
      [⟨.redefinition symbol.name ((r.symbols.lookup symbol.name).bind Symbol.definedAt),
        span⟩] }) := by
  unfold define
  rw [run_bind, run_get]
  simp only [h, run_bind, run_lookup, run_report]

/-- After the functions of the statements `todo` were collected: the global scope has grown by them,
unless something was wrong with one. -/
structure Hoisted (P : Arena) (ids todo : List NodeId) (G G' : Scope) (fs : List Finding) :
    Prop where
  globals : Globals P ids G'
  grows : ∀ s ∈ G, s ∈ G'
  functions : Clean fs → ∀ i ∈ todo, ∀ name params body span,
    P[i]? = some ⟨.define name params body, span⟩ →
    .ofFunction ⟨name, params.map formal, i⟩ span ∈ G' ∧ (params.map Parameter.name).Nodup

theorem run_hoist_define {r : Resolution}
    (hnode : r.nodes[i]? = some ⟨.define name params body, span⟩) :
    ((hoist i).run r).2 = ((define (.of name (.function ⟨name, params.map formal, i⟩)) span).run
      { r with findings := r.findings ++ repeatedParameters name [] params }).2 := by
  unfold hoist
  obtain rfl : r.nodes.span i = span := Arena.span_eq hnode
  rw [run_bind, run_kindOf, Arena.kind_eq hnode]
  rfl

theorem run_hoist_other {r : Resolution} (hdef : ¬ Defines r.nodes i) :
    ((hoist i).run r).2 = r := by
  unfold hoist
  rw [run_bind, run_kindOf]
  cases hk : r.nodes.kind i with
  | define name params body => exact absurd ⟨_, _, _, _, Arena.getElem?_of_kind hk (by simp)⟩ hdef
  | _ => rfl

theorem hoist_ok {r : Resolution} (hi : i ∈ ids) (hsym : r.symbols = ⟨[], G⟩)
    (hG : Globals r.nodes ids G) :
    ∃ G' fs, ((hoist i).run r).2 = { r with symbols := ⟨[], G'⟩, findings := r.findings ++ fs } ∧
      Hoisted r.nodes ids [i] G G' fs := by
  by_cases hdef : Defines r.nodes i
  · obtain ⟨name, params, body, span, hnode⟩ := hdef
    let symbol : Symbol := .ofFunction ⟨name, params.map formal, i⟩ span
    have hrun := run_hoist_define hnode
    have hdefine : ({ r with findings := r.findings ++ repeatedParameters name [] params } :
        Resolution).symbols.define? symbol =
          if (G.find? symbol.hash).isSome then none else some ⟨[], symbol :: G⟩ := by
      rw [hsym]
      rfl
    -- A name that is taken is reported, and the scope stays as it was.
    by_cases htaken : (G.find? symbol.hash).isSome
    · rw [if_pos htaken] at hdefine
      rw [run_define_none hdefine] at hrun
      refine ⟨G, _, by rw [hrun, ← hsym, List.append_assoc], hG, fun _ h => h, fun hclean => ?_⟩
      exact absurd hclean (not_clean_report rfl _ _)
    · rw [if_neg htaken] at hdefine
      rw [run_define_some hdefine] at hrun
      refine ⟨symbol :: G, _, hrun, ⟨hG.filed.cons rfl (by simpa using htaken), ?_⟩,
        fun s hs => List.mem_cons_of_mem _ hs, ?_⟩
      · intro s hs
        rcases List.mem_cons.mp hs with rfl | hs
        · exact .function i name params body _ hi hnode rfl
        · exact hG.known s hs
      · intro hclean j hj name' params' body' span' hnode'
        obtain rfl := List.mem_singleton.mp hj
        cases hnode.symm.trans hnode'
        have hnone : repeatedParameters name [] params = [] := by
          refine List.eq_nil_iff_forall_not_mem.mpr fun f hf => ?_
          have := repeatedParameters_isError name [] params f hf
          rw [hclean f hf] at this
          cases this
        exact ⟨List.mem_cons_self, (nodup_of_repeatedParameters hnone).1⟩
  · refine ⟨G, [], by rw [run_hoist_other hdef, ← hsym, List.append_nil], hG, fun _ h => h, ?_⟩
    rintro - j hj name params body span hnode
    obtain rfl := List.mem_singleton.mp hj
    exact absurd ⟨_, _, _, _, hnode⟩ hdef

theorem run_forM_cons (f : NodeId → Resolving Unit) (i : NodeId) (ids : List NodeId)
    (r : Resolution) :
    ((i :: ids).forM f).run r = (ids.forM f).run ((f i).run r).2 := rfl

theorem forM_hoist_ok {todo : List NodeId} {r : Resolution} (hids : ∀ i ∈ todo, i ∈ ids)
    (hsym : r.symbols = ⟨[], G⟩) (hG : Globals r.nodes ids G) :
    ∃ G' fs, ((todo.forM hoist).run r).2 =
        { r with symbols := ⟨[], G'⟩, findings := r.findings ++ fs } ∧
      Hoisted r.nodes ids todo G G' fs := by
  induction todo generalizing r G with
  | nil => exact ⟨G, [], by rw [← hsym, List.append_nil]; rfl, hG, fun _ h => h, by simp⟩
  | cons i todo ih =>
    obtain ⟨G₁, fs₁, hrun₁, hfirst⟩ := hoist_ok (hids i (by simp)) hsym hG
    obtain ⟨G₂, fs₂, hrun₂, hrest⟩ := ih (r := ((hoist i).run r).2)
      (fun j hj => hids j (List.mem_cons_of_mem _ hj)) (by rw [hrun₁])
        (by rw [hrun₁]; exact hfirst.globals)
    refine ⟨G₂, fs₁ ++ fs₂, ?_, ?_⟩
    · rw [run_forM_cons, hrun₂, hrun₁, List.append_assoc]
    · rw [hrun₁] at hrest
      refine ⟨hrest.globals, fun s hs => hrest.grows s (hfirst.grows s hs), ?_⟩
      intro hclean j hj name params body span hnode
      rcases List.mem_cons.mp hj with rfl | hj
      · have := hfirst.functions (hclean.of_prefix (List.prefix_append _ _)) j
          (by simp) name params body span hnode
        exact ⟨hrest.grows _ this.1, this.2⟩
      · exact hrest.functions (fun f hf => hclean f (List.mem_append_right _ hf))
          j hj name params body span hnode

/-! ## Function bodies -/

theorem resolveFunction_other {r : Resolution} (hdef : ¬ Defines r.nodes i) (depth : Nat) :
    ((resolveFunction depth i).run r).2 = r := by
  unfold resolveFunction
  rw [run_bind, run_kindOf]
  cases hk : r.nodes.kind i with
  | define name params body => exact absurd ⟨_, _, _, _, Arena.getElem?_of_kind hk (by simp)⟩ hdef
  | _ => rfl

theorem run_resolveFunction {r : Resolution}
    (hnode : r.nodes[i]? = some ⟨.define name params body, span⟩) (hsym : r.symbols = ⟨[], G⟩)
    (depth : Nat) :
    ((resolveFunction depth i).run r).2 =
      let out := (resolve depth none body).run { r with symbols := .above G (bodyScope params) }
      { out.2 with
        symbols := out.2.symbols.pop
        nodes := out.2.nodes.setKind i (.define name params out.1) } := by
  unfold resolveFunction
  rw [run_bind, run_kindOf, Arena.kind_eq hnode]
  simp only [run_bind, run_setSymbols, run_setKind]
  rw [hsym, foldl_defineParameter]

/-- `BodyWalk P G a s i r r'`: the stage of the function bodies comes to the statement `s`, which
fills the nodes from `a` to `i`. -/
inductive BodyWalk (P : Arena) (G : Scope) :
    Nat → Statement → NodeId → Resolution → Resolution → Prop
  | define : r.symbols = ⟨[], G⟩ →
      Walk P a e body none { r with symbols := .above G (bodyScope params) } body' r₁ →
      P[body + 1]? = some ⟨.define name params body, span⟩ →
      r₁.nodes[body + 1]? = some ⟨.define name params body, span⟩ →
      BodyWalk P G a (.define name params e span) (body + 1) r
        { r₁ with
          symbols := ⟨[], G⟩
          nodes := r₁.nodes.setKind (body + 1) (.define name params body') }
  | assign : Stored P a e v → P[v + 1]? = some ⟨.assign x v, span⟩ →
      BodyWalk P G a (.assign x e span) (v + 1) r r
  | expr : Stored P a e i → BodyWalk P G a (.expr e) i r r

inductive BodyWalks (P : Arena) (G : Scope) :
    Nat → List Statement → List NodeId → Resolution → Resolution → Prop
  | nil : BodyWalks P G a [] [] r r
  | cons : a ≤ b → BodyWalk P G b s i r r₁ → BodyWalks P G (i + 1) ss ids r₁ r₂ →
      BodyWalks P G a (s :: ss) (i :: ids) r r₂

theorem BodyWalk.stored : BodyWalk P G a s i r r' → StoredStatement P a s i
  | .define _ hbody hnode _ => .define hbody.stored hnode
  | .assign hv hnode => .assign hv hnode
  | .expr he => .expr he

theorem setDefine_ok {r : Resolution} (h : r.nodes[i]? = some ⟨.define name params body, span⟩)
    (t : SymbolTable) (body' : NodeId) : Within i (i + 1) { r with symbols := t }
      { r with symbols := t, nodes := r.nodes.setKind i (.define name params body') } :=
  .setKind (r := { r with symbols := t }) h rfl _ (by simp)

theorem BodyWalk.within (h : BodyWalk P G a s i r r') : Within a (i + 1) r r' := by
  cases h with
  | define hsym hbody _ hnode =>
    exact ((hbody.within.leaveScope hsym).widen (Nat.le_refl _) (Nat.le_succ _)).trans
      ((setDefine_ok hnode _ _).widen (Nat.le_succ_of_le hbody.stored.le) (Nat.le_refl _))
  | assign _ _ | expr _ => exact .refl _ _ r

theorem BodyWalks.within (h : BodyWalks P G a ss ids r r') : Within a P.size r r' := by
  induction h with
  | nil => exact .refl _ _ _
  | cons hab hfirst _ ih =>
    have hle := hfirst.stored.le
    exact (hfirst.within.widen hab hfirst.stored.lt_size).trans
      (ih.widen (by omega) (Nat.le_refl _))

theorem resolveFunction_walk {r : Resolution} (hs : StoredStatement P a s i) (hd : P.size ≤ depth)
    (hP : ∀ k, a ≤ k → k ≤ i → r.nodes[k]? = P[k]?) (hn : P.size ≤ r.nodes.size)
    (hsym : r.symbols = ⟨[], G⟩) (hG : Globals P ids G) :
    BodyWalk P G a s i r ((resolveFunction depth i).run r).2 := by
  have hi := hs.lt_size
  have hroot := hP i hs.le (Nat.le_refl _)
  cases hs with
  | @define e body name params span hbody hnode =>
    rw [run_resolveFunction (hroot.trans hnode) hsym]
    have hwalk := resolve_walk P depth none
      { r with symbols := .above G (bodyScope params) } hbody (by omega)
      (fun k h₁ h₂ => hP k h₁ (by omega)) hn (hG.signaturesOk bodyScope_isValue)
    have hw := hwalk.within
    have hnode' := (hw.nodes (body + 1) (Nat.lt_of_lt_of_le hi hn) (.inr (Nat.le_refl _))).trans
      (hroot.trans hnode)
    dsimp only
    rw [hw.symbols, SymbolTable.pop_above]
    exact .define hsym hwalk hnode hnode'
  | assign hv hnode =>
    rw [resolveFunction_other (not_defines_assign (hroot.trans hnode))]
    exact .assign hv hnode
  | expr he =>
    rw [resolveFunction_other (he.not_defines hroot)]
    exact .expr he

theorem forM_resolveFunction_walks (h : StoredList P a ss ids) (hd : P.size ≤ depth)
    (hG : Globals P all G) :
    ∀ r : Resolution, r.symbols = ⟨[], G⟩ → P.size ≤ r.nodes.size →
    (∀ k, a ≤ k → k < P.size → r.nodes[k]? = P[k]?) →
    BodyWalks P G a ss ids r ((ids.forM (resolveFunction depth)).run r).2 := by
  induction h with
  | nil => exact fun r _ _ _ => .nil
  | @cons a b s i ss ids hab hs hrest ih =>
    intro r hsym hn hP
    have hbi := hs.le
    have hi := hs.lt_size
    have hwalk := resolveFunction_walk hs hd (fun k h₁ h₂ => hP k (by omega) (by omega)) hn hsym hG
    have hw := hwalk.within
    rw [run_forM_cons]
    -- the rest lies behind this statement, so it finds its nodes as they were read
    exact .cons hab hwalk (ih _ (hw.symbols.trans hsym) (Nat.le_trans hn hw.size) fun k h₁ h₂ =>
      (hw.nodes k (by omega) (.inr h₁)).trans (hP k (by omega) h₂))

/-- The statement at `i` still lies in `nodes` as it was read, or it defines a function whose body
has been exchanged. -/
structure Awaits (P nodes : Arena) (i : NodeId) : Prop where
  other : ¬ Defines P i → ∀ b s, StoredStatement P b s i → ∀ k, b ≤ k → k ≤ i → nodes[k]? = P[k]?
  function : ∀ name params body span, P[i]? = some ⟨.define name params body, span⟩ →
    ∃ body', nodes[i]? = some ⟨.define name params body', span⟩

theorem Awaits.congr {P nodes nodes' : Arena} (h : Awaits P nodes i) (hs : StoredStatement P b s i)
    (hk : ∀ k, b ≤ k → k ≤ i → nodes'[k]? = nodes[k]?) : Awaits P nodes' i where
  other := fun hdef b' s' hs' k h₁ h₂ => by
    have := hs'.start_unique hs
    exact (hk k (by omega) h₂).trans (h.other hdef b' s' hs' k h₁ h₂)
  function := fun name params body span hnode => by
    obtain ⟨body', h'⟩ := h.function name params body span hnode
    exact ⟨body', (hk i hs.le (Nat.le_refl _)).trans h'⟩

theorem Awaits.of_not_defines {P nodes : Arena} (hdef : ¬ Defines P i)
    (hs : StoredStatement P b s i) (hP : ∀ k, b ≤ k → k ≤ i → nodes[k]? = P[k]?) :
    Awaits P nodes i where
  other := fun _ b' s' hs' k h₁ h₂ => by
    have := hs'.start_unique hs
    exact hP k (by omega) h₂
  function := fun _ _ _ _ hnode => absurd ⟨_, _, _, _, hnode⟩ hdef

theorem BodyWalk.awaits (h : BodyWalk P G a s i r r')
    (hP : ∀ k, a ≤ k → k ≤ i → r.nodes[k]? = P[k]?) :
    Awaits P r'.nodes i := by
  cases h with
  | define _ _ hnode hnode' =>
    refine ⟨fun hndef => absurd ⟨_, _, _, _, hnode⟩ hndef, fun _ _ _ _ hnode'' => ?_⟩
    cases hnode.symm.trans hnode''
    exact ⟨_, Arena.getElem?_setKind_self hnode' _⟩
  | assign hv hnode => exact .of_not_defines (not_defines_assign hnode) (.assign hv hnode) hP
  | expr he => exact .of_not_defines (he.not_defines rfl) (.expr he) hP

theorem BodyWalks.awaits (h : BodyWalks P G a ss ids r r') (hn : P.size ≤ r.nodes.size)
    (hP : ∀ k, a ≤ k → k < P.size → r.nodes[k]? = P[k]?) : ∀ i ∈ ids, Awaits P r'.nodes i := by
  induction h with
  | nil => simp
  | @cons a b s i r r₁ ss ids r₂ hab hfirst hrest ih =>
    have hbi := hfirst.stored.le
    have hi := hfirst.stored.lt_size
    have hw := hfirst.within
    have hn₁ := Nat.le_trans hn hw.size
    refine List.forall_mem_cons.mpr ⟨?_, ih hn₁ fun k h₁ h₂ =>
      (hw.nodes k (by omega) (.inr h₁)).trans (hP k (by omega) h₂)⟩
    exact (hfirst.awaits fun k h₁ h₂ => hP k (by omega) (by omega)).congr hfirst.stored
      fun k h₁ h₂ =>
      hrest.within.nodes k (by omega) (.inl (by omega))

/-! ## Other statements -/

theorem resolveStatement_define {r : Resolution}
    (hnode : r.nodes[i]? = some ⟨.define name params body, span⟩) (depth : Nat) :
    (resolveStatement depth i).run r = (i, r) := by
  unfold resolveStatement
  rw [run_bind, run_kindOf, Arena.kind_eq hnode]
  rfl

theorem resolveStatement_expr {r : Resolution} (hnode : r.nodes[i]? = some node)
    (hk : node.kind.isStatement = false) (depth : Nat) :
    (resolveStatement depth i).run r = (resolve depth none i).run r := by
  unfold resolveStatement
  rw [run_bind, run_kindOf, Arena.kind_eq hnode]
  dsimp only
  cases hkind : node.kind with
  | assign _ _ | define _ _ _ => rw [hkind] at hk; cases hk
  | _ => rfl

theorem resolveStatement_assign {r : Resolution} (hnode : r.nodes[i]? = some ⟨.assign x v, span⟩)
    (depth : Nat) :
    (resolveStatement depth i).run r =
      let out := (resolve depth none v).run r
      (i, ((define (.of x .variable) span).run
        { out.2 with nodes := out.2.nodes.setKind i (.assign x out.1) }).2) := by
  obtain rfl : r.nodes.span i = span := Arena.span_eq hnode
  unfold resolveStatement
  rw [run_bind, run_kindOf, Arena.kind_eq hnode]
  rfl

theorem define?_variable (G vars : Scope) (x : String) (span : Span) :
    (SymbolTable.above G vars).define? (variableSymbol x span) =
      if (vars.find? (Text.fingerprint x)).isSome then none
        else some (.above G (variableSymbol x span :: vars)) :=
  rfl

/-- `StatementWalk P G a s i j vars r vars' r'`: the last stage comes to the statement `s`, which
fills the nodes from `a` to `i`, with the variables `vars` in scope. Then `vars'` are in scope, and
`j` takes the place of `i`. -/
inductive StatementWalk (P : Arena) (G : Scope) :
    Nat → Statement → NodeId → NodeId → Scope → Resolution → Scope → Resolution → Prop
  | define : Stored P a e body → P[body + 1]? = some ⟨.define name params body, span⟩ →
      r.nodes[body + 1]? = some ⟨.define name params body', span⟩ →
      StatementWalk P G a (.define name params e span) (body + 1) (body + 1) vars r vars r
  | assign : vars.find? (Text.fingerprint x) = none → Walk P a e v none r v' r₁ →
      P[v + 1]? = some ⟨.assign x v, span⟩ → r₁.nodes[v + 1]? = some ⟨.assign x v, span⟩ →
      StatementWalk P G a (.assign x e span) (v + 1) (v + 1) vars r (variableSymbol x span :: vars)
        { r₁ with
          nodes := r₁.nodes.setKind (v + 1) (.assign x v')
          symbols := .above G (variableSymbol x span :: vars) }
  | taken : vars.find? (Text.fingerprint x) = some symbol → Walk P a e v none r v' r₁ →
      P[v + 1]? = some ⟨.assign x v, span⟩ → r₁.nodes[v + 1]? = some ⟨.assign x v, span⟩ →
      StatementWalk P G a (.assign x e span) (v + 1) (v + 1) vars r vars
        { r₁ with
          nodes := r₁.nodes.setKind (v + 1) (.assign x v')
          findings :=
            r₁.findings ++ [⟨.redefinition x ((r₁.symbols.lookup x).bind Symbol.definedAt), span⟩] }
  | expr : Walk P a e i none r j r₁ → StatementWalk P G a (.expr e) i j vars r vars r₁

inductive StatementWalks (P : Arena) (G : Scope) :
    Nat → List Statement → List NodeId → List NodeId → Scope → Resolution →
      Scope → Resolution → Prop
  | nil : StatementWalks P G a [] [] [] vars r vars r
  | cons : a ≤ b → StatementWalk P G b s i j vars r vars₁ r₁ →
      StatementWalks P G (i + 1) ss ids ids' vars₁ r₁ vars₂ r₂ →
      StatementWalks P G a (s :: ss) (i :: ids) (j :: ids') vars r vars₂ r₂

theorem StatementWalk.stored : StatementWalk P G a s i j vars r vars' r' → StoredStatement P a s i
  | .define hbody hnode _ => .define hbody hnode
  | .assign _ hv hnode _ | .taken _ hv hnode _ => .assign hv.stored hnode
  | .expr he => .expr he.stored

theorem setAssign_ok {r : Resolution} (h : r.nodes[i]? = some ⟨.assign x v, span⟩) (v' : NodeId) :
    Within i (i + 1) r { r with nodes := r.nodes.setKind i (.assign x v') } :=
  .setKind h rfl _ (by simp)

theorem Walk.assigned (hv : Walk P a e v none r v' r₁)
    (hnode : r₁.nodes[v + 1]? = some ⟨.assign x v, span⟩) :
    Within a (v + 2) r { r₁ with nodes := r₁.nodes.setKind (v + 1) (.assign x v') } :=
  (hv.within.widen (Nat.le_refl _) (Nat.le_succ _)).trans
    ((setAssign_ok hnode _).widen (Nat.le_succ_of_le hv.stored.le) (Nat.le_refl _))

theorem StatementWalk.within (h : StatementWalk P G a s i j vars r vars' r') :
    Within a (i + 1) r { r' with symbols := r.symbols } := by
  cases h with
  | define _ _ _ => exact .refl _ _ r
  | assign _ hv _ hnode =>
    rw [← hv.within.symbols]
    exact hv.assigned hnode
  | taken _ hv _ hnode =>
    rw [← hv.within.symbols]
    exact (hv.assigned hnode).trans (.report _ _ _ _)
  | expr he =>
    rw [← he.within.symbols]
    exact he.within

theorem StatementWalk.scope (h : StatementWalk P G a s i j vars r vars' r')
    (hsym : r.symbols = .above G vars) (hvalues : ∀ s ∈ vars, s.isValue) :
    r'.symbols = .above G vars' ∧ ∀ s ∈ vars', s.isValue := by
  cases h with
  | define _ _ _ => exact ⟨hsym, hvalues⟩
  | assign _ _ _ _ => exact ⟨rfl, List.forall_mem_cons.mpr ⟨rfl, hvalues⟩⟩
  | taken _ hv _ _ => exact ⟨hv.within.symbols.trans hsym, hvalues⟩
  | expr he => exact ⟨he.within.symbols.trans hsym, hvalues⟩

theorem StatementWalks.within (h : StatementWalks P G a ss ids ids' vars r vars' r') :
    Within a P.size r { r' with symbols := r.symbols } := by
  induction h with
  | nil => exact .refl _ _ _
  | @cons _ _ _ _ _ _ r _ _ _ _ _ _ _ hab hfirst _ ih =>
    have hle := hfirst.stored.le
    exact (hfirst.within.widen hab hfirst.stored.lt_size).trans
      ((ih.withSymbols r.symbols).widen (by omega) (Nat.le_refl _))

theorem StatementWalks.scope (h : StatementWalks P G a ss ids ids' vars r vars' r')
    (hsym : r.symbols = .above G vars) (hvalues : ∀ s ∈ vars, s.isValue) :
    r'.symbols = .above G vars' ∧ ∀ s ∈ vars', s.isValue := by
  induction h with
  | nil => exact ⟨hsym, hvalues⟩
  | cons _ hfirst _ ih =>
    obtain ⟨hsym₁, hvalues₁⟩ := hfirst.scope hsym hvalues
    exact ih hsym₁ hvalues₁

theorem resolveStatement_walk {r : Resolution} (hs : StoredStatement P a s i) (hd : P.size ≤ depth)
    (hG : Globals P ids G) (hsym : r.symbols = .above G vars) (hvalues : ∀ s ∈ vars, s.isValue)
    (hawaits : Awaits P r.nodes i) (hn : P.size ≤ r.nodes.size) :
    ∃ vars', StatementWalk P G a s i ((resolveStatement depth i).run r).1 vars r vars'
      ((resolveStatement depth i).run r).2 := by
  have hi := hs.lt_size
  have hT : SignaturesOk r.symbols := hsym ▸ hG.signaturesOk hvalues
  cases hs with
  | @define e body name params span hbody hnode =>
    obtain ⟨body', hnode'⟩ := hawaits.function _ _ _ _ hnode
    rw [resolveStatement_define hnode']
    exact ⟨vars, .define hbody hnode hnode'⟩
  | @assign e v x span hv hnode =>
    have hP := hawaits.other (not_defines_assign hnode) a _ (.assign hv hnode)
    have hroot := (hP (v + 1) (Nat.le_succ_of_le hv.le) (Nat.le_refl _)).trans hnode
    have hwalk := resolve_walk P depth none r hv (by omega)
      (fun k h₁ h₂ => hP k h₁ (by omega)) hn hT
    rw [resolveStatement_assign hroot]
    generalize (resolve depth none v).run r = out at hwalk ⊢
    obtain ⟨v', r₁⟩ := out
    dsimp only at hwalk ⊢
    have hw := hwalk.within
    have hnode₁ := (hw.nodes (v + 1) (Nat.lt_of_lt_of_le hi hn) (.inr (Nat.le_refl _))).trans hroot
    have hdefine := define?_variable G vars x span
    rw [← hsym, ← hw.symbols] at hdefine
    -- a name that is taken is reported and stays as it was
    cases hfind : vars.find? (Text.fingerprint x) with
    | some symbol =>
      rw [hfind, if_pos (by simp)] at hdefine
      rw [run_define_none (r := { r₁ with nodes := r₁.nodes.setKind (v + 1) (.assign x v') })
        hdefine]
      exact ⟨vars, .taken hfind hwalk hnode hnode₁⟩
    | none =>
      rw [hfind, if_neg (by simp)] at hdefine
      rw [run_define_some (r := { r₁ with nodes := r₁.nodes.setKind (v + 1) (.assign x v') })
        hdefine]
      exact ⟨_, .assign hfind hwalk hnode hnode₁⟩
  | expr he =>
    obtain ⟨node, hnode, hkind⟩ := he.root
    have hP := hawaits.other (he.not_defines rfl) a _ (.expr he)
    rw [resolveStatement_expr ((hP i he.le (Nat.le_refl _)).trans hnode) hkind]
    exact ⟨vars, .expr (resolve_walk P depth none r he (by omega) hP hn hT)⟩

theorem run_resolveStatements_cons (depth : Nat) (i : NodeId) (ids : List NodeId) (r : Resolution) :
    ((i :: ids).mapM (resolveStatement depth)).run r =
      let first := (resolveStatement depth i).run r
      let rest := (ids.mapM (resolveStatement depth)).run first.2
      (first.1 :: rest.1, rest.2) := by
  simp only [List.mapM_cons, run_bind, run_pure]

theorem Awaits.later {r r₁ : Resolution} (hrest : StoredList P (i + 1) ss ids)
    (hn : P.size ≤ r.nodes.size) (hw : Within b (i + 1) r { r₁ with symbols := r.symbols })
    (h : ∀ j ∈ ids, Awaits P r.nodes j) : ∀ j ∈ ids, Awaits P r₁.nodes j := by
  intro j hj
  obtain ⟨b', s', -, hle, hs'⟩ := hrest.statement hj
  have hlt := hs'.lt_size
  exact (h j hj).congr hs' fun k h₁ h₂ => hw.nodes k (by omega) (.inr (by omega))

theorem mapM_resolveStatement_walks (h : StoredList P a ss ids) (hd : P.size ≤ depth)
    (hG : Globals P all G) :
    ∀ (r : Resolution) (vars : Scope), r.symbols = .above G vars → (∀ s ∈ vars, s.isValue) →
    P.size ≤ r.nodes.size → (∀ i ∈ ids, Awaits P r.nodes i) →
    let out := (ids.mapM (resolveStatement depth)).run r
    ∃ vars', StatementWalks P G a ss ids out.1 vars r vars' out.2 := by
  induction h with
  | nil => exact fun r vars _ _ _ _ => ⟨vars, .nil⟩
  | @cons a b s i ss ids hab hs hrest ih =>
    intro r vars hsym hvalues hn hawaits
    obtain ⟨vars₁, hfirst⟩ := resolveStatement_walk hs hd hG hsym hvalues (hawaits i (.head _)) hn
    obtain ⟨hsym₁, hvalues₁⟩ := hfirst.scope hsym hvalues
    rw [run_resolveStatements_cons]
    obtain ⟨vars₂, hwalks⟩ := ih _ vars₁ hsym₁ hvalues₁ (Nat.le_trans hn hfirst.within.size)
      (Awaits.later hrest hn hfirst.within fun j hj => hawaits j (.tail _ hj))
    exact ⟨vars₂, .cons hab hfirst hwalks⟩

theorem StatementWalk.unchanged (h : StatementWalk P G a s i j vars r vars' r')
    (hdef : Defines P i) :
    r' = r := by
  cases h with
  | define _ _ _ => rfl
  | assign _ _ hnode _ | taken _ _ hnode _ => exact absurd hdef (not_defines_assign hnode)
  | expr he => exact absurd hdef (he.stored.not_defines rfl)

theorem StatementWalks.stored (h : StatementWalks P G a ss ids ids' vars r vars' r') :
    StoredList P a ss ids := by
  induction h with
  | nil => exact .nil
  | cons hab hfirst _ ih => exact .cons hab hfirst.stored ih

theorem StatementWalks.bodies (h : StatementWalks P G a ss ids ids' vars r vars' r')
    (hn : P.size ≤ r.nodes.size) :
    ∀ i ∈ ids, Defines P i → ∀ b s, StoredStatement P b s i →
      ∀ k, b ≤ k → k ≤ i → r'.nodes[k]? = r.nodes[k]? := by
  induction h with
  | nil => simp
  | @cons _ b _ i _ _ r _ r₁ _ _ _ _ _ _ hfirst hrest ih =>
    have hi := hfirst.stored.lt_size
    have hw := hfirst.within
    have hn₁ := Nat.le_trans hn hw.size
    intro j hj hdef b' s' hs' k h₁ h₂
    rcases List.mem_cons.mp hj with rfl | hj
    · have hkeep := hrest.within.nodes k (by dsimp only at hn₁; omega) (.inl (by omega))
      rwa [hfirst.unchanged hdef] at hkeep
    · obtain ⟨b'', s'', -, hle, hs''⟩ := hrest.stored.statement hj
      have := hs'.start_unique hs''
      have hlt := hs'.lt_size
      exact (ih hn₁ j hj hdef b' s' hs' k h₁ h₂).trans (hw.nodes k (by omega) (.inr (by omega)))

theorem run_program (ids : List NodeId) (depth : Nat) (r : Resolution) :
    (program ids depth).run r =
      let hoisted := ((ids.forM hoist).run r).2
      let bodies := ((ids.forM (resolveFunction depth)).run hoisted).2
      let out := (ids.mapM (resolveStatement depth)).run
        { bodies with symbols := bodies.symbols.push }
      (out.1, { out.2 with symbols := out.2.symbols.pop }) := rfl

/-- What comes before the statements: the functions are made known and their bodies resolved, and a
scope for variables is opened. -/
def opening (ids : List NodeId) (depth : Nat) : Resolving Unit := do
  ids.forM hoist
  ids.forM (resolveFunction depth)
  setSymbols .push

/-! ## What is made of statements -/

section

variable (P : Arena) (R : Resolved) (G : Scope)

/-- The tree `e` with root `i` is resolved to `j`, in a scope of values above the global names, and
what is made of it is in the finished patch. -/
structure TreeRun (scope : Scope) (e : Expr) (i j : NodeId) (r r' : Resolution) : Prop where
  symbols : r.symbols = .above G scope
  values : ∀ s ∈ scope, s.isValue
  size : P.size ≤ r.nodes.size
  tree : ∃ a, Walk P a e i none r j r' ∧ Kept P.size a (i + 1) r' R

/-- The statement `s` with root `i` in the stage of the function bodies. -/
inductive BodyRun : Statement → NodeId → Resolution → Resolution → Prop
  | define : TreeRun P R G (bodyScope params) e body body'
      { r with symbols := .above G (bodyScope params) } r₁ →
      P[body + 1]? = some ⟨.define name params body, span⟩ →
      R.patch.nodes[body + 1]? = some ⟨.define name params body', span⟩ →
      BodyRun (.define name params e span) (body + 1) r
        { r₁ with
          symbols := ⟨[], G⟩
          nodes := r₁.nodes.setKind (body + 1) (.define name params body') }
  | other : ¬ Defines P i → BodyRun s i r r

inductive BodyRuns : List Statement → List NodeId → Resolution → Resolution → Prop
  | nil : BodyRuns [] [] r r
  | cons : BodyRun P R G s i r r₁ → BodyRuns ss ids r₁ r₂ → BodyRuns (s :: ss) (i :: ids) r r₂

inductive StatementRun :
    Statement → NodeId → NodeId → Scope → Resolution → Scope → Resolution → Prop
  | define : P[i]? = some ⟨.define name params body, span⟩ →
      R.patch.nodes[i]? = some ⟨.define name params body', span⟩ → StatementRun s i i vars r vars r
  | assign : TreeRun P R G vars e v v' r r₁ → P[v + 1]? = some ⟨.assign x v, span⟩ →
      R.patch.nodes[v + 1]? = some ⟨.assign x v', span⟩ → vars.find? (Text.fingerprint x) = none →
      StatementRun (.assign x e span) (v + 1) (v + 1) vars r (variableSymbol x span :: vars)
        { r₁ with
          nodes := r₁.nodes.setKind (v + 1) (.assign x v')
          symbols := .above G (variableSymbol x span :: vars) }
  | taken : TreeRun P R G vars e v v' r r₁ → P[v + 1]? = some ⟨.assign x v, span⟩ →
      R.patch.nodes[v + 1]? = some ⟨.assign x v', span⟩ → ¬ R.success →
      StatementRun (.assign x e span) (v + 1) (v + 1) vars r vars r'
  | expr : TreeRun P R G vars e i j r r₁ → StatementRun (.expr e) i j vars r vars r₁

inductive StatementRuns :
    List Statement → List NodeId → List NodeId → Scope → Resolution → Scope → Resolution → Prop
  | nil : StatementRuns [] [] [] vars r vars r
  | cons : StatementRun P R G s i j vars r vars₁ r₁ → StatementRuns ss ids ids' vars₁ r₁ vars₂ r₂ →
      StatementRuns (s :: ss) (i :: ids) (j :: ids') vars r vars₂ r₂

end

variable {R : Resolved}

theorem BodyWalk.run (h : BodyWalk P G a s i r r') (hn : P.size ≤ r.nodes.size)
    (hk : Defines P i → Kept P.size a (i + 1) r' R) : BodyRun P R G s i r r' := by
  cases h with
  | define _ hbody hnode hnode' =>
    have hlt := (Array.getElem?_eq_some_iff.mp hnode).1
    have hk := hk ⟨_, _, _, _, hnode⟩
    have hk₁ := hk.before (setDefine_ok hnode' _ _) hlt (Nat.le_refl _) (Nat.le_succ _)
      (.inl (Nat.le_refl _)) (Nat.le_trans (Nat.le_of_lt hlt) (Nat.le_trans hn hbody.within.size))
    refine .define ⟨rfl, bodyScope_isValue, hn, _, hbody, hk₁.withSymbols _⟩ hnode ?_
    exact (hk.nodes _ (Nat.le_succ_of_le hbody.stored.le) (Nat.lt_succ_self _)).trans
      (Arena.getElem?_setKind_self hnode' _)
  | assign _ hnode => exact .other (not_defines_assign hnode)
  | expr he => exact .other (he.not_defines rfl)

theorem BodyWalks.runs (h : BodyWalks P G a ss ids r r') (hn : P.size ≤ r.nodes.size)
    (hk : ∀ i ∈ ids, Defines P i → ∀ b s, StoredStatement P b s i → Kept P.size b (i + 1) r' R) :
    BodyRuns P R G ss ids r r' := by
  induction h with
  | nil => exact .nil
  | @cons a b s i r r₁ ss ids r₂ hab hfirst hrest ih =>
    have hn₁ := Nat.le_trans hn hfirst.within.size
    refine .cons (hfirst.run hn fun hdef => ?_) (ih hn₁ fun j hj => hk j (.tail _ hj))
    exact (hk i (.head _) hdef b s hfirst.stored).before hrest.within
      (Nat.le_refl _) (Nat.le_refl _)
      (Nat.le_refl _) (.inl (Nat.le_refl _)) (Nat.le_trans hfirst.stored.lt_size hn₁)

theorem StatementWalk.run (h : StatementWalk P G a s i j vars r vars' r')
    (hsym : r.symbols = .above G vars) (hvalues : ∀ s ∈ vars, s.isValue)
    (hn : P.size ≤ r.nodes.size) (hk : Kept P.size a (i + 1) r' R) :
    StatementRun P R G s i j vars r vars' r' := by
  have hi := h.stored.lt_size
  have hroot := hk.nodes i h.stored.le (Nat.lt_succ_self _)
  cases h with
  | define _ hnode hnode' => exact .define hnode (hroot.trans hnode')
  | assign hfree hv hnode hnode₁ =>
    have hk₁ := (hk.withSymbols _).before (setAssign_ok hnode₁ _) hi (Nat.le_refl _) (Nat.le_succ _)
      (.inl (Nat.le_refl _)) (Nat.le_trans (Nat.le_of_lt hi) (Nat.le_trans hn hv.within.size))
    exact .assign ⟨hsym, hvalues, hn, _, hv, hk₁⟩ hnode
      (hroot.trans (Arena.getElem?_setKind_self hnode₁ _)) hfree
  | taken _ hv hnode hnode₁ =>
    have hk₁ := hk.before ((setAssign_ok hnode₁ _).trans (.report _ _ _ _)) hi
      (Nat.le_refl _) (Nat.le_succ _)
      (.inl (Nat.le_refl _)) (Nat.le_trans (Nat.le_of_lt hi) (Nat.le_trans hn hv.within.size))
    exact .taken ⟨hsym, hvalues, hn, _, hv, hk₁⟩ hnode
      (hroot.trans (Arena.getElem?_setKind_self hnode₁ _))
      fun hR => not_clean_report rfl _ _ (hk.noError hR)
  | expr he => exact .expr ⟨hsym, hvalues, hn, _, he, hk⟩

theorem StatementWalks.runs (h : StatementWalks P G a ss ids ids' vars r vars' r')
    (hsym : r.symbols = .above G vars) (hvalues : ∀ s ∈ vars, s.isValue)
    (hn : P.size ≤ r.nodes.size) (hk : Kept P.size a P.size r' R) :
    StatementRuns P R G ss ids ids' vars r vars' r' := by
  induction h with
  | nil => exact .nil
  | @cons a b _ i _ _ _ _ _ _ _ _ _ _ hab hfirst hrest ih =>
    have hbi := hfirst.stored.le
    have hi := hfirst.stored.lt_size
    have hn₁ := Nat.le_trans hn hfirst.within.size
    obtain ⟨hsym₁, hvalues₁⟩ := hfirst.scope hsym hvalues
    have hk₁ := (hk.withSymbols _).before hrest.within (Nat.le_refl _) hab hi (.inl (Nat.le_refl _))
      (Nat.le_trans hi hn₁)
    exact .cons (hfirst.run hsym hvalues hn hk₁)
      (ih hsym₁ hvalues₁ hn₁ (hk.narrow (by omega) (Nat.le_refl _)))

theorem TreeRun.rewritten (h : TreeRun P R G scope e i j r r') (hR : R.success) :
    Rewritten P R (.above G scope) none i j ∧ Declares R r r' := by
  obtain ⟨a, hwalk, hk⟩ := h.tree
  exact h.symbols ▸ hwalk.rewritten h.size hk hR

theorem BodyRuns.rewritten (h : BodyRuns P R G ss ids r r') (hR : R.success) :
    (∀ i ∈ ids, ∀ name params body span, P[i]? = some ⟨.define name params body, span⟩ →
      ∃ body', R.patch.nodes[i]? = some ⟨.define name params body', span⟩ ∧
        Rewritten P R (.above G (bodyScope params)) none body body') ∧ Declares R r r' := by
  induction h with
  | nil => exact ⟨by simp, .of_eq rfl⟩
  | cons hfirst _ ih =>
    obtain ⟨hbodies, hdeclares⟩ := ih
    rw [List.forall_mem_cons]
    cases hfirst with
    | define hrun hnode hnode' =>
      obtain ⟨hrewritten, hdeclares₁⟩ := hrun.rewritten hR
      refine ⟨⟨fun _ _ _ _ hnode'' => ?_, hbodies⟩, hdeclares₁.trans hdeclares⟩
      cases hnode.symm.trans hnode''
      exact ⟨_, hnode', hrewritten⟩
    | other hdef =>
      exact ⟨⟨fun _ _ _ _ hnode => absurd ⟨_, _, _, _, hnode⟩ hdef, hbodies⟩, hdeclares⟩

theorem StatementRuns.resolved (h : StatementRuns P R G ss ids ids' vars r vars' r')
    (hR : R.success) (hglobals : R.symbols.globals = G) :
    StatementsResolved P R vars ids ids' ∧ Declares R r r' := by
  induction h with
  | nil => exact ⟨.nil, .of_eq rfl⟩
  | cons hfirst _ ih =>
    obtain ⟨hresolved, hdeclares⟩ := ih
    cases hfirst with
    | define hnode hnode' => exact ⟨.define hnode hnode' hresolved, hdeclares⟩
    | assign hrun hnode hnode' hfree =>
      obtain ⟨hrewritten, hdeclares₁⟩ := hrun.rewritten hR
      exact ⟨.assign hnode hnode' (hglobals ▸ hrewritten) hfree hresolved,
        hdeclares₁.trans hdeclares⟩
    | taken _ _ _ hfails => exact absurd hR hfails
    | expr hrun =>
      obtain ⟨hrewritten, hdeclares₁⟩ := hrun.rewritten hR
      exact ⟨.expr (hglobals ▸ hrewritten) hresolved, hdeclares₁.trans hdeclares⟩

end Resolving

/-! ## Patches -/

open Resolving

theorem Kept.ofRun {r : Resolution} {R : Resolved} (hnodes : R.patch.nodes = r.nodes)
    (hparams : R.hostParams = r.hostParams) (hpatterns : R.patterns = r.patterns)
    (hfindings : R.findings = r.findings) (hread : PatternsRead r.nodes r.patterns) (n a b : Nat) :
    Kept n a b r R where
  findings := hfindings ▸ List.prefix_rfl
  nodes := fun _ _ _ => by rw [hnodes]
  fresh := fun _ _ _ => by rw [hnodes]
  spans := fun _ _ => by rw [hnodes]
  literals := fun _ _ hk _ => by rw [hnodes, hk]
  hostParams := hparams ▸ List.prefix_rfl
  patterns := fun _ hk => by rw [hpatterns, hk]
  read := by rw [hnodes, hpatterns]; exact hread

/-- The run that resolves a patch with the statements `ss`: with the functions known it is at `r₁`,
behind their bodies at `r₂`, and at last at `r₃`. -/
structure PatchRun (p : Patch) (ss : List Statement) (G vars : Scope) (r₁ r₂ r₃ : Resolution) :
    Prop where
  stored : StoredList p.nodes 0 ss p.statements
  hoisted : ((p.statements.forM hoist).run { nodes := p.nodes }).2 = r₁
  opened : r₁ = { nodes := p.nodes, symbols := ⟨[], G⟩, findings := r₁.findings }
  known : Hoisted p.nodes p.statements p.statements SymbolTable.standard.globals G r₁.findings
  bodies : BodyWalks p.nodes G 0 ss p.statements r₁ r₂
  statements : StatementWalks p.nodes G 0 ss p.statements p.resolve.patch.statements []
    { r₂ with symbols := .above G [] } vars r₃
  resolved : p.resolve =
    ⟨⟨r₃.nodes, p.resolve.patch.statements⟩, ⟨[], G⟩, r₃.hostParams, r₃.patterns, r₃.findings⟩

/-- Every patch whose statements are stored is resolved so, whether there are errors or not. -/
theorem Patch.resolve_run {p : Patch} (h : StoredList p.nodes 0 ss p.statements) :
    ∃ G vars r₁ r₂ r₃, PatchRun p ss G vars r₁ r₂ r₃ := by
  obtain ⟨G₀, hstandard, hG₀⟩ := standard_globals p.nodes p.statements
  have hd : p.nodes.size ≤ p.nodes.size + 2 := Nat.le_add_right p.nodes.size 2
  let r₀ : Resolution := { nodes := p.nodes }
  have hsym : r₀.symbols = ⟨[], G₀⟩ := by rw [← hstandard]
  obtain ⟨G, fs, hrun₁, hhoisted⟩ := forM_hoist_ok (r := r₀) (fun i hi => hi) hsym hG₀
  let r₁ : Resolution := { nodes := p.nodes, symbols := ⟨[], G⟩, findings := [] ++ fs }
  -- The bodies see the functions only, the statements also the variables assigned before them.
  have hbodies := forM_resolveFunction_walks h hd hhoisted.globals r₁ rfl
    (Nat.le_refl _) (fun _ _ _ => rfl)
  generalize hr₂ : ((p.statements.forM (resolveFunction (p.nodes.size + 2))).run r₁).2 =
    r₂ at hbodies
  have hsym₂ : r₂.symbols.push = .above G [] := by
    rw [hbodies.within.symbols]
    rfl
  obtain ⟨vars, hstatements⟩ := mapM_resolveStatement_walks h hd hhoisted.globals
    { r₂ with symbols := .above G [] } []
    rfl (by simp) hbodies.within.size (hbodies.awaits (Nat.le_refl _) (fun _ _ _ => rfl))
  generalize hr₃ : (p.statements.mapM (resolveStatement (p.nodes.size + 2))).run
    { r₂ with symbols := .above G [] } = out at hstatements
  obtain ⟨ids', r₃⟩ := out
  have hrun : (program p.statements (p.nodes.size + 2)).run { nodes := p.nodes } =
      (ids', { r₃ with symbols := r₃.symbols.pop }) := by
    rw [run_program, hrun₁]
    dsimp only
    rw [hr₂, hsym₂, hr₃]
  have hresolve : p.resolve =
      ⟨⟨r₃.nodes, ids'⟩, ⟨[], G⟩, r₃.hostParams, r₃.patterns, r₃.findings⟩ := by
    unfold Patch.resolve
    dsimp only
    rw [hrun, (hstatements.scope rfl (by simp)).1, SymbolTable.pop_above]
  refine ⟨G, vars, r₁, r₂, r₃, h, hrun₁, rfl, ?_, hbodies, ?_, ?_⟩
  · rw [hstandard]
    exact hhoisted
  · rw [hresolve]
    exact hstatements
  · rw [hresolve]

namespace PatchRun

variable {p : Patch} (h : PatchRun p ss G vars r₁ r₂ r₃)
include h

theorem size : p.nodes.size ≤ r₁.nodes.size :=
  Nat.le_of_eq (congrArg (·.nodes.size) h.opened).symm

theorem nodes : p.resolve.patch.nodes = r₃.nodes := by rw [h.resolved]

theorem hostParams : p.resolve.hostParams = r₃.hostParams := by rw [h.resolved]

theorem patterns : p.resolve.patterns = r₃.patterns := by rw [h.resolved]

theorem findings : p.resolve.findings = r₃.findings := by rw [h.resolved]

theorem symbols : p.resolve.symbols = ⟨[], G⟩ := by rw [h.resolved]

theorem globals : p.resolve.symbols.globals = G := by rw [h.symbols]

theorem kept (a b : Nat) : Kept p.nodes.size a b r₃ p.resolve := by
  have hnil : PatternsRead r₁.nodes r₁.patterns := by
    rw [h.opened]
    intro k p hk
    cases hk
  exact .ofRun h.nodes h.hostParams h.patterns h.findings
    (h.statements.within.read (h.bodies.within.read hnil)) _ a b

theorem bodyRuns : BodyRuns p.nodes p.resolve G ss p.statements r₁ r₂ := by
  refine h.bodies.runs h.size fun i hi hdef b s hs => ?_
  have hkept : Kept p.nodes.size 0 0 r₂ p.resolve :=
    ((h.kept 0 0).withSymbols r₂.symbols).before
      (h.statements.within.withSymbols r₂.symbols) (Nat.le_refl _)
      (Nat.le_refl _) (Nat.le_refl _) (.inl (Nat.zero_le _)) (Nat.zero_le _)
  -- the statements leave alone what was made of the bodies
  refine { hkept with nodes := fun k h₁ h₂ => ?_ }
  rw [h.nodes]
  exact h.statements.bodies (Nat.le_trans h.size h.bodies.within.size) i hi hdef b s hs k h₁
    (Nat.le_of_lt_succ h₂)

theorem statementRuns :
    StatementRuns p.nodes p.resolve G ss p.statements p.resolve.patch.statements []
    { r₂ with symbols := .above G [] } vars r₃ :=
  h.statements.runs rfl (by simp) (Nat.le_trans h.size h.bodies.within.size) (h.kept _ _)

theorem clean (hR : p.resolve.success) : Clean r₁.findings ∧ Clean r₃.findings := by
  have hclean : Clean r₃.findings := (h.kept 0 0).noError hR
  exact ⟨hclean.of_prefix (h.bodies.within.findings.trans h.statements.within.findings), hclean⟩

end PatchRun

/-- What a successful resolution of the statements `ids` of an arena amounts to. -/
structure Elaborated (P : Arena) (ids : List NodeId) (R : Resolved) : Prop where
  symbols : R.symbols = ⟨[], R.symbols.globals⟩
  globals : Globals P ids R.symbols.globals
  size : P.size ≤ R.patch.nodes.size
  functions : ∀ i ∈ ids, ∀ name params body span, P[i]? = some ⟨.define name params body, span⟩ →
    .ofFunction ⟨name, params.map formal, i⟩ span ∈ R.symbols.globals ∧
      (params.map Parameter.name).Nodup ∧
      ∃ body', R.patch.nodes[i]? = some ⟨.define name params body', span⟩ ∧
        Rewritten P R (.above R.symbols.globals (bodyScope params)) none body body'
  statements : StatementsResolved P R [] ids R.patch.statements
  sameCalls : P.SameCalls R.patch.nodes
  declared : ∀ p ∈ R.hostParams, Declared R p
  hashed : Hashed R.hostParams
  read : PatternsRead R.patch.nodes R.patterns

theorem resolve_elaborated {p : Patch} (h : StoredList p.nodes 0 ss p.statements)
    (hsuccess : p.resolve.success) : Elaborated p.nodes p.statements p.resolve := by
  obtain ⟨G, vars, r₁, r₂, r₃, hrun⟩ := Patch.resolve_run h
  obtain ⟨hbodies, hdeclares⟩ := hrun.bodyRuns.rewritten hsuccess
  obtain ⟨hresolved, hdeclares'⟩ := hrun.statementRuns.resolved hsuccess hrun.globals
  have hwithin := hrun.bodies.within.trans (hrun.statements.within.withSymbols r₂.symbols)
  have hnodes : r₁.nodes = p.nodes := by rw [hrun.opened]
  have hhosts : r₁.hostParams = [] := by rw [hrun.opened]
  refine ⟨by rw [hrun.symbols], hrun.globals ▸ hrun.known.globals, ?_, ?_, hresolved, ?_, ?_, ?_,
    (hrun.kept 0 0).read⟩
  · rw [hrun.nodes, ← hnodes]
    exact hwithin.size
  · intro i hi name params body span hnode
    obtain ⟨hmem, hnodup⟩ := hrun.known.functions
      (hrun.clean hsuccess).1 i hi name params body span hnode
    rw [hrun.globals]
    exact ⟨hmem, hnodup, hbodies i hi name params body span hnode⟩
  · rw [hrun.nodes, ← hnodes]
    exact hwithin.calls
  · intro p hp
    rw [hrun.hostParams] at hp
    refine (hdeclares.trans hdeclares' p hp).resolve_left fun h => ?_
    simp [hhosts] at h
  · rw [hrun.hostParams]
    exact hwithin.hashed (by simp [Hashed, hhosts])

end SignalPatch
