import Mathlib.Data.List.Perm.Subperm
import SignalPatch.Proofs.LoweringRuns
import SignalPatch.Proofs.NormalForm

/-!
# Resolved patches can be lowered

Resolution rejects everything that lowering cannot handle: on a normal patch each node gets its
buffer by one of the rules of `Lowers`, or lowering reports one of the few errors that resolution
does not look for (`lower_safe`). The depth that lowering is given suffices, since along a path each
function is expanded at most once and the rank of nodes falls within a body.
-/

namespace SignalPatch

namespace Lowering

/-! ## The walk, node by node -/

def remember (id : NodeId) (buffer : Buffer) : Lowering Buffer := do
  modify fun l => { l with memo := (id, buffer) :: l.memo }
  return buffer

def lowerBuiltin (r : Resolved) (bank : SampleRegistry) (depth : Nat) (site : Site) (b : Builtin)
    (args : List (Arg NodeId)) (span : Span) : Lowering Buffer :=
  match b.kind with
  | .op opcode => do
    let inputs ← args.mapM fun a => lower r bank depth site a.value
    let payload ← (if b.stateful then stateId site.path b.name else pure 0)
    emit opcode inputs payload span
  | .pattern =>
    match args with
    | [] => failure
    | text :: _ => lowerPattern r bank site.path text.value span
  | .control _ =>
    match args with
    | [] => failure
    | name :: _ => lowerHostParam r name.value span

def lowerExpansion (r : Resolved) (bank : SampleRegistry) (depth : Nat) (site : Site) (f : Function)
    (args : List (Arg NodeId)) (span : Span) : Lowering Buffer := do
  if site.expanding.contains f.name then fail (.recursiveFunction f.name) span
  let inputs ← args.mapM fun a => lower r bank depth site a.value
  match r.patch.nodes.kind f.definition with
  | .define _ params body => do
    let n ← number site.path f.name
    inOwnMemo (lower r bank depth (site.expansion r.symbols f.name n params inputs) body)
  | _ => fail (.definitionMissing f.name) span

def lowerNode (r : Resolved) (bank : SampleRegistry) (depth : Nat) (site : Site) (id : NodeId) :
    Lowering Buffer :=
  let span := r.patch.nodes.span id
  match r.patch.nodes.kind id with
  | .number v => emitConst v span
  | .bool b => emitConst (if b then 1 else 0) span
  | .text _ => fail .textAsSignal span
  | .ident name => lowerIdent site name span
  | .binary op lhs rhs => do
    let a ← lower r bank depth site lhs
    let b ← lower r bank depth site rhs
    emit (binaryOpcode op) [a, b] 0 span
  | .call callee args =>
    match (site.symbols.lookup callee).map Symbol.meaning with
    | some (.builtin b) => lowerBuiltin r bank depth site b args span
    | some (.function f) => lowerExpansion r bank depth site f args span
    | _ => fail (.unresolvedCall callee) span
  | .hole | .pipe _ _ | .assign _ _ | .define _ _ _ => fail .unresolvedExpression span

theorem fail_bind (issue : Issue) (span : Span) (f : α → Lowering β) :
    (fail issue span : Lowering α) >>= f = fail issue span := by
  rfl

theorem lower_succ (r : Resolved) (bank : SampleRegistry) (depth : Nat) (site : Site)
    (id : NodeId) :
    lower r bank (depth + 1) site id = (do
      match (← get).memo.lookup id with
      | some buffer => return buffer
      | none => lowerNode r bank depth site id >>= remember id) := by
  rw [lower]
  refine bind_congr fun l => ?_
  cases l.memo.lookup id with
  | some buffer => rfl
  | none =>
    -- the `do` block continues inside of every branch, hence `bind_assoc`
    unfold lowerNode remember
    dsimp only
    cases r.patch.nodes.kind id with
    | binary op lhs rhs => simp only [bind_assoc]
    | call callee args =>
      dsimp only
      cases (site.symbols.lookup callee).map Symbol.meaning with
      | none => rfl
      | some m =>
        cases m with
        | builtin b =>
          unfold lowerBuiltin
          dsimp only
          cases b.kind with
          | op opcode =>
            cases b.stateful <;> simp [bind_assoc]
          | pattern => cases args <;> rfl
          | control kind => cases args <;> rfl
        | function f =>
          unfold lowerExpansion
          dsimp only
          cases hrec : site.expanding.contains f.name with
          | true => simp [fail_bind]
          | false =>
            simp only [Bool.false_eq_true, ↓reduceIte, bind_assoc]
            refine bind_congr fun inputs => ?_
            cases r.patch.nodes.kind f.definition <;> simp [bind_assoc]
        | _ => rfl
    | _ => rfl

end Lowering

/-! ## Sites -/

/-- The site sees the values of `scope`, each with a buffer, and expands each function once. -/
structure SiteOk (R : Resolved) (scope : Scope) (site : Site) : Prop where
  values : ∀ s ∈ scope, s.isValue
  symbols : ∃ bound, site.symbols = .above R.symbols.globals bound ∧ bound.outline = scope.outline ∧
    ∀ s ∈ bound, s.buffer ≠ .unused
  nodup : site.expanding.Nodup
  functions : ∀ name ∈ site.expanding, ∃ s ∈ R.symbols.globals, s.name = name ∧
    ∃ f, s.meaning = .function f

theorem SiteOk.meaning (h : SiteOk R scope site) (x : String) :
    (site.symbols.lookup x).map Symbol.meaning =
      ((SymbolTable.above R.symbols.globals scope).lookup x).map Symbol.meaning := by
  obtain ⟨bound, hsym, houtline, -⟩ := h.symbols
  rw [hsym]
  exact SymbolTable.lookup_meaning_congr houtline _ x

theorem SiteOk.value (h : SiteOk R scope site) (hR : NormalPatch R n)
    (hlook : (SymbolTable.above R.symbols.globals scope).lookup x = some symbol)
    (hvalue : symbol.isValue) :
    ∃ symbol', site.symbols.lookup x = some symbol' ∧ symbol'.isValue ∧
      symbol'.buffer ≠ .unused := by
  have hmeaning := h.meaning x
  rw [hlook] at hmeaning
  obtain ⟨symbol', hlook', hm⟩ := Option.map_eq_some_iff.mp hmeaning
  have hvalue' : symbol'.isValue := by
    unfold Symbol.isValue at hvalue ⊢
    rwa [hm]
  refine ⟨symbol', hlook', hvalue', ?_⟩
  obtain ⟨bound, hsym, -, hbuffer⟩ := h.symbols
  rw [hsym] at hlook'
  exact hbuffer _ (hR.mem_scope hlook' hvalue').2

theorem SiteOk.builtin (h : SiteOk R scope site) (hR : NormalPatch R n)
    (hm : (site.symbols.lookup callee).map Symbol.meaning = some (.builtin f)) :
    f ∈ Builtin.table := by
  rw [h.meaning] at hm
  obtain ⟨s, hlook, hmeaning⟩ := Option.map_eq_some_iff.mp hm
  obtain ⟨-, hs | hs⟩ := SymbolTable.mem_of_lookup_above hlook
  · have := h.values s hs
    simp [Symbol.isValue, hmeaning] at this
  · cases hR.globals s hs with
    | builtin b hb hfind =>
      rw [hb] at hmeaning
      cases hmeaning
      exact Builtin.mem_table hfind
    | function i params body span _ _ hf => simp [hf] at hmeaning

theorem SiteOk.function (h : SiteOk R scope site) (hR : NormalPatch R n)
    (hm : (site.symbols.lookup callee).map Symbol.meaning = some (.function f)) :
    ∃ s ∈ R.symbols.globals, s.name = f.name ∧ s.meaning = .function f ∧
      ∃ params body span, R.patch.nodes[f.definition]? = some ⟨.define f.name params body, span⟩ ∧
        f.params = params.map Resolving.formal ∧ (params.map Parameter.name).Nodup ∧
        Normal R (.above R.symbols.globals (bodyScope params)) n body := by
  rw [h.meaning] at hm
  obtain ⟨s, hlook, hmeaning⟩ := Option.map_eq_some_iff.mp hm
  obtain ⟨-, hs | hs⟩ := SymbolTable.mem_of_lookup_above hlook
  · have := h.values s hs
    simp [Symbol.isValue, hmeaning] at this
  · cases hR.globals s hs with
    | builtin b hb => simp [hb] at hmeaning
    | function i params body span _ hnode hf hnodup hbody =>
      rw [hf] at hmeaning
      cases hmeaning
      exact ⟨s, hs, rfl, hf, params, body, span, hnode, rfl, hnodup, hbody⟩

/-- The parameters of a function, bound to the buffers of the arguments. -/
def argumentScope (params : List Parameter) (inputs : List Buffer) : Scope :=
  (params.zip inputs).foldl (fun scope q => scope.add (.ofParameter q.1.name q.2)) []

theorem mem_argumentScope (h : s ∈ argumentScope params inputs) :
    ∃ p b, (p, b) ∈ params.zip inputs ∧ s = .ofParameter p.name b := by
  rcases Scope.mem_foldl_add h with ⟨⟨p, b⟩, hq, rfl⟩ | h
  · exact ⟨p, b, hq, rfl⟩
  · simp at h

theorem argumentScope_outline {params : List Parameter} {inputs : List Buffer}
    (hlen : inputs.length = params.length) :
    (argumentScope params inputs).outline = (bodyScope params).outline := by
  have h : ∀ {params : List Parameter} {inputs : List Buffer} {bound scope : Scope},
      inputs.length = params.length → bound.outline = scope.outline →
      Scope.outline ((params.zip inputs).foldl
        (fun scope q => scope.add (.ofParameter q.1.name q.2)) bound) =
      Scope.outline (params.foldl (fun scope p => scope.add p.symbol) scope) := by
    intro params
    induction params with
    | nil => exact fun _ h => by simpa using h
    | cons p params ih =>
      intro inputs bound scope hlen h
      cases inputs with
      | nil => simp at hlen
      | cons b inputs =>
        rw [List.zip_cons_cons, List.foldl_cons, List.foldl_cons]
        exact ih (by simpa using hlen) (Scope.add_outline h rfl)
  exact h hlen rfl

theorem Site.expansion_symbols (site : Site) (G : Scope) (name : String) (k : Nat)
    (params : List Parameter) (inputs : List Buffer) :
    (site.expansion ⟨[], G⟩ name k params inputs).symbols =
      .above G (argumentScope params inputs) :=
  SymbolTable.foldl_define_above (fun q : Parameter × Buffer => .ofParameter q.1.name q.2)
    (params.zip inputs) G []

theorem NormalPatch.expansion_symbols (hR : NormalPatch R n) (site : Site) (name : String) (k : Nat)
    (params : List Parameter) (inputs : List Buffer) :
    (site.expansion R.symbols name k params inputs).symbols =
      .above R.symbols.globals (argumentScope params inputs) := by
  rw [hR.symbols]
  exact site.expansion_symbols R.symbols.globals name k params inputs

theorem SiteOk.expansion (h : SiteOk R scope site) (hR : NormalPatch R n)
    (hf : ∃ s ∈ R.symbols.globals, s.name = f.name ∧ s.meaning = .function f)
    (hnew : f.name ∉ site.expanding) {params : List Parameter} {inputs : List Buffer}
    (hlen : inputs.length = params.length) (hinputs : ∀ b ∈ inputs, b ≠ .unused) (k : Nat) :
    SiteOk R (bodyScope params) (site.expansion R.symbols f.name k params inputs) := by
  refine ⟨bodyScope_isValue, ?_, List.nodup_cons.mpr ⟨hnew, h.nodup⟩, ?_⟩
  · refine ⟨_, hR.expansion_symbols site f.name k params inputs, argumentScope_outline hlen, ?_⟩
    intro s hs
    obtain ⟨p, b, hmem, rfl⟩ := mem_argumentScope hs
    exact hinputs b (List.of_mem_zip hmem).2
  · intro name hname
    obtain ⟨s, hs, hsname, hmeaning⟩ := hf
    rcases List.mem_cons.mp hname with rfl | hname
    · exact ⟨s, hs, hsname, f, hmeaning⟩
    · exact h.functions name hname

/-! ## Depth -/

theorem rank_le (n i : Nat) : rank n i ≤ n := by
  unfold rank
  split <;> omega

/-- The depth that suffices for a node: the functions not yet entered, each with room for a whole
body, and the rank of the node. -/
def budget (R : Resolved) (n : Nat) (site : Site) (i : NodeId) : Nat :=
  (R.symbols.functionCount - site.expanding.length) * (R.patch.nodes.size + 1) + rank n i + 1

def SymbolTable.functions (t : SymbolTable) : List Symbol :=
  t.globals.filter fun s => s.meaning matches .function _

theorem SymbolTable.mem_functions {t : SymbolTable} :
    s ∈ t.functions ↔ s ∈ t.globals ∧ ∃ f, s.meaning = .function f := by
  rw [functions, List.mem_filter]
  cases hm : s.meaning <;> simp

theorem SymbolTable.length_functions (t : SymbolTable) : t.functions.length = t.functionCount :=
  List.countP_eq_length_filter.symm

theorem length_le_functionCount {t : SymbolTable} {expanding : List String}
    (hnodup : expanding.Nodup)
    (hfunctions : ∀ name ∈ expanding, ∃ s ∈ t.globals, s.name = name ∧
      ∃ f, s.meaning = .function f) :
    expanding.length ≤ t.functionCount := by
  have hsub : expanding ⊆ t.functions.map Symbol.name := by
    intro name hname
    obtain ⟨s, hs, rfl, hf⟩ := hfunctions name hname
    exact List.mem_map_of_mem (SymbolTable.mem_functions.mpr ⟨hs, hf⟩)
  have := (List.subperm_of_subset hnodup hsub).length_le
  rwa [List.length_map, SymbolTable.length_functions] at this

theorem SiteOk.length_le (h : SiteOk R scope site) :
    site.expanding.length ≤ R.symbols.functionCount :=
  length_le_functionCount h.nodup h.functions

theorem budget_child (hd : budget R n site i ≤ depth + 1) (hrank : rank n j < rank n i) :
    budget R n site j ≤ depth := by
  unfold budget at hd ⊢
  omega

theorem budget_expansion {R : Resolved}
    (hlen : (site.expansion R.symbols name k params inputs).expanding.length ≤
      R.symbols.functionCount)
    (hn : n ≤ R.patch.nodes.size) (hd : budget R n site i ≤ depth + 1) (body : NodeId) :
    budget R n (site.expansion R.symbols name k params inputs) body ≤ depth := by
  have hbody := rank_le n body
  have hexp : (site.expansion R.symbols name k params inputs).expanding.length =
      site.expanding.length + 1 := rfl
  unfold budget at hd ⊢
  rw [hexp] at hlen ⊢
  -- one function less is left, and its share has room for its body
  obtain ⟨m, hm⟩ : ∃ m, R.symbols.functionCount - site.expanding.length = m + 1 :=
    ⟨R.symbols.functionCount - site.expanding.length - 1, by omega⟩
  rw [hm, Nat.succ_mul] at hd
  have hm' : R.symbols.functionCount - (site.expanding.length + 1) = m := by omega
  rw [hm']
  omega

theorem SiteOk.budget_expansion
    (h : SiteOk R scope' (site.expansion R.symbols name k params inputs))
    (hn : n ≤ R.patch.nodes.size) (hd : budget R n site i ≤ depth + 1) (body : NodeId) :
    budget R n (site.expansion R.symbols name k params inputs) body ≤ depth :=
  SignalPatch.budget_expansion h.length_le hn hd body

/-! ## Nodes -/

def MemoOk (l : Lowered) : Prop := ∀ i b, l.memo.lookup i = some b → b ≠ .unused

theorem MemoOk.cons (h : MemoOk l) (hb : b ≠ .unused) (i : NodeId) :
    MemoOk { l with memo := (i, b) :: l.memo } := by
  intro j c hj
  rw [List.lookup_cons] at hj
  split at hj
  · cases hj
    exact hb
  · exact h j c hj

theorem MemoOk.of_eq (h : MemoOk l) (heq : l'.memo = l.memo) : MemoOk l' := by
  unfold MemoOk
  rwa [heq]

theorem Lowered.Appends.memoOk (h : Lowered.Appends l make b l') (hl : MemoOk l) : MemoOk l' :=
  hl.of_eq h.memo_eq

namespace Lowering

def LowersQ (R : Resolved) (bank : SampleRegistry) (site : Site) (i : NodeId) (l : Lowered)
    (b : Buffer) (l' : Lowered) : Prop :=
  b ≠ .unused ∧ MemoOk l' ∧ Lowers R bank site i l b l'

/-- At a depth, every normal node within its budget is lowered, or there is a reason. -/
def LowersSafely (R : Resolved) (bank : SampleRegistry) (n depth : Nat) : Prop :=
  ∀ {scope site i l}, Normal R (.above R.symbols.globals scope) n i → SiteOk R scope site →
    budget R n site i ≤ depth → MemoOk l →
    Safe (lower R bank depth site i) l (LowersQ R bank site i l)

theorem lowerArgs_safe {args : List (Arg NodeId)}
    (h : ∀ a ∈ args, ∀ l, MemoOk l →
      Safe (lower R bank depth site a.value) l (LowersQ R bank site a.value l)) :
    ∀ l, MemoOk l → Safe (args.mapM fun a => lower R bank depth site a.value) l fun bs l' =>
      bs.length = args.length ∧ (∀ b ∈ bs, b ≠ .unused) ∧ MemoOk l' ∧
        LowersArgs R bank site args l bs l' := by
  induction args with
  | nil => exact fun l hl => Safe.pure' ⟨rfl, by simp, hl, .nil⟩
  | cons a args ih =>
    intro l hl
    rw [List.mapM_cons]
    refine (h a (by simp) l hl).bind ?_
    rintro b l₁ - ⟨hb, hl₁, hlower⟩
    refine (ih (fun a' ha' => h a' (List.mem_cons_of_mem _ ha')) l₁ hl₁).bind ?_
    rintro bs l₂ - ⟨hlen, hbs, hl₂, hlowers⟩
    refine Safe.pure' ⟨by simp [hlen], fun c hc => ?_, hl₂, .cons hlower hlowers⟩
    rcases List.mem_cons.mp hc with rfl | hc
    · exact hb
    · exact hbs c hc

theorem PatternLowered.ne_unused (h : PatternLowered path p span l b l') : b ≠ .unused := by
  cases h with
  | values _ hstep => exact hstep.ne_unused
  | samples _ _ _ hplay => exact hplay.ne_unused

theorem HostParamLowered.ne_unused (h : HostParamLowered param l b l') : b ≠ .unused := by
  cases h with
  | intro _ hget => exact hget.ne_unused

theorem params_ne_nil : ∀ f ∈ Builtin.table,
    (f.kind = .pattern → f.params ≠ []) ∧ ∀ kind, f.kind = .control kind → f.params ≠ [] := by
  have h : ∀ f ∈ Builtin.table, (f.kind matches .op _) ∨ f.params ≠ [] := by decide
  intro f hf
  rcases h f hf with hop | hne
  · exact ⟨fun hk => by simp [hk] at hop, fun kind hk => by simp [hk] at hop⟩
  · exact ⟨fun _ => hne, fun _ _ => hne⟩

theorem lowerBuiltin_safe (hnode : R.patch.nodes[i]? = some ⟨.call callee args, s⟩)
    (hm : (site.symbols.lookup callee).map Symbol.meaning = some (.builtin f))
    (hf : f ∈ Builtin.table) (hlen : args.length = f.params.length)
    (hchecked : (Meaning.builtin f).Checked R (args.map Arg.value))
    (hargs : ∀ a ∈ args, ∀ l, MemoOk l →
      Safe (lower R bank depth site a.value) l (LowersQ R bank site a.value l)) (hl : MemoOk l) :
    Safe (lowerBuiltin R bank depth site f args s) l fun b l' =>
      b ≠ .unused ∧ MemoOk l' ∧ Makes R bank site i l b l' := by
  obtain ⟨hpattern, hcontrol⟩ := params_ne_nil f hf
  unfold lowerBuiltin
  simp only [Meaning.Checked] at hchecked
  cases hk : f.kind with
  | op opcode =>
    dsimp only
    refine (lowerArgs_safe hargs l hl).bind ?_
    rintro inputs l₁ - ⟨-, -, hl₁, hlowers⟩
    -- Only what keeps a state is given an identity.
    have hpayload :
        exec (if f.stateful then stateId site.path f.name else pure 0 : Lowering UInt32) l₁ =
          (some (l₁.payload site.path f), l₁.issueFor site.path f) := by
      unfold Lowered.payload Lowered.issueFor
      cases f.stateful with
      | true => exact exec_stateId _ _ _
      | false => exact exec_pure _ _
    have hissue : (l₁.issueFor site.path f).findings = l₁.findings := by
      unfold Lowered.issueFor
      cases f.stateful <;> rfl
    have hmemo := hl₁.of_eq (l₁.issueFor_memo site.path f)
    refine Safe.exec_bind hpayload hissue ((emit_safe _ _ _ _ _).mono fun b l₂ happ => ?_)
    exact ⟨happ.ne_unused, happ.memoOk hmemo, .op hnode hm hf hk hlen hlowers happ⟩
  | pattern =>
    cases args with
    | nil => exact absurd (List.length_eq_zero_iff.mp hlen.symm) (hpattern hk)
    | cons text rest =>
      rw [hk] at hchecked
      obtain ⟨t, s', p, -, hp, -⟩ := hchecked text.value rfl
      exact (lowerPattern_safe hp bank site.path s l).mono fun b l' h =>
        ⟨h.2.ne_unused, hl.of_eq h.2.memo_eq, .pattern hnode hm hk hp h.1 h.2⟩
  | control kind =>
    cases args with
    | nil => exact absurd (List.length_eq_zero_iff.mp hlen.symm) (hcontrol kind hk)
    | cons text rest =>
      rw [hk] at hchecked
      obtain ⟨name, s', htext, hsome⟩ := hchecked text.value rfl
      obtain ⟨param, hparam⟩ := Option.isSome_iff_exists.mp hsome
      exact (lowerHostParam_safe htext hparam s l).mono fun b l' h =>
        ⟨h.ne_unused, hl.of_eq h.memo_eq, .control hnode hm hk htext hparam h⟩

theorem inOwnMemo_safe {x : Lowering α} (hx : Safe x { l with memo := [] } Q) :
    Safe (inOwnMemo x) l fun a l' => ∃ l₂, l' = { l₂ with memo := l.memo } ∧ Q a l₂ := by
  unfold Safe at hx ⊢
  rw [exec_inOwnMemo]
  generalize exec x { l with memo := [] } = out at hx ⊢
  obtain ⟨o, l₂⟩ := out
  cases o with
  | none => exact hx
  | some a => exact ⟨hx.1, l₂, rfl, hx.2⟩

theorem lowerExpansion_safe (hR : NormalPatch R n) (ih : LowersSafely R bank n depth)
    (hsite : SiteOk R scope site) (hd : budget R n site i ≤ depth + 1)
    (hnode : R.patch.nodes[i]? = some ⟨.call callee args, s⟩)
    (hm : (site.symbols.lookup callee).map Symbol.meaning = some (.function f))
    (hlen : args.length = f.params.length)
    (hargs : ∀ a ∈ args, ∀ l, MemoOk l →
      Safe (lower R bank depth site a.value) l (LowersQ R bank site a.value l)) (hl : MemoOk l) :
    Safe (lowerExpansion R bank depth site f args s) l fun b l' =>
      b ≠ .unused ∧ MemoOk l' ∧ Makes R bank site i l b l' := by
  obtain ⟨sym, hsym, hname, hmeaning, params, body, span, hdef, hparams, -, hbody⟩ :=
    hsite.function hR hm
  unfold lowerExpansion
  cases hrec : site.expanding.contains f.name with
  | true =>
    simp only [↓reduceIte, fail_bind]
    exact Safe.fail rfl _ _ _
  | false =>
    have hnew : f.name ∉ site.expanding := by simpa using hrec
    simp only [Bool.false_eq_true, ↓reduceIte]
    refine (lowerArgs_safe hargs l hl).bind ?_
    rintro inputs l₁ - ⟨hinputs, hbuffers, hl₁, hlowers⟩
    rw [Arena.kind_eq hdef]
    have hlen' : args.length = params.length := by rw [hlen, hparams, List.length_map]
    have hsite' := hsite.expansion hR ⟨sym, hsym, hname, hmeaning⟩ hnew
      (hinputs.trans hlen') hbuffers (l₁.count site.path f.name)
    refine Safe.exec_bind (exec_number _ _ _) rfl ?_
    -- The body is lowered at a deeper site, with nothing remembered at first.
    refine (inOwnMemo_safe (ih hbody hsite' (hsite'.budget_expansion hR.size hd body) ?_)).mono ?_
    · intro j b hj
      simp at hj
    · rintro b l' ⟨l₂, rfl, hb, hl₂, hlower⟩
      have hmakes : Makes R bank site i l b { l₂ with memo := l₁.memo } :=
        .expand hnode hm hnew hlowers hdef hlen' hlower
      exact ⟨hb, hl₁, hmakes⟩

theorem lowerNode_safe (hR : NormalPatch R n) (ih : LowersSafely R bank n depth)
    (h : Normal R (.above R.symbols.globals scope) n i) (hsite : SiteOk R scope site)
    (hd : budget R n site i ≤ depth + 1) (hl : MemoOk l) :
    Safe (lowerNode R bank depth site i) l fun b l' =>
      b ≠ .unused ∧ MemoOk l' ∧ Makes R bank site i l b l' := by
  unfold lowerNode
  cases h with
  | @literal _ node hnode hlit =>
    rw [Arena.kind_eq hnode]
    obtain ⟨kind, s⟩ := node
    cases kind with
    | number v =>
      exact (emitConst_safe _ _ l).mono fun b l' h => ⟨h.ne_unused, h.memoOk hl, .number hnode h⟩
    | bool v =>
      exact (emitConst_safe _ _ l).mono fun b l' h => ⟨h.ne_unused, h.memoOk hl, .bool hnode h⟩
    | text t => exact Safe.fail rfl _ _ _
    | _ => cases hlit
  | ident hnode hlook hvalue =>
    rw [Arena.kind_eq hnode]
    obtain ⟨symbol, hlook', hvalue', hbuffer⟩ := hsite.value hR hlook hvalue
    unfold lowerIdent
    simp only [hlook', hvalue', bne_iff_ne, ne_eq, hbuffer, not_false_eq_true, Bool.and_eq_true,
      and_self, ↓reduceIte]
    exact Safe.pure' ⟨hbuffer, hl, .ident hnode hlook' hvalue' hbuffer⟩
  | binary hnode hlhs hrhs hli hri =>
    rw [Arena.kind_eq hnode]
    refine (ih hlhs hsite (budget_child hd hli) hl).bind ?_
    rintro a l₁ - ⟨-, hl₁, ha⟩
    refine (ih hrhs hsite (budget_child hd hri) hl₁).bind ?_
    rintro b l₂ - ⟨-, hl₂, hb⟩
    exact (emit_safe _ _ _ _ _).mono fun c l₃ h =>
      ⟨h.ne_unused, h.memoOk hl₂, .binary hnode ha hb h⟩
  | @call _ callee m params args s hnode hm hsig hlen hnone hchecked hargs hrank =>
    rw [Arena.kind_eq hnode, Arena.span_eq hnode]
    dsimp only
    rw [hsite.meaning, hm]
    have hm' : (site.symbols.lookup callee).map Symbol.meaning = some m :=
      (hsite.meaning _).trans hm
    -- arguments rank below the call, so the depth that is left suffices for them
    have hlower : ∀ a ∈ args, ∀ l, MemoOk l →
        Safe (lower R bank depth site a.value) l (LowersQ R bank site a.value l) :=
      fun a ha l hl => ih (hargs a ha) hsite (budget_child hd (hrank a ha)) hl
    cases m with
    | builtin f =>
      cases hsig
      exact lowerBuiltin_safe hnode hm' (hsite.builtin hR hm') hlen hchecked hlower hl
    | function f =>
      cases hsig
      exact lowerExpansion_safe hR ih hsite hd hnode hm' hlen hlower hl
    | _ => cases hsig

/-- On a normal patch, a node within its budget gets a buffer by the rules, or an error tells why
not. -/
theorem lower_safe (hR : NormalPatch R n) (bank : SampleRegistry) (depth : Nat) :
    LowersSafely R bank n depth := by
  induction depth with
  | zero =>
    intro scope site i l _ _ hd
    simp [budget] at hd
  | succ depth ih =>
    intro scope site i l h hsite hd hl
    rw [lower_succ]
    refine Safe.exec_bind (exec_get l) rfl ?_
    cases hmemo : l.memo.lookup i with
    | some b => exact Safe.pure' ⟨hl i b hmemo, hl, .memo hmemo⟩
    | none =>
      refine (lowerNode_safe hR ih h hsite hd hl).bind ?_
      rintro b l' - ⟨hb, hl', hmakes⟩
      exact Safe.exec_bind (exec_modify _ _) rfl
        (Safe.pure' ⟨hb, hl'.cons hb i, .fresh hmemo hmakes⟩)

end Lowering

end SignalPatch
