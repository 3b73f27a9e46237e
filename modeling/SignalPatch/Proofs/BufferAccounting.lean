import SignalPatch.Proofs.CallGraph
import SignalPatch.Proofs.LoweringAdequacy
import SignalPatch.Proofs.SingleAssignment

/-!
# Exact buffer accounting

Lowering makes as many instructions as a patch needs (`Resolved.need`), or stops with an error and
tells why: there is no room for another instruction and the need is more than the limit, a function
is recursive, or a sample or a text cannot be used (`Halts`). `Charges` says so of a step; costs of
steps add up (`Charges.bind`). What a node costs is what is left of the nodes below it when those
known already are taken away (`lower_charges`), so a shared node is paid for once, and each
expansion of a function starts with nothing known.
-/

namespace SignalPatch

open Lowering

open Relation (ReflTransGen TransGen)

variable {calls : Option String → String → Prop}

/-! ## Steps and what they cost -/

def Issue.isUnusable : Issue → Bool
  | .unknownSample _ | .textAsSignal => true
  | _ => false

/-- Why a step that costs `cost` instructions fails. -/
inductive Halts (calls : Option String → String → Prop) (cost : ℕ∞) (l l' : Lowered) : Prop
  | full (span : Span) : l'.findings = l.findings ++ [⟨.outOfBuffers, span⟩] →
      bufferLimit < l.instructions.length + cost → Halts calls cost l l'
  | recursive (f : String) (span : Span) :
      l'.findings = l.findings ++ [⟨.recursiveFunction f, span⟩] → Recursive calls f →
      Halts calls cost l l'
  | unusable (fs : List Finding) : l'.findings = l.findings ++ fs → fs ≠ [] →
      (∀ f ∈ fs, f.issue.isUnusable) → Halts calls cost l l'

theorem Halts.first (h : Halts calls cost l l') (cost' : ℕ∞) : Halts calls (cost + cost') l l' := by
  cases h with
  | full span hf hcost =>
    refine .full span hf (hcost.trans_le ?_)
    rw [← add_assoc]
    exact le_self_add
  | recursive f span hf hrec => exact .recursive f span hf hrec
  | unusable fs hf hne hall => exact .unusable fs hf hne hall

theorem Halts.later (h : Halts calls cost' l' l'') (hf : l'.findings = l.findings)
    (hlen : (l'.instructions.length : ℕ∞) = l.instructions.length + cost) :
    Halts calls (cost + cost') l l'' := by
  cases h with
  | full span hf' hcost =>
    refine .full span (hf ▸ hf') ?_
    rwa [hlen, add_assoc] at hcost
  | recursive f span hf' hrec => exact .recursive f span (hf ▸ hf') hrec
  | unusable fs hf' hne hall => exact .unusable fs (hf ▸ hf') hne hall

namespace Lowering

/-- A step adds `cost` instructions, or fails for one of the reasons. -/
def Charges (calls : Option String → String → Prop) (x : Lowering α) (l : Lowered) (cost : ℕ∞)
    (Q : α → Lowered → Prop) : Prop :=
  match exec x l with
  | (some a, l') => l'.findings = l.findings ∧
      (l'.instructions.length : ℕ∞) = l.instructions.length + cost ∧ Q a l'
  | (none, l') => Halts calls cost l l'

namespace Charges

theorem of_exec {x : Lowering α} (h : exec x l = (some a, l')) (hf : l'.findings = l.findings)
    (hlen : (l'.instructions.length : ℕ∞) = l.instructions.length + cost) (hQ : Q a l') :
    Charges calls x l cost Q := by
  unfold Charges
  rw [h]
  exact ⟨hf, hlen, hQ⟩

theorem pure' (hQ : Q a l) : Charges calls (pure a) l 0 Q :=
  of_exec (exec_pure a l) rfl (add_zero _).symm hQ

theorem bind {x : Lowering α} {f : α → Lowering β} (hx : Charges calls x l cost Q) (hs : Safe x l S)
    (hf : ∀ a l', S a l' → Q a l' → Charges calls (f a) l' cost' Q') :
    Charges calls (x >>= f) l (cost + cost') Q' := by
  unfold Charges at hx ⊢
  unfold Safe at hs
  rw [Lowering.exec_bind]
  generalize exec x l = p at hx hs ⊢
  obtain ⟨o, l'⟩ := p
  cases o with
  | none => exact hx.first cost'
  | some a =>
    obtain ⟨hfindings, hlen, hQ⟩ := hx
    have h := hf a l' hs.2 hQ
    unfold Charges at h
    dsimp only
    generalize exec (f a) l' = p at h ⊢
    obtain ⟨o, l''⟩ := p
    cases o with
    | none => exact h.later hfindings hlen
    | some b => exact ⟨h.1.trans hfindings, by rw [h.2.1, hlen, add_assoc], h.2.2⟩

theorem mono {x : Lowering α} (hx : Charges calls x l cost Q) (h : ∀ a l', Q a l' → Q' a l') :
    Charges calls x l cost Q' := by
  unfold Charges at hx ⊢
  generalize exec x l = p at hx ⊢
  obtain ⟨o, l'⟩ := p
  cases o with
  | none => exact hx
  | some a => exact ⟨hx.1, hx.2.1, h a l' hx.2.2⟩

theorem exec_bind {x : Lowering α} {f : α → Lowering β} (h : exec x l = (some a, l'))
    (hl : l'.findings = l.findings) (hlen : l'.instructions = l.instructions)
    (hf : Charges calls (f a) l' cost Q) : Charges calls (x >>= f) l cost Q := by
  rw [← zero_add cost]
  refine (of_exec h hl (by rw [hlen, add_zero]) (Q := fun _ _ => True) trivial).bind
    (Safe.of_exec h hl (Q := fun b l'' => b = a ∧ l'' = l') ⟨rfl, rfl⟩) ?_
  rintro _ _ ⟨rfl, rfl⟩ -
  exact hf

theorem fail {issue : Issue} (h : ∀ l' : Lowered, l'.findings = l.findings ++ [⟨issue, span⟩] →
    Halts calls cost l l') (Q : α → Lowered → Prop) :
    Charges calls (Lowering.fail issue span) l cost Q := h _ rfl

end Charges

theorem append_charges (span : Span) (make : Buffer → Instruction) (l : Lowered) :
    Charges calls (append span make) l 1 fun _ l' => l'.memo = l.memo := by
  unfold append
  refine .exec_bind (exec_get l) rfl rfl ?_
  by_cases hroom : l.instructions.length < bufferLimit
  · simp only [hroom, ↓reduceIte]
    refine .of_exec (a := l.instructions.length.toUInt16)
      (exec_bind_some (exec_modify _ _) _) rfl ?_ rfl
    simp
  · simp only [hroom, ↓reduceIte]
    refine .fail (fun l' hf => .full span hf ?_) _
    exact_mod_cast Nat.lt_succ_of_le (Nat.not_lt.mp hroom)

theorem emit_charges (opcode : Opcode) (inputs : List Buffer) (payload : UInt32) (span : Span)
    (l : Lowered) :
    Charges calls (emit opcode inputs payload span) l 1 fun _ l' => l'.memo = l.memo :=
  append_charges span _ l

theorem emitConst_charges (value : Float) (span : Span) (l : Lowered) :
    Charges calls (emitConst value span) l 1 fun _ l' => l'.memo = l.memo :=
  append_charges span _ l

theorem lowerPattern_charges {r : Resolved} (h : r.patterns.lookup text = some p)
    (bank : SampleRegistry) (path : List String) (span : Span) (l : Lowered) :
    Charges calls (lowerPattern r bank path text span) l (if p.isSample then 3 else 1 : Nat)
      fun _ l' => l'.memo = l.memo := by
  unfold lowerPattern
  rw [h]
  dsimp only
  generalize p.sampleNames.eraseDups.filter (!bank.contains ·) = unknown
  cases unknown with
  | cons name names =>
    unfold Charges
    rw [exec_bind_some (exec_reportAll _ _ l)]
    refine .unusable _ rfl (by simp) fun f hf => ?_
    obtain ⟨name, -, rfl⟩ := List.mem_map.mp hf
    rfl
  | nil =>
    refine .exec_bind (exec_pure () l) rfl rfl ?_
    refine .exec_bind (exec_stateId path "pat" l) rfl rfl ?_
    refine .exec_bind (exec_sequenceInit _ p span _) rfl rfl ?_
    refine .exec_bind (exec_get _) rfl rfl ?_
    refine .exec_bind (exec_modify _ _) rfl rfl ?_
    -- A sequence of samples needs two more: the pitch it is played at and what plays it.
    cases hsample : p.isSample with
    | false =>
      rw [show ((if false = true then 3 else 1 : Nat) : ℕ∞) = 1 + 0 from rfl]
      refine (emit_charges .seqStep [] l.sequences.length.toUInt32 span
        (l.withSequence path p span)).bind (emit_safe ..) fun step l₁ _ hmemo => ?_
      simp only [initOf, hsample, Bool.false_eq_true, ↓reduceIte]
      exact .pure' hmemo
    | true =>
      rw [show ((if true = true then 3 else 1 : Nat) : ℕ∞) = 1 + (1 + 1) from rfl]
      refine (emit_charges .seqStep [] l.sequences.length.toUInt32 span
        (l.withSequence path p span)).bind (emit_safe ..) fun step l₁ _ hmemo₁ => ?_
      simp only [initOf, hsample, ↓reduceIte]
      refine (emitConst_charges 1 span l₁).bind (emitConst_safe ..) fun pitch l₂ _ hmemo₂ => ?_
      exact (emit_charges ..).mono fun _ l₃ hmemo₃ => (hmemo₃.trans hmemo₂).trans hmemo₁

theorem lowerHostParam_charges {r : Resolved} (hnode : r.patch.nodes[i]? = some ⟨.text name, s⟩)
    (h : r.hostParams.find? (·.name == name) = some param) (span : Span) (l : Lowered) :
    Charges calls (lowerHostParam r i span) l 2 fun _ l' => l'.memo = l.memo := by
  unfold lowerHostParam
  rw [Arena.kind_eq hnode]
  dsimp only
  rw [h, ← one_add_one_eq_two]
  refine (emitConst_charges param.default span l).bind (emitConst_safe ..)
    fun fallback l₁ _ hmemo => ?_
  exact (emit_charges ..).mono fun _ l₂ hmemo₂ => hmemo₂.trans hmemo

theorem inOwnMemo_charges {x : Lowering α} (hx : Charges calls x { l with memo := [] } cost Q) :
    Charges calls (inOwnMemo x) l cost fun _ l' => l'.memo = l.memo := by
  unfold Charges at hx ⊢
  rw [exec_inOwnMemo]
  generalize exec x { l with memo := [] } = out at hx ⊢
  obtain ⟨o, l₂⟩ := out
  cases o with
  | none =>
    cases hx with
    | full span hf hcost => exact .full span hf hcost
    | recursive f span hf hrec => exact .recursive f span hf hrec
    | unusable fs hf hne hall => exact .unusable fs hf hne hall
  | some a => exact ⟨hx.1, hx.2.1, rfl⟩

end Lowering

/-! ## Nodes -/

def Lowered.known (l : Lowered) : Finset NodeId := (l.memo.map Prod.fst).toFinset

theorem Lowered.known_of_eq {l l' : Lowered} (h : l'.memo = l.memo) : l'.known = l.known := by
  unfold known
  rw [h]

theorem Lowered.lookup_eq_none_iff {l : Lowered} : l.memo.lookup i = none ↔ i ∉ l.known := by
  rw [List.lookup_eq_none_iff, known, List.mem_toFinset, List.mem_map]
  constructor
  · rintro h ⟨⟨j, b⟩, hmem, rfl⟩
    simpa using h (j, b) hmem
  · intro h q hq
    simpa using fun hi => h ⟨q, hq, hi.symm⟩

def Traced (calls : Option String → String → Prop) (R : Resolved) (caller : Option String)
    (i : NodeId) :
    Prop :=
  ∀ callee, R.CallsBelow i callee → calls caller callee

def TracedBodies (calls : Option String → String → Prop) (R : Resolved) : Prop :=
  ∀ f body, R.HasBody f body → Traced calls R (some f) body

theorem NormalPatch.function_name (hR : NormalPatch R n) (h : R.Calls callee (.function f)) :
    f.name = callee := by
  obtain ⟨s, hs, hmeaning⟩ := Option.map_eq_some_iff.mp h
  obtain ⟨hmem, hname⟩ := Scope.named?_eq_some hs
  cases hR.globals s hmem with
  | builtin b hb => simp [hb] at hmeaning
  | function i params body span _ _ hf =>
    rw [hf] at hmeaning
    cases hmeaning
    exact hname

/-- The node can be lowered at the site, in a body of which `calls` knows all calls. -/
structure Ready (calls : Option String → String → Prop) (R : Resolved) (n : Nat) (scope : Scope)
    (site : Site) (i : NodeId) : Prop where
  normal : Normal R (.above R.symbols.globals scope) n i
  siteOk : SiteOk R scope site
  stack : Stack calls site.expanding
  traced : Traced calls R site.expanding.head? i

theorem Ready.signal (h : Ready calls R n scope site i) (hj : R.Signal i j) :
    Ready calls R n scope site j ∧ rank n j < rank n i := by
  obtain ⟨hnormal, hrank⟩ := h.normal.child hj.refers
  refine ⟨⟨hnormal, h.siteOk, h.stack, ?_⟩, hrank⟩
  rintro callee ⟨c, args, hpath, hcall⟩
  exact h.traced callee ⟨c, args, .head hj hpath, hcall⟩

theorem Ready.acyclic (h : Ready calls R n scope site i) : ¬ TransGen R.Signal i i :=
  fun hii => h.normal.acyclic (hii.lift id fun _ _ hij => hij.refers)

theorem Ready.lt_size (h : Ready calls R n scope site i) : i < R.patch.nodes.size := by
  obtain ⟨node, hnode, -⟩ := h.normal.root
  exact (Array.getElem?_eq_some_iff.mp hnode).1

namespace Lowering

def ChargesNodes (calls : Option String → String → Prop) (R : Resolved) (bank : SampleRegistry)
    (n depth : Nat) :
    Prop :=
  ∀ {scope site i l}, Ready calls R n scope site i → budget R n site i ≤ depth → MemoOk l →
    R.Closed l.known → Charges calls (lower R bank depth site i) l (R.cost l.known [i])
      fun _ l' => l'.known = l.known ∪ R.below [i]

theorem lowerArgs_charges (hR : NormalPatch R n) (ih : ChargesNodes calls R bank n depth)
    {args : List (Arg NodeId)} (hready : ∀ a ∈ args, Ready calls R n scope site a.value)
    (hbudget : ∀ a ∈ args, budget R n site a.value ≤ depth) :
    ∀ l, MemoOk l → R.Closed l.known →
      Charges calls (args.mapM fun a => lower R bank depth site a.value) l
        (R.cost l.known (args.map Arg.value))
        fun _ l' => l'.known = l.known ∪ R.below (args.map Arg.value) := by
  induction args with
  | nil =>
    intro l _ _
    rw [List.map_nil, Resolved.cost_nil]
    exact .pure' (by simp [Resolved.below_nil])
  | cons a args iht =>
    intro l hmemo hclosed
    have ha := hready a (List.mem_cons_self ..)
    have hda := hbudget a (List.mem_cons_self ..)
    rw [List.mapM_cons, List.map_cons, Resolved.cost_cons]
    refine (ih ha hda hmemo hclosed).bind
      (lower_safe hR bank depth ha.normal ha.siteOk hda hmemo) ?_
    rintro b l₁ ⟨-, hmemo₁, -⟩ hknown₁
    -- The other arguments cost only what the first has not left known.
    rw [← hknown₁, ← add_zero (R.cost l₁.known _)]
    have hsafe : ∀ a ∈ args, ∀ l, MemoOk l →
        Safe (lower R bank depth site a.value) l (LowersQ R bank site a.value l) :=
      fun a ha l hl => lower_safe hR bank depth (hready a (List.mem_cons_of_mem _ ha)).normal
        (hready a (List.mem_cons_of_mem _ ha)).siteOk (hbudget a (List.mem_cons_of_mem _ ha)) hl
    refine (iht (fun a ha => hready a (List.mem_cons_of_mem _ ha))
      (fun a ha => hbudget a (List.mem_cons_of_mem _ ha)) l₁ hmemo₁
        (hknown₁ ▸ hclosed.union _)).bind
      (lowerArgs_safe hsafe l₁ hmemo₁) ?_
    rintro bs l₂ - hknown₂
    refine .pure' ?_
    rw [hknown₂, hknown₁, Finset.union_assoc, ← Resolved.below_cons]

theorem Charges.remember {x : Lowering Buffer}
    (hx : Charges calls x l cost fun _ l' => l'.known = known) (hs : Safe x l S) (i : NodeId) :
    Charges calls (x >>= remember i) l cost fun _ l' => l'.known = insert i known := by
  rw [← add_zero cost]
  refine hx.bind hs fun b l' _ hknown => ?_
  refine .exec_bind (exec_modify _ _) rfl rfl (.pure' ?_)
  rw [← hknown]
  simp [Lowered.known]

def ChargesNode (calls : Option String → String → Prop) (R : Resolved) (i : NodeId)
    (x : Lowering Buffer) (l : Lowered) : Prop :=
  Charges calls x l (R.cost l.known (R.signals i) + R.weight R.bodyNeed i)
    fun _ l' => l'.known = l.known ∪ R.below (R.signals i)

theorem ChargesNode.leaf {R : Resolved} {x : Lowering Buffer} (hnil : R.signals i = [])
    (hx : Charges calls x l (R.weight R.bodyNeed i) fun _ l' => l'.memo = l.memo) :
    ChargesNode calls R i x l := by
  rw [ChargesNode, hnil, R.cost_nil, zero_add, R.below_nil, Finset.union_empty]
  exact hx.mono fun _ _ h => Lowered.known_of_eq h

theorem ChargesNode.args (hR : NormalPatch R n) (ih : ChargesNodes calls R bank n depth)
    (hready : Ready calls R n scope site i) (hd : budget R n site i ≤ depth + 1)
    {args : List (Arg NodeId)} (hargs : R.signals i = args.map Arg.value) (hl : MemoOk l)
    (hclosed : R.Closed l.known) {f : List Buffer → Lowering Buffer}
    (hf : ∀ inputs l₁, inputs.length = args.length → (∀ b ∈ inputs, b ≠ .unused) →
      Charges calls (f inputs) l₁ (R.weight R.bodyNeed i) fun _ l' => l'.memo = l₁.memo) :
    ChargesNode calls R i ((args.mapM fun a => lower R bank depth site a.value) >>= f) l := by
  have hsignal : ∀ a ∈ args, R.Signal i a.value := by
    intro a ha
    rw [Resolved.Signal, hargs]
    exact List.mem_map_of_mem ha
  have hready' := fun a ha => (hready.signal (hsignal a ha)).1
  have hbudget := fun a ha => budget_child hd (hready.signal (hsignal a ha)).2
  rw [ChargesNode, hargs]
  refine (lowerArgs_charges hR ih hready' hbudget l hl hclosed).bind
    (lowerArgs_safe (fun a ha l hl =>
    lower_safe hR bank depth (hready' a ha).normal hready.siteOk (hbudget a ha) hl) l hl) ?_
  rintro inputs l₁ ⟨hinputs, hbuffers, -⟩ hknown
  exact (hf inputs l₁ hinputs hbuffers).mono fun _ _ hmemo =>
    (Lowered.known_of_eq hmemo).trans hknown

theorem lowerBuiltin_charges (hR : NormalPatch R n) (ih : ChargesNodes calls R bank n depth)
    (hready : Ready calls R n scope site i) (hd : budget R n site i ≤ depth + 1)
    (hnode : R.patch.nodes[i]? = some ⟨.call callee args, s⟩) (hcalls : R.Calls callee (.builtin f))
    (hf : f ∈ Builtin.table) (hlen : args.length = f.params.length)
    (hchecked : (Meaning.builtin f).Checked R (args.map Arg.value)) (hl : MemoOk l)
    (hclosed : R.Closed l.known) :
    ChargesNode calls R i (lowerBuiltin R bank depth site f args s) l := by
  obtain ⟨hpattern, hcontrol⟩ := params_ne_nil f hf
  have hkind := Arena.kind_eq hnode
  have hsignals := R.signals_call hkind hcalls
  have hweight := R.weight_builtin hkind hcalls R.bodyNeed
  unfold lowerBuiltin
  simp only [Meaning.Checked] at hchecked
  cases hk : f.kind with
  | op opcode =>
    have hargs : R.signals i = args.map Arg.value := by simp [hsignals, Meaning.takesSignals, hk]
    refine .args hR ih hready hd hargs hl hclosed fun inputs l₁ _ _ => ?_
    -- a state is issued without an instruction
    have hinstructions : (l₁.issueFor site.path f).instructions = l₁.instructions := by
      unfold Lowered.issueFor
      split <;> rfl
    have hfindings : (l₁.issueFor site.path f).findings = l₁.findings := by
      unfold Lowered.issueFor
      split <;> rfl
    rw [hweight, hk]
    refine .exec_bind (exec_payload l₁ site.path f) hfindings hinstructions ?_
    exact (emit_charges _ _ _ _ _).mono fun b l₂ hmemo => hmemo.trans (l₁.issueFor_memo site.path f)
  | pattern =>
    cases args with
    | nil => exact absurd (List.length_eq_zero_iff.mp hlen.symm) (hpattern hk)
    | cons text rest =>
      rw [hk] at hchecked
      obtain ⟨t, s', p, -, hp, -⟩ := hchecked text.value rfl
      refine .leaf (by simp [hsignals, Meaning.takesSignals, hk]) ?_
      rw [hweight, hk, Resolved.builtinWeight, Resolved.pattern?]
      simp only [List.head?_cons, Option.bind_some, hp, Option.any_some]
      exact lowerPattern_charges hp bank site.path s l
  | control kind =>
    cases args with
    | nil => exact absurd (List.length_eq_zero_iff.mp hlen.symm) (hcontrol kind hk)
    | cons text rest =>
      rw [hk] at hchecked
      obtain ⟨name, s', htext, hsome⟩ := hchecked text.value rfl
      obtain ⟨param, hparam⟩ := Option.isSome_iff_exists.mp hsome
      refine .leaf (by simp [hsignals, Meaning.takesSignals, hk]) ?_
      rw [hweight, hk]
      exact lowerHostParam_charges htext hparam s l

theorem lowerExpansion_charges (hR : NormalPatch R n) (hbodies : TracedBodies calls R)
    (ih : ChargesNodes calls R bank n depth) (hready : Ready calls R n scope site i)
    (hd : budget R n site i ≤ depth + 1) (hnode : R.patch.nodes[i]? = some ⟨.call callee args, s⟩)
    (hm : (site.symbols.lookup callee).map Symbol.meaning = some (.function f))
    (hlen : args.length = f.params.length) (hl : MemoOk l) (hclosed : R.Closed l.known) :
    ChargesNode calls R i (lowerExpansion R bank depth site f args s) l := by
  obtain ⟨sym, hsym, hname, hmeaning, params, body, span, hdef, hparams, -, hbody⟩ :=
    hready.siteOk.function hR hm
  have hcalls := hready.siteOk.calls hm rfl
  have hkind := Arena.kind_eq hnode
  have hfname := hR.function_name hcalls
  have hcall : calls site.expanding.head? f.name := by
    rw [hfname]
    exact hready.traced callee ⟨i, args, .refl, hkind⟩
  unfold lowerExpansion
  cases hrec : site.expanding.contains f.name with
  | true =>
    simp only [↓reduceIte, fail_bind]
    refine .fail (fun l' hf => .recursive f.name s hf (hready.stack.recursive ?_ hcall)) _
    simpa using hrec
  | false =>
    have hnew : f.name ∉ site.expanding := by simpa using hrec
    simp only [Bool.false_eq_true, ↓reduceIte]
    refine .args hR ih hready hd (R.signals_call hkind hcalls) hl hclosed
      fun inputs l₁ hinputs hbuffers => ?_
    have hdef := Arena.kind_eq hdef
    rw [hdef, R.weight_function hkind hcalls hdef, R.bodyNeed_eq, ← R.cost_empty]
    have hlen' : args.length = params.length := by rw [hlen, hparams, List.length_map]
    have hsite' := hready.siteOk.expansion hR ⟨sym, hsym, hname, hmeaning⟩ hnew
      (hinputs.trans hlen') hbuffers (l₁.count site.path f.name)
    have htraced : Traced calls R (some f.name) body := by
      rw [hfname]
      exact hbodies callee body ⟨f, _, params, hcalls, hdef⟩
    have hready' : Ready calls R n (bodyScope params) _ body :=
      ⟨hbody, hsite', .cons hready.stack hcall, htraced⟩
    -- the body starts with nothing known, so all of it is paid for
    refine .exec_bind (exec_number _ _ _) rfl rfl ?_
    exact inOwnMemo_charges (ih hready' (hsite'.budget_expansion hR.size hd body)
      (fun j b hj => by simp at hj) R.closed_empty)

theorem lowerNode_charges (hR : NormalPatch R n) (hbodies : TracedBodies calls R)
    (ih : ChargesNodes calls R bank n depth) (hready : Ready calls R n scope site i)
    (hd : budget R n site i ≤ depth + 1) (hl : MemoOk l) (hclosed : R.Closed l.known) :
    ChargesNode calls R i (lowerNode R bank depth site i) l := by
  have hsite := hready.siteOk
  unfold lowerNode
  cases hready.normal with
  | @literal _ node hnode hlit =>
    rw [Arena.kind_eq hnode]
    obtain ⟨kind, s⟩ := node
    have hkind := Arena.kind_eq hnode
    cases kind with
    | number v =>
      refine .leaf (by rw [Resolved.signals, hkind]) ?_
      rw [R.weight_value (by rw [Resolved.body?, hkind]), Resolved.ownWeight, hkind]
      exact emitConst_charges v _ l
    | bool v =>
      refine .leaf (by rw [Resolved.signals, hkind]) ?_
      rw [R.weight_value (by rw [Resolved.body?, hkind]), Resolved.ownWeight, hkind]
      exact emitConst_charges _ _ l
    | text t => exact .fail (fun l' hf => .unusable _ hf (by simp) (by simp [Issue.isUnusable])) _
    | _ => cases hlit
  | ident hnode hlook hvalue =>
    have hkind := Arena.kind_eq hnode
    rw [hkind]
    obtain ⟨symbol, hlook', hvalue', hbuffer⟩ := hsite.value hR hlook hvalue
    refine .leaf (by rw [Resolved.signals, hkind]) ?_
    rw [R.weight_value (by rw [Resolved.body?, hkind]), Resolved.ownWeight, hkind]
    unfold lowerIdent
    simp only [hlook', hvalue', bne_iff_ne, ne_eq, hbuffer, not_false_eq_true, Bool.and_eq_true,
      and_self, ↓reduceIte]
    exact .pure' rfl
  | @binary _ lhs rhs op s hnode =>
    have hkind := Arena.kind_eq hnode
    have hsignals := R.signals_binary hkind
    obtain ⟨hsl, hsr⟩ := R.signal_binary hkind
    obtain ⟨hlhs, hli⟩ := hready.signal hsl
    obtain ⟨hrhs, hri⟩ := hready.signal hsr
    rw [ChargesNode, R.weight_value (by rw [Resolved.body?, hkind]), Resolved.ownWeight, hsignals,
      R.cost_cons, hkind, add_assoc]
    refine (ih hlhs (budget_child hd hli) hl hclosed).bind
      (lower_safe hR bank depth hlhs.normal hsite (budget_child hd hli) hl) ?_
    -- the second operand is charged only for what the first has not made known
    rintro a l₁ ⟨-, hl₁, -⟩ hknown₁
    rw [← hknown₁]
    refine (ih hrhs (budget_child hd hri) hl₁ (hknown₁ ▸ hclosed.union _)).bind
      (lower_safe hR bank depth hrhs.normal hsite (budget_child hd hri) hl₁) ?_
    rintro b l₂ - hknown₂
    refine (emit_charges _ _ _ _ _).mono fun c l₃ hmemo => ?_
    rw [Lowered.known_of_eq hmemo, hknown₂, hknown₁, Finset.union_assoc, ← R.below_cons]
  | @call _ callee m params args s hnode hm hsig hlen _ hchecked =>
    rw [Arena.kind_eq hnode, Arena.span_eq hnode]
    dsimp only
    have hm' : (site.symbols.lookup callee).map Symbol.meaning = some m :=
      (hsite.meaning _).trans hm
    rw [hm']
    cases m with
    | builtin f =>
      cases hsig
      exact lowerBuiltin_charges hR ih hready hd hnode (hsite.calls hm' rfl)
        (hsite.builtin hR hm') hlen hchecked hl hclosed
    | function f =>
      cases hsig
      exact lowerExpansion_charges hR hbodies ih hready hd hnode hm' hlen hl hclosed
    | _ => cases hsig

/-- On a normal patch, a node within its budget adds the instructions that are left of its signals,
or an error tells why not. -/
theorem lower_charges (hR : NormalPatch R n) (hbodies : TracedBodies calls R)
    (bank : SampleRegistry) (depth : Nat) : ChargesNodes calls R bank n depth := by
  induction depth with
  | zero =>
    intro scope site i l _ hd
    simp [budget] at hd
  | succ depth ih =>
    intro scope site i l hready hd hl hclosed
    rw [lower_succ]
    refine .exec_bind (exec_get l) rfl rfl ?_
    cases hmemo : l.memo.lookup i with
    | some b =>
      have hi : i ∈ l.known := by
        by_contra hnew
        rw [Lowered.lookup_eq_none_iff.mpr hnew] at hmemo
        cases hmemo
      have hsub := hclosed i hi
      rw [R.cost_known hsub, Finset.union_eq_left.mpr hsub]
      exact .pure' rfl
    | none =>
      have hlt := hready.lt_size
      rw [R.cost_node hlt (Lowered.lookup_eq_none_iff.mp hmemo) hready.acyclic, R.below_node hlt,
        Finset.union_insert]
      exact (lowerNode_charges hR hbodies ih hready hd hl hclosed).remember
        (lowerNode_safe hR (lower_safe hR bank depth) hready.normal hready.siteOk hd hl) i

theorem run_lowerStatement_failed (hkind : R.patch.nodes.kind i = .assign x value)
    (hrun : exec (lower R bank depth ⟨t, ["main", x], []⟩ value) l = (none, l₁)) :
    (lowerStatement R bank depth t i).run l = (t, l₁) := by
  unfold lowerStatement
  rw [hkind]
  dsimp only
  rw [StateT.run_bind]
  unfold exec at hrun
  rw [hrun]
  rfl

end Lowering

/-! ## Statements -/

theorem Halts.fails (h : Halts calls cost l l') : Fails l l' := by
  cases h with
  | full span hf => exact ⟨_, hf, by simp, by simp [Issue.isLowering]⟩
  | recursive f span hf => exact ⟨_, hf, by simp, by simp [Issue.isLowering]⟩
  | unusable fs hf hne hall =>
    refine ⟨fs, hf, hne, fun f hmem => ?_⟩
    have := hall f hmem
    cases hissue : f.issue <;> simp_all [Issue.isUnusable, Issue.isLowering]

def StatementsCharge (calls : Option String → String → Prop) (R : Resolved) (bank : SampleRegistry)
    (symbols : SymbolTable) (l : Lowered) (ids : List NodeId) : Prop :=
  let l' := ((lowerStatements R bank R.depth symbols ids).run l).2
  let cost := R.cost l.known (R.roots ids)
  l'.findings = [] ∧ (l'.instructions.length : ℕ∞) = l.instructions.length + cost ∨
    Halts calls cost l l'

theorem StatementsCharge.visit (hR : NormalPatch R n) (hbodies : TracedBodies calls R)
    (next : Option Buffer → SymbolTable) (hready : Ready calls R n scope ⟨symbols, path, []⟩ j)
    (hroots : R.roots (i :: is) = j :: R.roots is) (hl : MemoOk l) (hclosed : R.Closed l.known)
    (hfindings : l.findings = [])
    (hrun : ∀ {o l₁}, exec (lower R bank R.depth ⟨symbols, path, []⟩ j) l = (o, l₁) →
      (lowerStatement R bank R.depth symbols i).run l = (next o, l₁))
    (hrest : ∀ {b l₁}, b ≠ .unused → MemoOk l₁ → R.Closed l₁.known → l₁.findings = [] →
      StatementsCharge calls R bank (next (some b)) l₁ is) :
    StatementsCharge calls R bank symbols l (i :: is) := by
  have hv := VisitOk.root hR hready.normal hready.siteOk hl hfindings
  have hcharges := lower_charges hR hbodies bank R.depth hready hv.depth hl hclosed
  have hsafe := hv.safe hR bank
  unfold Charges at hcharges
  unfold Safe at hsafe
  unfold StatementsCharge
  dsimp only at hsafe ⊢
  rw [hroots, R.cost_cons]
  cases hexec : exec (lower R bank R.depth ⟨symbols, path, []⟩ j) l with
  | mk o l₁ =>
    rw [hexec] at hcharges hsafe
    cases o with
    | none =>
      -- After an error no further statement is visited.
      rw [lowerStatements_cons (hrun hexec), hcharges.fails.hasErrors]
      exact .inr (hcharges.first _)
    | some b =>
      obtain ⟨hf, hlen, hknown⟩ := hcharges
      obtain ⟨-, hb, hl₁, -⟩ := hsafe
      have hf₁ := hf.trans hfindings
      have hrest := hrest hb hl₁ (hknown ▸ hclosed.union _) hf₁
      rw [run_lowerStatements_cons (hrun hexec) hf₁, ← hknown]
      rcases hrest with ⟨hf', hlen'⟩ | hstops
      · exact .inl ⟨hf', by rw [hlen', hlen, add_assoc]⟩
      · exact .inr (hstops.later hf hlen)

theorem lowerStatements_charge (hR : NormalPatch R n) (hbodies : TracedBodies calls R)
    (h : StatementsNormal R n vars ids) :
    ∀ {symbols l}, SiteOk R vars ⟨symbols, [], []⟩ → MemoOk l → R.Closed l.known → l.findings = [] →
      (∀ j ∈ R.roots ids, Traced calls R none j) → StatementsCharge calls R bank symbols l ids := by
  induction h with
  | nil =>
    intro symbols l _ _ _ hl _
    refine .inl ⟨hl, ?_⟩
    rw [Resolved.roots, List.filterMap_nil, R.cost_nil, add_zero]
    rfl
  | @define i vars is name params body span hnode _ ih =>
    intro symbols l hsite hmemo hclosed hl htraced
    -- A definition is no root: its body is paid for where it is called.
    have hroots := R.roots_define (Arena.kind_eq hnode) is
    unfold StatementsCharge
    rw [run_lowerStatements_cons
      (run_lowerStatement_define (Arena.kind_eq hnode) bank R.depth symbols l) hl, hroots]
    exact ih hsite hmemo hclosed hl (hroots ▸ htraced)
  | @assign i vars v x span is hnode hv hfree _ ih =>
    intro symbols l hsite hmemo hclosed hl htraced
    have hroots := R.roots_assign (Arena.kind_eq hnode) is
    rw [hroots] at htraced
    obtain ⟨htraced, hrest⟩ := List.forall_mem_cons.mp htraced
    refine .visit hR hbodies (fun o => o.elim symbols fun b => symbols.define (.ofVariable x b))
      ⟨hv, hsite.atPath ["main", x], .nil, htraced⟩ hroots hmemo hclosed hl ?_ ?_
    · rintro (_ | b) l₁ hexec
      · exact run_lowerStatement_failed (Arena.kind_eq hnode) hexec
      · exact run_lowerStatement_assign (Arena.kind_eq hnode) hexec
    · exact fun hb hl₁ hclosed₁ hf₁ => ih (hsite.assign hfree hb _) hl₁ hclosed₁ hf₁ hrest
  | @expr vars i is hv _ ih =>
    intro symbols l hsite hmemo hclosed hl htraced
    obtain ⟨node, hnode, hkind⟩ := hv.root
    rw [← Arena.kind_eq hnode] at hkind
    have hroots := R.roots_expr hkind is
    rw [hroots] at htraced
    obtain ⟨htraced, hrest⟩ := List.forall_mem_cons.mp htraced
    refine .visit hR hbodies (fun _ => symbols)
      ⟨hv, hsite.atPath ["main"], .nil, htraced⟩ hroots hmemo
      hclosed hl (fun hexec => run_lowerStatement_expr hkind hexec) ?_
    exact fun _ hl₁ hclosed₁ hf₁ => ih hsite hl₁ hclosed₁ hf₁ hrest

theorem NormalPatch.walked_charge (hR : NormalPatch R n) (hcalls : CallsAs R ss)
    (bank : SampleRegistry) :
    (R.walked bank).findings = [] ∧ ((R.walked bank).instructions.length : ℕ∞) = R.need ∨
      Halts (callGraph ss) R.need {} (R.walked bank) := by
  have hbodies : TracedBodies (callGraph ss) R :=
    fun f body hbody g hg => (hcalls.functions hbody).mpr hg
  have hroots : ∀ j ∈ R.roots R.patch.statements, Traced (callGraph ss) R none j :=
    fun j hj g hg => hcalls.statements.mpr ⟨j, hj, hg⟩
  have hstart : StatementsCharge (callGraph ss) R bank R.symbols.push {} R.patch.statements :=
    lowerStatements_charge hR hbodies hR.statements hR.siteOk
      (fun i b hb => by simp at hb) R.closed_empty rfl hroots
  unfold StatementsCharge at hstart
  rw [show ({} : Lowered).known = ∅ from rfl, R.cost_empty] at hstart
  simpa [Resolved.need, Resolved.walked] using hstart

theorem parse_resolve_charge (tokens : List Token) (h : (parse tokens).patch.resolve.success)
    (bank : SampleRegistry) :
    let R := (parse tokens).patch.resolve
    (R.walked bank).findings = [] ∧ ((R.walked bank).instructions.length : ℕ∞) = R.need ∨
      Halts (callGraph (Grammar.statements tokens)) R.need {} (R.walked bank) :=
  (parse_resolve_normal tokens h).walked_charge (parse_resolve_callsAs tokens h) bank

/-- What becomes of a patch whose samples and texts can all be used and none of whose functions is
recursive: it is lowered if its instructions fit, and else there is one error. -/
structure Resolved.Accounted (R : Resolved) (bank : SampleRegistry) : Prop where
  success : (R.lower bank).success ↔ R.need ≤ 256
  instructions : (R.lower bank).success → ((R.lower bank).instructions.length : ℕ∞) = R.need
  failure : (R.lower bank).success = false → ∃ f, (R.lower bank).findings = [f] ∧
    f.issue.code = "E201"

theorem Issue.code_of_isUnusable {issue : Issue} (h : issue.isUnusable) :
    issue.code = "E202" ∨ issue.code = "E204" := by
  cases issue <;> simp_all [isUnusable, code]

theorem NormalPatch.accounted_of_fits (hR : NormalPatch R n) (hf : (R.walked bank).findings = [])
    (hlen : ((R.walked bank).instructions.length : ℕ∞) = R.need) : R.Accounted bank := by
  have hsuccess : (R.lower bank).success = true := by
    change (!Lowering.hasErrors (R.walked bank)) = true
    rw [Lowering.hasErrors, hf]
    rfl
  have hinstructions : (R.lower bank).instructions = (R.walked bank).instructions := if_pos hsuccess
  have hlimit : R.need ≤ 256 := by
    rw [← hlen]
    exact_mod_cast (hR.assigned hsuccess).limit
  refine ⟨iff_of_true hsuccess hlimit, fun _ => hinstructions ▸ hlen, fun hfailed => ?_⟩
  rw [hsuccess] at hfailed
  cases hfailed

theorem Halts.failed {R : Resolved} (h : Halts calls cost l (R.walked bank)) :
    (R.lower bank).success = false := by
  have herrors : Lowering.hasErrors (R.walked bank) = true := h.fails.hasErrors
  change (!Lowering.hasErrors (R.walked bank)) = false
  rw [herrors]
  rfl

theorem Halts.accounted {R : Resolved} (h : Halts calls R.need {} (R.walked bank))
    (hcodes : ∀ f ∈ (R.lower bank).findings, f.issue.code ≠ "E202" ∧ f.issue.code ≠ "E203" ∧
      f.issue.code ≠ "E204") :
    R.Accounted bank := by
  have hcodes : ∀ f ∈ (R.walked bank).findings,
    f.issue.code ≠ "E202" ∧ f.issue.code ≠ "E203" ∧ f.issue.code ≠ "E204" := hcodes
  have hfailed := h.failed
  cases h with
  | full span hf hneed =>
    have hneed : 256 < R.need := by simpa [bufferLimit] using hneed
    refine ⟨?_, ?_, fun _ => ⟨_, hf, rfl⟩⟩
    · simp [hfailed, hneed]
    · simp [hfailed]
  | recursive f span hf _ =>
    exact absurd rfl (hcodes ⟨.recursiveFunction f, span⟩ (by simp [hf])).2.1
  | unusable fs hf hne hall =>
    obtain ⟨f, hmem⟩ := List.exists_mem_of_ne_nil fs hne
    obtain ⟨hsample, -, htext⟩ := hcodes f (by simpa [hf] using hmem)
    rcases Issue.code_of_isUnusable (hall f hmem) with hcode | hcode
    · exact absurd hcode hsample
    · exact absurd hcode htext

/-- Lowering makes exactly the instructions that are needed, or there are too many. They are too
many in any case if a function is recursive. -/
theorem lower_accounted (tokens : List Token) (h : (parse tokens).patch.resolve.success)
    (bank : SampleRegistry)
    (hcodes : ∀ f ∈ ((parse tokens).patch.resolve.lower bank).findings, f.issue.code ≠ "E202" ∧
      f.issue.code ≠ "E203" ∧ f.issue.code ≠ "E204") :
    (parse tokens).patch.resolve.Accounted bank ∧ ((parse tokens).patch.resolve.need = ⊤ ↔
      ∃ f, Recursive (callGraph (Grammar.statements tokens)) f) := by
  refine ⟨?_, (parse_resolve_callsAs tokens h).need_eq_top_iff⟩
  rcases parse_resolve_charge tokens h bank with ⟨hf, hlen⟩ | hstops
  · exact (parse_resolve_normal tokens h).accounted_of_fits hf hlen
  · exact hstops.accounted hcodes

/-- The tokens of `fn twice(x) -> x + x` and of `saw(110) |> lp(twice(twice(%)) + %, 200)` on the
next line. -/
def doubledSaw : List Token :=
  ([.keywordFn, .ident "twice", .openParen, .ident "x", .closeParen, .arrow,
    .ident "x", .plus, .ident "x",
    .newline, .ident "saw", .openParen, .number 110, .closeParen, .pipe, .ident "lp", .openParen,
    .ident "twice", .openParen, .ident "twice", .openParen, .hole, .closeParen,
    .closeParen, .plus, .hole,
    .comma, .number 200, .closeParen] : List TokenKind).map (⟨·, .origin⟩)

theorem resolve_doubledSaw : (parse doubledSaw).patch.resolve.success := by
  decide +kernel

theorem lower_doubledSaw : ((parse doubledSaw).patch.resolve.lower .drums).success ∧
    ((parse doubledSaw).patch.resolve.lower .drums).instructions.length = 8 := by
  decide +kernel

/-- Three numbers, the saw, the filter and three additions, two of them of the function. -/
theorem doubledSaw_accounted : (parse doubledSaw).patch.resolve.success ∧
    (parse doubledSaw).patch.resolve.Accounted .drums ∧
      (parse doubledSaw).patch.resolve.need = 8 := by
  obtain ⟨hsuccess, hlength⟩ := lower_doubledSaw
  have hfindings := (parse_resolve_normal _ resolve_doubledSaw).findings_eq_nil hsuccess
  have haccounted := (lower_accounted doubledSaw resolve_doubledSaw .drums (by simp [hfindings])).1
  refine ⟨resolve_doubledSaw, haccounted, ?_⟩
  rw [← haccounted.instructions hsuccess, hlength]
  rfl

end SignalPatch
