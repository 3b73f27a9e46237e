import SignalPatch.Proofs.Denotation

/-!
# What the nodes of a resolved patch mean

`Means` gives each node of a resolved patch its value, in an environment and with a bound on the
nesting of calls. The code that lowering makes for a node unfolds to what the node means
(`Lowers.means`). What makes this work across shared nodes and expansions is that every buffer is
judged by the finished code: code that is added later does not change it, so neither remembered
buffers nor those of arguments go stale.
-/

namespace SignalPatch

open Lowering

def Resolved.Calls (R : Resolved) (callee : String) (m : Meaning) : Prop :=
  (R.symbols.globals.named? callee).map Symbol.meaning = some m

theorem Resolved.Calls.of_lookup {R : Resolved} (hvalues : ∀ s ∈ scope, s.isValue)
    (hm : ((SymbolTable.above R.symbols.globals scope).lookup callee).map Symbol.meaning = some m)
    (hsig : m.signature? = some params) : R.Calls callee m := by
  rw [SymbolTable.lookup_above] at hm
  cases hs : scope.named? callee with
  | none => rwa [hs] at hm
  | some s =>
    rw [hs] at hm
    have hvalue := hvalues s (Scope.named?_eq_some hs).1
    obtain rfl : s.meaning = m := by simpa using hm
    unfold Symbol.isValue at hvalue
    cases hmeaning : s.meaning <;> simp [hmeaning, Meaning.signature?] at hvalue hsig

mutual

/-- `Means R depth env i v`: the node `i` has the value `v`, if names stand for what `env` says and
calls of functions are nested at most `depth` deep. -/
inductive Means (R : Resolved) : Nat → Env → NodeId → Value → Prop
  | number : R.patch.nodes[i]? = some ⟨.number v, s⟩ → Means R depth env i (.const v)
  | bool : R.patch.nodes[i]? = some ⟨.bool v, s⟩ → Means R depth env i (.const (if v then 1 else 0))
  | text : R.patch.nodes[i]? = some ⟨.text t, s⟩ → Means R depth env i (.text t)
  | ident : R.patch.nodes[i]? = some ⟨.ident x, s⟩ → env x = some v → Means R depth env i v
  | binary : R.patch.nodes[i]? = some ⟨.binary op lhs rhs, s⟩ → Means R depth env lhs (.signal a) →
      Means R depth env rhs (.signal b) → Means R depth env i (.signal (.op op.opcode [a, b]))
  | op : R.patch.nodes[i]? = some ⟨.call callee args, s⟩ → R.Calls callee (.builtin f) →
      f.kind = .op opcode → MeansArgs R depth env args ts →
      Means R depth env i (.signal (.op opcode ts))
  | pattern : R.patch.nodes[i]? = some ⟨.call callee (text :: rest), s⟩ →
      R.Calls callee (.builtin f) → f.kind = .pattern →
      R.patch.nodes[text.value]? = some ⟨.text t, s'⟩ → Pattern.parse t s' = .ok p →
      Means R depth env i (.signal p.term)
  | control : R.patch.nodes[i]? = some ⟨.call callee (text :: rest), s⟩ →
      R.Calls callee (.builtin f) → f.kind = .control kind →
      R.patch.nodes[text.value]? = some ⟨.text name, s'⟩ →
      R.hostParams.find? (·.name == name) = some param →
      Means R depth env i (.signal (.hostParam param.hash (.const (Decimal.narrow param.default))))
  | expand : R.patch.nodes[i]? = some ⟨.call callee args, s⟩ → R.Calls callee (.function f) →
      MeansArgs R (depth + 1) env args ts →
      R.patch.nodes[f.definition]? = some ⟨.define f.name params body, s'⟩ →
      Means R depth (.ofParameters params ts) body (.signal t) →
        Means R (depth + 1) env i (.signal t)

inductive MeansArgs (R : Resolved) : Nat → Env → List (Arg NodeId) → List Term → Prop
  | nil : MeansArgs R depth env [] []
  | cons : Means R depth env x.value (.signal t) → MeansArgs R depth env xs ts →
      MeansArgs R depth env (x :: xs) (t :: ts)

end

mutual

theorem Means.mono {env env' : Env} (henv : ∀ x v, env x = some v → env' x = some v) :
    Means R depth env i v → Means R depth env' i v
  | .number h => .number h
  | .bool h => .bool h
  | .text h => .text h
  | .ident h hx => .ident h (henv _ _ hx)
  | .binary h hl hr => .binary h (hl.mono henv) (hr.mono henv)
  | .op h hm hk hargs => .op h hm hk (hargs.mono henv)
  | .pattern h hm hk ht hp => .pattern h hm hk ht hp
  | .control h hm hk ht hp => .control h hm hk ht hp
  | .expand h hm hargs hdef hbody => .expand h hm (hargs.mono henv) hdef hbody

theorem MeansArgs.mono {env env' : Env} (henv : ∀ x v, env x = some v → env' x = some v) :
    MeansArgs R depth env args ts → MeansArgs R depth env' args ts
  | .nil => .nil
  | .cons h hs => .cons (h.mono henv) (hs.mono henv)

end

/-! ## Finished code -/

/-- Code that nothing is added to any more, and whose sequences can be numbered. -/
structure Finished (F : Lowered) : Prop where
  assigned : Assigned F
  paced : F.sequences.length ≤ F.instructions.length

def Lowered.value (F : Lowered) (b : Buffer) : Option Term :=
  dataflow F.sequences F.instructions b

theorem Finished.ne_unused (hF : Finished F) (hb : F.value b = some t) : b ≠ .unused :=
  ne_unused_of_lt (hF.assigned.single.lt_length hb) hF.assigned.limit

theorem Finished.buffers (hF : Finished F) {inputs : List Buffer} {ts : List Term}
    (h : inputs.map F.value = ts.map some) : ∀ c ∈ inputs, c ≠ .unused := by
  intro c hc
  obtain ⟨t, -, ht⟩ := List.mem_map.mp (h ▸ List.mem_map_of_mem hc)
  exact hF.ne_unused ht.symm

theorem mapM_eq_some {f : α → Option β} {xs : List α} {ys : List β} (h : xs.map f = ys.map some) :
    xs.mapM f = some ys := by
  induction xs generalizing ys with
  | nil =>
    cases ys with
    | nil => rfl
    | cons y ys => simp at h
  | cons x xs ih =>
    cases ys with
    | nil => simp at h
    | cons y ys =>
      simp only [List.map_cons, List.cons.injEq] at h
      simp [h.1, ih h.2]

def Opcode.isLeaf : Opcode → Bool
  | .pushConst | .seqStep | .envGet => true
  | _ => false

theorem Instruction.term_op {ins : Instruction} (h : ins.opcode.isLeaf = false)
    (sequences : List SequenceInit) (value : Buffer → Option Term) :
    ins.term sequences value = (ins.inputs.used.mapM value).map (.op ins.opcode) := by
  unfold term
  split <;> simp_all [Opcode.isLeaf]

namespace Lowered.Appends

theorem value (h : Appends l make b l') (hF : Finished F) (hl : l'.Grows F)
    (hout : (make b).out = b) : F.value b = (make b).term F.sequences F.value := by
  have hk : F.instructions[l.instructions.length]? = some (make b) := by
    obtain ⟨rest, hrest⟩ := hl.instructions
    rw [← hrest, h.next]
    simp
  have heq := hF.assigned.single.dataflow_eq F.sequences hk
  rwa [hout] at heq

theorem value_const (h : Appends l (Instruction.constant · bits) b l') (hF : Finished F)
    (hl : l'.Grows F) : F.value b = some (.const bits) := by
  rw [h.value hF hl rfl]
  rfl

theorem value_op {word : UInt32} (h : Appends l (instruction opcode inputs word) b l')
    (hF : Finished F) (hl : l'.Grows F) (hop : opcode.isLeaf = false)
    (hlen : inputs.length = opcode.operandCount) (hinputs : inputs.map F.value = ts.map some) :
    F.value b = some (.op opcode ts) := by
  have hused := (Operands.ofList_slots (hlen ▸ opcode.operandCount_le) (hF.buffers hinputs)).1
  rw [h.value hF hl rfl, Instruction.term_op hop]
  simp only [instruction, hused, mapM_eq_some hinputs, Option.map_some]

theorem value_envGet {word : UInt32} (h : Appends l (instruction .envGet [c] word) b l')
    (hF : Finished F) (hl : l'.Grows F) (hc : F.value c = some t) :
    F.value b = some (.hostParam word t) := by
  have hused : (Operands.ofList [c]).used = [c] :=
    (Operands.ofList_slots (by simp) (by simpa using hF.ne_unused hc)).1
  rw [h.value hF hl rfl]
  simp [Instruction.term, instruction, hused, hc]

theorem value_seqStep {k : Nat} (h : Appends l (instruction .seqStep [] k.toUInt32) b l')
    (hF : Finished F) (hl : l'.Grows F) (hk : F.sequences[k]? = some init) :
    F.value b = some (.pattern init.track) := by
  have hlt := (List.getElem?_eq_some_iff.mp hk).1
  have hpaced := hF.paced
  have hlimit := hF.assigned.limit
  have hword : k.toUInt32.toNat = k := by
    unfold bufferLimit at hlimit
    rw [Nat.toUInt32, UInt32.toNat_ofNat']
    omega
  rw [h.value hF hl rfl]
  simp [Instruction.term, instruction, hword, hk]

end Lowered.Appends

theorem soundNumbers_values {sounds : List Pattern.Sound} (h : ∀ s ∈ sounds, s.isSample = false)
    (samples : List String) : (soundNumbers samples sounds).1 = sounds.filterMap (·.value?) := by
  induction sounds generalizing samples with
  | nil => rfl
  | cons sound sounds ih =>
    have hrest := fun samples => ih (fun s hs => h s (List.mem_cons_of_mem _ hs)) samples
    cases sound with
    | number v => simp [soundNumbers, soundNumber, Pattern.Sound.value?, hrest]
    | pitch note => simp [soundNumbers, soundNumber, Pattern.Sound.value?, hrest]
    | sample name => simpa [Pattern.Sound.isSample] using h (.sample name) (by simp)

theorem initOf_track (id : UInt32) (p : Pattern) (span : Span) (samples : List String) :
    (initOf id p span samples).track = p.track := by
  unfold SequenceInit.track Pattern.track initOf
  cases hp : p.isSample with
  | true => rfl
  | false =>
    have hnone : ∀ s ∈ p.events.map Event.sound, s.isSample = false := by
      intro s hs
      obtain ⟨e, he, rfl⟩ := List.mem_map.mp hs
      simpa using List.any_eq_false.mp hp e he
    simp only [Bool.false_eq_true, ↓reduceIte, soundNumbers_values hnone, List.filterMap_map]
    rfl

theorem Lowering.PatternLowered.value (h : PatternLowered path p span l b l') (hF : Finished F)
    (hl : l'.Grows F) : F.value b = some p.term := by
  -- the step that plays the new sequence, in either case
  have hstep : ∀ {step l₁}, (l.withSequence path p span).Appends
      (instruction .seqStep [] l.sequences.length.toUInt32) step l₁ → l₁.Grows F →
      F.value step = some (.pattern p.track) := by
    intro step l₁ happ hl₁
    have hinit : F.sequences[l.sequences.length]? =
        some (initOf (l.identity path "pat") p span l.samples) := by
      obtain ⟨rest, hrest⟩ := hl₁.sequences
      rw [← hrest, happ.next]
      simp [Lowered.withSequence]
    rw [happ.value_seqStep hF hl₁ hinit, initOf_track]
  unfold Pattern.term
  cases h with
  | values hp happ =>
    rw [if_neg (by simp [hp])]
    exact hstep happ hl
  | samples hp happ hpitch hplay =>
    rw [if_pos hp]
    have hl₂ := hplay.grows.trans hl
    have hl₁ := hpitch.grows.trans hl₂
    refine hplay.value_op hF hl rfl rfl ?_
    simp [hstep happ hl₁, hpitch.value_const hF hl₂]

theorem Lowering.HostParamLowered.value (h : HostParamLowered param l b l') (hF : Finished F)
    (hl : l'.Grows F) :
    F.value b = some (.hostParam param.hash (.const (Decimal.narrow param.default))) := by
  cases h with
  | intro hfallback hget =>
    exact hget.value_envGet hF hl (hfallback.value_const hF (hget.grows.trans hl))

/-! ## The walk -/

theorem binaryOpcode_eq (op : BinaryOp) : binaryOpcode op = op.opcode := by
  cases op <;> rfl

theorem binaryOpcode_isLeaf (op : BinaryOp) : (binaryOpcode op).isLeaf = false := by
  cases op <;> rfl

theorem Builtin.isLeaf_eq (hf : f ∈ Builtin.table) (hk : f.kind = .op opcode) :
    opcode.isLeaf = false := by
  have h : ∀ f ∈ Builtin.table, (match f.kind with
      | .op o => !o.isLeaf
      | _ => true) = true := by decide
  simpa [hk] using h f hf

theorem SiteOk.calls (h : SiteOk R scope site)
    (hm : (site.symbols.lookup callee).map Symbol.meaning = some m)
    (hsig : m.signature? = some params) : R.Calls callee m :=
  .of_lookup h.values ((h.meaning callee).symm.trans hm) hsig

/-- The values that a site sees are in buffers with the terms that the environment gives. -/
def SiteMeans (F : Lowered) (env : Env) (site : Site) : Prop :=
  ∀ x symbol, site.symbols.lookup x = some symbol → symbol.isValue →
    ∃ t, env x = some (.signal t) ∧ F.value symbol.buffer = some t

/-- The nodes lowered so far are in buffers with their terms. -/
def MemoMeans (R : Resolved) (F : Lowered) (depth : Nat) (env : Env) (l : Lowered) : Prop :=
  ∀ i b, l.memo.lookup i = some b → ∃ t, Means R depth env i (.signal t) ∧ F.value b = some t

theorem MemoMeans.of_eq (h : MemoMeans R F depth env l) (heq : l'.memo = l.memo) :
    MemoMeans R F depth env l' := by
  unfold MemoMeans
  rwa [heq]

theorem MemoMeans.cons (h : MemoMeans R F depth env l) (hi : Means R depth env i (.signal t))
    (hb : F.value b = some t) : MemoMeans R F depth env { l with memo := (i, b) :: l.memo } := by
  intro j c hj
  rw [List.lookup_cons] at hj
  split at hj
  · rename_i heq
    cases hj
    obtain rfl : j = i := by simpa using heq
    exact ⟨t, hi, hb⟩
  · exact h j c hj

theorem zip_lookup {names : List String} {xs : List α} {ys : List β} (hnodup : names.Nodup)
    (hlen : ys.length = xs.length) (h : (x, a) ∈ names.zip xs) :
    ∃ b, (names.zip ys).lookup x = some b ∧ (a, b) ∈ xs.zip ys := by
  induction names generalizing xs ys with
  | nil => simp at h
  | cons name names ih =>
    obtain ⟨hname, hnodup⟩ := List.nodup_cons.mp hnodup
    cases xs with
    | nil => simp at h
    | cons a' xs =>
      cases ys with
      | nil => simp at hlen
      | cons b' ys =>
        simp only [List.zip_cons_cons, List.mem_cons, Prod.mk.injEq] at h
        rcases h with ⟨rfl, rfl⟩ | h
        · exact ⟨b', by simp, by simp⟩
        · have hne : x ≠ name := by
            rintro rfl
            exact hname (List.of_mem_zip h).1
          obtain ⟨b, hb, hmem⟩ := ih hnodup (by simpa using hlen) h
          refine ⟨b, ?_, by simp [hmem]⟩
          rw [List.zip_cons_cons, List.lookup_cons, beq_false_of_ne hne]
          exact hb

theorem SiteMeans.expansion (hR : NormalPatch R n) (site : Site) (name : String) (k : Nat)
    (hnodup : (params.map Parameter.name).Nodup) (hinputs : inputs.map F.value = ts.map some) :
    SiteMeans F (.ofParameters params ts) (site.expansion R.symbols name k params inputs) := by
  intro x symbol hlook hvalue
  rw [hR.expansion_symbols] at hlook
  obtain ⟨rfl, hs⟩ := hR.mem_scope hlook hvalue
  obtain ⟨p, b, hmem, rfl⟩ := mem_argumentScope hs
  have hlen : ts.length = inputs.length := by
    simpa using (congrArg List.length hinputs).symm
  have hmem' : (p.name, b) ∈ (params.map Parameter.name).zip inputs := by
    rw [List.zip_map_left]
    exact List.mem_map_of_mem (f := Prod.map Parameter.name id) hmem
  obtain ⟨t, ht, hzip⟩ := zip_lookup hnodup hlen hmem'
  refine ⟨t, ?_, ?_⟩
  · change (((params.map Parameter.name).zip ts).lookup p.name).map Value.signal = _
    rw [ht]
    rfl
  · obtain ⟨j, hj⟩ := List.mem_iff_getElem?.mp hzip
    obtain ⟨hb, ht⟩ := List.getElem?_zip_eq_some.mp hj
    have hj' := congrArg (·[j]?) hinputs
    simp only [List.getElem?_map, hb, ht, Option.map_some, Option.some.injEq] at hj'
    exact hj'

mutual

/-- The code of a node unfolds to what the node means. -/
theorem Lowers.means (hR : NormalPatch R n) (hread : PatternsRead R.patch.nodes R.patterns)
    (hF : Finished F) : Lowers R bank site i l b l' → SiteOk R scope site →
    R.symbols.functionCount ≤ site.expanding.length + depth → l'.Grows F → SiteMeans F env site →
    MemoMeans R F depth env l →
    MemoMeans R F depth env l' ∧ ∃ t, Means R depth env i (.signal t) ∧ F.value b = some t
  | .memo hmemo, _, _, _, _, hl => ⟨hl, hl i b hmemo⟩
  | .fresh _ h, hsite, hdepth, hgrows, henv, hl => by
    obtain ⟨hl', t, ht, hb⟩ := h.means hR hread hF hsite hdepth (hgrows.of_eq rfl rfl) henv hl
    exact ⟨hl'.cons ht hb, t, ht, hb⟩

theorem Makes.means (hR : NormalPatch R n) (hread : PatternsRead R.patch.nodes R.patterns)
    (hF : Finished F) : Makes R bank site i l b l' → SiteOk R scope site →
    R.symbols.functionCount ≤ site.expanding.length + depth → l'.Grows F → SiteMeans F env site →
    MemoMeans R F depth env l →
    MemoMeans R F depth env l' ∧ ∃ t, Means R depth env i (.signal t) ∧ F.value b = some t
  | .number hnode h, _, _, hgrows, _, hl => by
    exact ⟨hl.of_eq h.memo_eq, _, .number hnode, h.value_const hF hgrows⟩
  | .bool hnode h, _, _, hgrows, _, hl => by
    exact ⟨hl.of_eq h.memo_eq, _, .bool hnode, h.value_const hF hgrows⟩
  | .ident hnode hlook hvalue _, _, _, _, henv, hl => by
    obtain ⟨t, ht, hb⟩ := henv _ _ hlook hvalue
    exact ⟨hl, t, .ident hnode ht, hb⟩
  | .binary hnode hlhs hrhs h, hsite, hdepth, hgrows, henv, hl => by
    have hgrows₂ := h.grows.trans hgrows
    obtain ⟨hl₁, a, ha, hla⟩ := hlhs.means hR hread hF hsite hdepth
      (hrhs.grows.trans hgrows₂) henv hl
    obtain ⟨hl₂, b, hb, hlb⟩ := hrhs.means hR hread hF hsite hdepth hgrows₂ henv hl₁
    refine ⟨hl₂.of_eq h.memo_eq, _, .binary hnode ha hb, ?_⟩
    rw [← binaryOpcode_eq]
    refine h.value_op hF hgrows (binaryOpcode_isLeaf _) (binaryOpcode_operandCount _).symm ?_
    simp [hla, hlb]
  | .op hnode hm hf hk hlen hargs h, hsite, hdepth, hgrows, henv, hl => by
    have hgrows₁ := ((Lowered.grows_issueFor _ _ _).trans h.grows).trans hgrows
    obtain ⟨hl₁, ts, hts, hinputs⟩ := hargs.means hR hread hF hsite hdepth hgrows₁ henv hl
    refine ⟨hl₁.of_eq (h.memo_eq.trans (Lowered.issueFor_memo _ _ _)), _,
      .op hnode (hsite.calls hm rfl) hk hts, ?_⟩
    refine h.value_op hF hgrows (Builtin.isLeaf_eq hf hk) ?_ hinputs
    rw [hargs.length_eq, hlen, Builtin.operandCount_eq hf hk]
  | .pattern hnode hm hk hp _ h, hsite, _, hgrows, _, hl => by
    obtain ⟨t, s', htext, hparse⟩ := hread _ _ hp
    exact ⟨hl.of_eq h.memo_eq, _, .pattern hnode (hsite.calls hm rfl) hk htext hparse,
      h.value hF hgrows⟩
  | .control hnode hm hk htext hparam h, hsite, _, hgrows, _, hl =>
    ⟨hl.of_eq h.memo_eq, _, .control hnode (hsite.calls hm rfl) hk htext hparam, h.value hF hgrows⟩
  | .expand hnode hm hnew hargs hdef hlen hbody, hsite, hdepth, hgrows, henv, hl => by
    have hgrows₁ := hbody.grows.trans (hgrows.of_eq rfl rfl)
    obtain ⟨hl₁, ts, hts, hinputs⟩ :=
      hargs.means hR hread hF hsite hdepth (hgrows₁.of_eq rfl rfl) henv hl
    obtain ⟨s, hs, hname, hmeaning, params', body', span, hdef', hparams, hnodup, -⟩ :=
      hsite.function hR hm
    cases hdef.symm.trans hdef'
    have hsite' := fun k => hsite.expansion hR ⟨s, hs, hname, hmeaning⟩ hnew
      (hargs.length_eq.trans hlen) (hF.buffers hinputs) k
    -- the function is not among those being expanded, so there is a level left for it
    obtain ⟨d, rfl⟩ : ∃ d, depth = d + 1 := by
      have := (hsite' 0).length_le
      simp only [Site.expansion, List.length_cons] at this
      exact ⟨depth - 1, by omega⟩
    have hdepth' : R.symbols.functionCount ≤ site.expanding.length + 1 + d := by omega
    obtain ⟨-, t, ht, hb⟩ := hbody.means hR hread hF (hsite' _) hdepth' (hgrows.of_eq rfl rfl)
      (.expansion hR site _ _ hnodup hinputs) (by simp [MemoMeans])
    exact ⟨hl₁.of_eq rfl, t, .expand hnode (hsite.calls hm rfl) hts hdef ht, hb⟩

theorem LowersArgs.means (hR : NormalPatch R n) (hread : PatternsRead R.patch.nodes R.patterns)
    (hF : Finished F) : LowersArgs R bank site args l bs l' → SiteOk R scope site →
    R.symbols.functionCount ≤ site.expanding.length + depth → l'.Grows F → SiteMeans F env site →
    MemoMeans R F depth env l →
    MemoMeans R F depth env l' ∧ ∃ ts, MeansArgs R depth env args ts ∧ bs.map F.value = ts.map some
  | .nil, _, _, _, _, hl => ⟨hl, [], .nil, rfl⟩
  | .cons h hs, hsite, hdepth, hgrows, henv, hl => by
    obtain ⟨hl₁, t, ht, hb⟩ := h.means hR hread hF hsite hdepth (hs.grows.trans hgrows) henv hl
    obtain ⟨hl₂, ts, hts, hbs⟩ := hs.means hR hread hF hsite hdepth hgrows henv hl₁
    exact ⟨hl₂, t :: ts, .cons ht hts, by rw [List.map_cons, hb, hbs, List.map_cons]⟩

end

end SignalPatch
