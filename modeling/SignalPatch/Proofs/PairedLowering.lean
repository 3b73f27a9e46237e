import SignalPatch.Proofs.PairedPatches
import SignalPatch.Proofs.SingleAssignment
import SignalPatch.Proofs.StateIdentity

/-!
# Lowering a program that is written in two ways

Whatever gets a buffer in one patch, its partner gets the same buffer in the other, from the same
code (`Lowers.paired`). What carries the proof is that partners have the same buffers at every point
of the walk (`Lowered.Like`), which rests on each node having one partner only. So if the first
patch is lowered successfully, so is the second, to the same code up to the places of patterns
(`PairedPatches.lower`).
-/

namespace SignalPatch

open Lowering

/-! ## Code -/

def Opcode.carriesIdentity (o : Opcode) : Bool := o.keepsState || o = .samplePlay

def Instruction.unnamed (ins : Instruction) : Instruction :=
  { ins with payload := if ins.opcode.carriesIdentity then 0 else ins.payload }

def SequenceInit.unnamed (s : SequenceInit) : SequenceInit :=
  { s with stateId := 0, span := .origin }

def SequenceInit.placeless (s : SequenceInit) : SequenceInit := { s with span := .origin }

/-- The instruction, but for the identity of its state unless names matter. -/
def Instruction.kept (named : Bool) (ins : Instruction) : Instruction :=
  if named then ins else ins.unnamed

/-- The sequence, but for its identity unless names matter, and for its place unless places do. -/
def SequenceInit.kept (named placed : Bool) (s : SequenceInit) : SequenceInit :=
  { s with stateId := if named then s.stateId else 0, span := if placed then s.span else .origin }

theorem kept_instruction {payload₁ payload₂ : UInt32} {named : Bool} (opcode : Opcode)
    (inputs : List Buffer) (b : Buffer)
    (h : (opcode.carriesIdentity → named) → payload₁ = payload₂) :
    (instruction opcode inputs payload₁ b).kept named =
      (instruction opcode inputs payload₂ b).kept named := by
  by_cases hseen : opcode.carriesIdentity → named
  · rw [h hseen]
  · obtain ⟨hcarries, hnamed⟩ := Classical.not_imp.mp hseen
    simp [Instruction.kept, Instruction.unnamed, instruction, hcarries, hnamed]

/-- The same code as far as names and places matter, where partners have the same buffers. -/
structure Lowered.Like (named placed : Bool) (C : Nat → Nat → Prop) (l₁ l₂ : Lowered) : Prop where
  instructions : l₁.instructions.map (Instruction.kept named) =
    l₂.instructions.map (Instruction.kept named)
  sequences : l₁.sequences.map (SequenceInit.kept named placed) =
    l₂.sequences.map (SequenceInit.kept named placed)
  samples : l₁.samples = l₂.samples
  issued : named → l₁.issued = l₂.issued
  memo : ∀ {x y}, C x y → l₁.memo.lookup x = l₂.memo.lookup y

namespace Lowered.Like

variable {named placed : Bool} {C : Nat → Nat → Prop} {path₁ path₂ : List String}

theorem start (named placed : Bool) (C : Nat → Nat → Prop) : Like named placed C {} {} :=
  ⟨rfl, rfl, rfl, fun _ => rfl, fun _ => rfl⟩

theorem count (h : Like named placed C l₁ l₂) (hnamed : named) (path : List String)
    (leaf : String) :
    l₁.count path leaf = l₂.count path leaf := by
  rw [Lowered.count, h.issued hnamed, Lowered.count]

theorem identity (h : Like named placed C l₁ l₂) (hnamed : named) (hpath : named → path₁ = path₂)
    (callee : String) :
    l₁.identity path₁ callee = l₂.identity path₂ callee := by
  rw [Lowered.identity, identityText, h.count hnamed, hpath hnamed, Lowered.identity, identityText]

theorem payload (h : Like named placed C l₁ l₂) (hpath : named → path₁ = path₂)
    (hf : f ∈ Builtin.table) (hk : f.kind = .op opcode) (hseen : opcode.carriesIdentity → named) :
    l₁.payload path₁ f = l₂.payload path₂ f := by
  unfold Lowered.payload
  split
  · rename_i hstateful
    refine h.identity (hseen ?_) hpath _
    rw [Opcode.carriesIdentity, Builtin.keepsState_eq hf hk, hstateful, Bool.true_or]
  · rfl

theorem length_instructions (h : Like named placed C l₁ l₂) :
    l₁.instructions.length = l₂.instructions.length := by
  simpa using congrArg List.length h.instructions

theorem length_sequences (h : Like named placed C l₁ l₂) :
    l₁.sequences.length = l₂.sequences.length := by
  simpa using congrArg List.length h.sequences

theorem appends (h : Like named placed C l₁ l₂) (ha : l₁.Appends make₁ b l₁')
    (hmake : (make₁ b).kept named = (make₂ b).kept named) :
    ∃ l₂', l₂.Appends make₂ b l₂' ∧ Like named placed C l₁' l₂' := by
  obtain ⟨hroom, hbuffer, hnext⟩ := ha
  rw [h.length_instructions] at hroom hbuffer
  refine ⟨_, ⟨hroom, hbuffer, rfl⟩, ?_⟩
  subst hnext
  refine ⟨?_, h.sequences, h.samples, h.issued, h.memo⟩
  rw [List.map_append, List.map_append, h.instructions, List.map_singleton,
    List.map_singleton, hmake]

theorem appendsSame (h : Like named placed C l₁ l₂) (ha : l₁.Appends make b l₁') :
    ∃ l₂', l₂.Appends make b l₂' ∧ Like named placed C l₁' l₂' :=
  h.appends ha rfl

theorem issue (h : Like named placed C l₁ l₂) (hpath : named → path₁ = path₂) (leaf : String) :
    Like named placed C (l₁.issue path₁ leaf) (l₂.issue path₂ leaf) :=
  { h with issued := fun hn => by rw [Lowered.issue, h.issued hn, hpath hn, Lowered.issue] }

theorem issueFor (h : Like named placed C l₁ l₂) (hpath : named → path₁ = path₂) (f : Builtin) :
    Like named placed C (l₁.issueFor path₁ f) (l₂.issueFor path₂ f) := by
  unfold Lowered.issueFor
  split
  · exact { h.issue hpath f.name with }
  · exact h

theorem withSequence (h : Like named placed C l₁ l₂) (hpath : named → path₁ = path₂) (p : Pattern)
    (hplace : placed → span₁ = span₂) :
    Like named placed C (l₁.withSequence path₁ p span₁) (l₂.withSequence path₂ p span₂) := by
  have hinit : (initOf (l₁.identity path₁ "pat") p span₁ l₁.samples).kept named placed =
      (initOf (l₂.identity path₂ "pat") p span₂ l₂.samples).kept named placed := by
    rw [h.samples]
    cases named with
    | false => cases placed <;> simp_all [SequenceInit.kept, initOf]
    | true =>
      rw [h.identity rfl hpath]
      cases placed <;> simp_all [SequenceInit.kept, initOf]
  refine ⟨h.instructions, ?_, ?_, (h.issue hpath "pat").issued, h.memo⟩
  · simp only [Lowered.withSequence, List.map_append, List.map_singleton, h.sequences, hinit]
  · simp only [Lowered.withSequence, h.samples]

/-- A node and its partner get the same buffer; no other node has either as its partner. -/
theorem remember (h : Like named placed C l₁ l₂)
    (hone : ∀ {x y x' y'}, C x y → C x' y' → (x = x' ↔ y = y')) (hij : C i j) (b : Buffer) :
    Like named placed C { l₁ with memo := (i, b) :: l₁.memo }
      { l₂ with memo := (j, b) :: l₂.memo } := by
  refine { h with memo := fun {x y} hxy => ?_ }
  have hiff := hone hxy hij
  rw [List.lookup_cons, List.lookup_cons]
  by_cases hx : x = i
  · rw [hx, hiff.mp hx, beq_self_eq_true, beq_self_eq_true]
  · rw [beq_false_of_ne hx, beq_false_of_ne fun hy => hx (hiff.mpr hy)]
    exact h.memo hxy

theorem enter (h : Like named placed C l₁ l₂) (hpath : named → path₁ = path₂) (name : String) :
    Like named placed C { l₁.issue path₁ name with memo := [] }
      { l₂.issue path₂ name with memo := [] } :=
  { h.issue hpath name with memo := fun _ => rfl }

theorem leave (h : Like named placed C l₁' l₂') (hl : Like named placed C l₁ l₂) :
    Like named placed C { l₁' with memo := l₁.memo } { l₂' with memo := l₂.memo } :=
  { h with memo := hl.memo }

end Lowered.Like

section

variable {named placed : Bool} {path₁ path₂ : List String}

theorem Lowering.PatternLowered.paired (h : PatternLowered path₁ p span₁ l₁ b l₁')
    (hl : Lowered.Like named placed C l₁ l₂) (hpath : named → path₁ = path₂)
    (hplace : placed → span₁ = span₂) :
    ∃ l₂', PatternLowered path₂ p span₂ l₂ b l₂' ∧ Lowered.Like named placed C l₁' l₂' := by
  have hsequence := hl.withSequence hpath p hplace
  cases h with
  | values hp hstep =>
    rw [hl.length_sequences] at hstep
    obtain ⟨l₂', hstep, hl'⟩ := hsequence.appends hstep rfl
    exact ⟨l₂', .values hp hstep, hl'⟩
  | samples hp hstep hpitch hplay =>
    rw [hl.length_sequences] at hstep
    obtain ⟨_, hstep, hl'⟩ := hsequence.appends hstep rfl
    obtain ⟨_, hpitch, hl'⟩ := hl'.appendsSame hpitch
    obtain ⟨l₂', hplay, hl'⟩ := hl'.appends hplay
      (kept_instruction .samplePlay _ b fun hseen => hl.identity (hseen rfl) hpath _)
    exact ⟨l₂', .samples hp hstep hpitch hplay, hl'⟩

theorem Lowering.HostParamLowered.paired (h : HostParamLowered p₁ l₁ b l₁')
    (hl : Lowered.Like named placed C l₁ l₂) (hp : p₁.placeless = p₂.placeless) :
    ∃ l₂', HostParamLowered p₂ l₂ b l₂' ∧ Lowered.Like named placed C l₁' l₂' := by
  have hdefault : p₁.default = p₂.default := (congrArg HostParam.default hp :)
  have hhash : p₁.hash = p₂.hash := (congrArg HostParam.hash hp :)
  cases h with
  | intro hfallback hget =>
    rw [hdefault] at hfallback
    rw [hhash] at hget
    obtain ⟨_, hfallback, hl'⟩ := hl.appendsSame hfallback
    obtain ⟨l₂', hget, hl'⟩ := hl'.appends hget rfl
    exact ⟨l₂', .intro hfallback hget, hl'⟩

end

/-! ## Sites -/

/-- Two sites that see the same values, under the names that the second patch has for them. Those of
the second are the values of `scope`. -/
structure SitesAgree (named : Bool) (name : String → String) (R₁ R₂ : Resolved) (scope : Scope)
    (site₁ site₂ : Site) : Prop where
  values : ∀ s ∈ scope, s.isValue
  symbols : ∃ bound₁ bound₂ : Scope, site₁.symbols = .above R₁.symbols.globals bound₁ ∧
    site₂.symbols = .above R₂.symbols.globals bound₂ ∧ (∀ s ∈ bound₁, s.isValue) ∧
    bound₂.outline = scope.outline ∧ Scope.Answers name bound₁ bound₂
  path : named → site₁.path = site₂.path
  expanding : site₁.expanding = site₂.expanding

namespace SitesAgree

theorem calls (h : SitesAgree named name R₁ R₂ scope site₁ site₂)
    (hm : (site₁.symbols.lookup callee).map Symbol.meaning = some m)
    (hsig : m.signature? = some params) :
    R₁.Calls callee m := by
  obtain ⟨bound₁, bound₂, hsym, -, hvalues, -⟩ := h.symbols
  exact .of_lookup hvalues (hsym ▸ hm) hsig

theorem meaning (h : SitesAgree named name R₁ R₂ scope site₁ site₂) (x : String) :
    (site₂.symbols.lookup x).map Symbol.meaning =
      ((SymbolTable.above R₂.symbols.globals scope).lookup x).map Symbol.meaning := by
  obtain ⟨bound₁, bound₂, -, hsym, -, houtline, -⟩ := h.symbols
  rw [hsym]
  exact SymbolTable.lookup_meaning_congr houtline _ x

theorem value (h : SitesAgree named name R₁ R₂ scope site₁ site₂) (hR : NormalPatch R₁ n)
    (hlook : site₁.symbols.lookup x = some symbol) (hvalue : symbol.isValue) :
    ∃ symbol', site₂.symbols.lookup (name x) = some symbol' ∧ symbol'.isValue ∧
      symbol'.buffer = symbol.buffer := by
  obtain ⟨bound₁, bound₂, hsym₁, hsym₂, -, -, hanswers⟩ := h.symbols
  rw [hsym₁, SymbolTable.lookup_above] at hlook
  rw [hsym₂, SymbolTable.lookup_above]
  rcases Option.or_eq_some_iff.mp hlook with hbound | ⟨-, hglobal⟩
  · obtain ⟨symbol', hfound, hrest⟩ := hanswers _ _ hbound
    exact ⟨symbol', by rw [hfound, Option.some_or], hrest⟩
  · rw [hR.not_value (Scope.named?_eq_some hglobal).1] at hvalue
    cases hvalue

theorem argumentScope_congr {params₁ params₂ : List Parameter}
    (h : params₁.map Parameter.name = params₂.map Parameter.name) (inputs : List Buffer) :
    argumentScope params₁ inputs = argumentScope params₂ inputs := by
  have hscope : ∀ params : List Parameter, argumentScope params inputs =
      ((params.map Parameter.name).zip inputs).foldl
        (fun (scope : Scope) q => scope.add (.ofParameter q.1 q.2)) [] := by
    intro params
    rw [List.zip_map_left, List.foldl_map]
    rfl
  rw [hscope, h, ← hscope]

theorem expansion (h : SitesAgree named name R₁ R₂ scope site₁ site₂) (hR₁ : NormalPatch R₁ n₁)
    (hR₂ : NormalPatch R₂ n₂) (hparams : params₁.map Parameter.name = params₂.map Parameter.name)
    (hlen : inputs.length = params₂.length) (f : String) (hk : named → k₁ = k₂) :
    SitesAgree named id R₁ R₂ (bodyScope params₂) (site₁.expansion R₁.symbols f k₁ params₁ inputs)
      (site₂.expansion R₂.symbols f k₂ params₂ inputs) := by
  have hvalues : ∀ s ∈ argumentScope params₂ inputs, s.isValue := by
    intro s hs
    obtain ⟨p, b, -, rfl⟩ := mem_argumentScope hs
    rfl
  refine ⟨bodyScope_isValue, ⟨argumentScope params₂ inputs, argumentScope params₂ inputs, ?_,
    hR₂.expansion_symbols site₂ f k₂ params₂ inputs, hvalues,
    argumentScope_outline hlen, fun x s hs => ?_⟩,
    fun hn => ?_, ?_⟩
  · rw [hR₁.expansion_symbols, argumentScope_congr hparams]
  · exact ⟨s, hs, hvalues s (Scope.named?_eq_some hs).1, rfl⟩
  · simp only [Site.expansion, h.path hn, hk hn]
  · simp only [Site.expansion, h.expanding]

end SitesAgree

/-! ## Partners by their kind -/

namespace Paired

variable {A₁ A₂ : Arena} {i j : NodeId}

theorem of_literal (h : Paired v A₁ A₂ C i j) (hnode : A₁[i]? = some ⟨kind, s⟩)
    (hlit : kind.isLiteral) :
    ∃ s', A₂[j]? = some ⟨kind, s'⟩ := by
  cases h with
  | literal _ h₁ h₂ =>
    cases hnode.symm.trans h₁
    exact ⟨_, h₂⟩
  | operator _ _ h₁ =>
    cases hnode.symm.trans h₁
    cases hlit
  | _ _ h₁ =>
    cases hnode.symm.trans h₁
    cases hlit

theorem of_ident (h : Paired v A₁ A₂ C i j) (hnode : A₁[i]? = some ⟨.ident x, s⟩) :
    ∃ s', A₂[j]? = some ⟨.ident (v.name x), s'⟩ := by
  cases h with
  | literal _ h₁ _ hlit =>
    cases hnode.symm.trans h₁
    cases hlit
  | ident _ h₁ h₂ =>
    cases hnode.symm.trans h₁
    exact ⟨_, h₂⟩
  | operator _ _ h₁ => cases hnode.symm.trans h₁
  | _ _ h₁ => cases hnode.symm.trans h₁

theorem of_binary (h : Paired v A₁ A₂ C i j) (hnode : A₁[i]? = some ⟨.binary op lhs rhs, s⟩) :
    ∃ lhs' rhs', Paired v A₁ A₂ C lhs lhs' ∧ Paired v A₁ A₂ C rhs rhs' ∧
      ((∃ s', A₂[j]? = some ⟨.binary op lhs' rhs', s'⟩) ∨
        ∃ t t' s', A₂[j]? =
          some ⟨.call op.functionName [⟨none, lhs', t⟩, ⟨none, rhs', t'⟩], s'⟩) := by
  cases h with
  | literal _ h₁ _ hlit =>
    cases hnode.symm.trans h₁
    cases hlit
  | binary _ h₁ h₂ hl hr =>
    cases hnode.symm.trans h₁
    exact ⟨_, _, hl, hr, .inl ⟨_, h₂⟩⟩
  | operator _ _ h₁ h₂ hl hr =>
    cases hnode.symm.trans h₁
    exact ⟨_, _, hl, hr, .inr ⟨_, _, _, h₂⟩⟩
  | _ _ h₁ => cases hnode.symm.trans h₁

/-- The partner of a call has the same arguments, if they have no names that could tell their
order. -/
theorem of_call (h : Paired v A₁ A₂ C i j) (hnode : A₁[i]? = some ⟨.call callee args, s⟩)
    (hnames : ∀ callee' args' s', A₂[j]? = some ⟨.call callee' args', s'⟩ →
      ∀ a ∈ args', a.name = none) :
    ∃ callee' args' s', A₂[j]? = some ⟨.call callee' args', s'⟩ ∧ (v.placed → s = s') ∧
      v.Respells callee callee' ∧
      List.Forall₂ (fun a a' => Paired v A₁ A₂ C a.value a'.value) args args' := by
  cases h with
  | literal _ h₁ _ hlit =>
    cases hnode.symm.trans h₁
    cases hlit
  | call _ h₁ h₂ hplace hmid hargs hreorder _ hcallee =>
    cases hnode.symm.trans h₁
    obtain rfl := hreorder.rearranged.eq_of_unnamed (hnames _ _ _ h₂)
    exact ⟨_, _, _, h₂, hplace, hcallee, (forall₂_matches hmid hargs).imp fun _ _ h => h.2⟩
  | operator _ _ h₁ => cases hnode.symm.trans h₁
  | _ _ h₁ => cases hnode.symm.trans h₁

end Paired

/-! ## Nodes -/

theorem Normal.of_call (h : Normal R T n i)
    (hnode : R.patch.nodes[i]? = some ⟨.call callee args, s⟩) :
    ∃ m params, (T.lookup callee).map Symbol.meaning = some m ∧ m.signature? = some params ∧
      args.length = params.length ∧ (∀ a ∈ args, a.name = none) ∧
        m.Checked R (args.map Arg.value) := by
  cases h with
  | literal h' hlit =>
    cases hnode.symm.trans h'
    cases hlit
  | ident h' | binary h' => cases hnode.symm.trans h'
  | call h' hm hsig hlen hnone hchecked =>
    cases hnode.symm.trans h'
    exact ⟨_, _, hm, hsig, hlen, hnone, hchecked⟩

theorem Normal.unnamed (h : Normal R T n i)
    (hnode : R.patch.nodes[i]? = some ⟨.call callee args, s⟩) :
    ∀ a ∈ args, a.name = none := by
  obtain ⟨_, _, _, _, _, hnone, _⟩ := h.of_call hnode
  exact hnone

theorem NormalPatch.body {body : NodeId} (hR : NormalPatch R n) (h : R.Calls callee (.function f))
    (hnode : R.patch.nodes[f.definition]? = some ⟨.define f.name params body, s⟩) :
    f.params = params.map Resolving.formal ∧
      Normal R (.above R.symbols.globals (bodyScope params)) n body := by
  obtain ⟨symbol, hsymbol, hmeaning⟩ := Option.map_eq_some_iff.mp h
  cases hR.globals symbol (Scope.named?_eq_some hsymbol).1 with
  | builtin b hb => simp [hb] at hmeaning
  | function i params' body' span _ hnode' hf _ hbody =>
    rw [hf] at hmeaning
    cases hmeaning
    cases hnode.symm.trans hnode'
    exact ⟨rfl, hbody⟩

theorem SitesAgree.called (h : SitesAgree named name R₁ R₂ scope site₁ site₂)
    (hnormal : Normal R₂ (.above R₂.symbols.globals scope) n j)
    (hnode : R₂.patch.nodes[j]? = some ⟨.call callee args, s⟩) (hcalls : R₂.Calls callee m) :
    (site₂.symbols.lookup callee).map Symbol.meaning = some m ∧
      (∀ params, m.signature? = some params → args.length = params.length) ∧
        m.Checked R₂ (args.map Arg.value) := by
  obtain ⟨m', params, hm, hsig, hlen, -, hchecked⟩ := hnormal.of_call hnode
  obtain rfl : m' = m := Option.some.inj
    ((Resolved.Calls.of_lookup h.values hm hsig).symm.trans hcalls)
  refine ⟨(h.meaning callee).trans hm, fun params' hsig' => ?_, hchecked⟩
  cases hsig.symm.trans hsig'
  exact hlen

theorem PairedGlobals.pattern {x y : NodeId} (hp : PairedGlobals v R₁ R₂ n₁ n₂ C)
    (hxy : Paired v R₁.patch.nodes R₂.patch.nodes C x y)
    (hpattern : R₁.patterns.lookup x = some p)
    (hchecked : ∃ t s p', R₂.patch.nodes[y]? = some ⟨.text t, s⟩ ∧ R₂.patterns.lookup y = some p' ∧
      Pattern.parse t s = .ok p') : R₂.patterns.lookup y = some p := by
  obtain ⟨t, s, hnode, hparse⟩ := hp.read₁ x p hpattern
  obtain ⟨s', hnode'⟩ := hxy.of_literal hnode rfl
  obtain ⟨t', _, p', hnode'', hlookup, hparse'⟩ := hchecked
  cases hnode'.symm.trans hnode''
  rw [hlookup,
    Except.ok.inj ((Pattern.ofChars_of_parse hparse').symm.trans (Pattern.ofChars_of_parse hparse))]

mutual

/-- The partner of a node gets the same buffer from the same code. -/
theorem Lowers.paired {i j : NodeId} (hp : PairedGlobals v R₁ R₂ n₁ n₂ C) :
    Lowers R₁ bank site₁ i l₁ b l₁' →
    Paired v R₁.patch.nodes R₂.patch.nodes C i j →
    Normal R₂ (.above R₂.symbols.globals scope) n₂ j →
    SitesAgree named v.name R₁ R₂ scope site₁ site₂ → Lowered.Like named v.placed C l₁ l₂ →
    ∃ l₂', Lowers R₂ bank site₂ j l₂ b l₂' ∧ Lowered.Like named v.placed C l₁' l₂'
  | .memo hmemo, hij, _, _, hl => ⟨_, .memo ((hl.memo hij.partners).symm.trans hmemo), hl⟩
  | .fresh hmemo h, hij, hj, hsite, hl => by
    obtain ⟨l₂', h', hl'⟩ := h.paired hp hij hj hsite hl
    exact ⟨_, .fresh ((hl.memo hij.partners).symm.trans hmemo) h',
      hl'.remember hp.one hij.partners b⟩

theorem Makes.paired {i j : NodeId} (hp : PairedGlobals v R₁ R₂ n₁ n₂ C)
    (h : Makes R₁ bank site₁ i l₁ b l₁') (hij : Paired v R₁.patch.nodes R₂.patch.nodes C i j)
    (hj : Normal R₂ (.above R₂.symbols.globals scope) n₂ j)
    (hsite : SitesAgree named v.name R₁ R₂ scope site₁ site₂)
    (hl : Lowered.Like named v.placed C l₁ l₂) :
    ∃ l₂', Makes R₂ bank site₂ j l₂ b l₂' ∧ Lowered.Like named v.placed C l₁' l₂' := by
  match h with
  | .number hnode happ =>
    obtain ⟨s', hnode'⟩ := hij.of_literal hnode rfl
    obtain ⟨l₂', happ', hl'⟩ := hl.appendsSame happ
    exact ⟨l₂', .number hnode' happ', hl'⟩
  | .bool hnode happ =>
    obtain ⟨s', hnode'⟩ := hij.of_literal hnode rfl
    obtain ⟨l₂', happ', hl'⟩ := hl.appendsSame happ
    exact ⟨l₂', .bool hnode' happ', hl'⟩
  | .ident hnode hlook hvalue hbuffer =>
    obtain ⟨s', hnode'⟩ := hij.of_ident hnode
    obtain ⟨symbol', hlook', hvalue', hbuffer'⟩ := hsite.value hp.normal₁ hlook hvalue
    rw [← hbuffer'] at hbuffer ⊢
    exact ⟨l₂, .ident hnode' hlook' hvalue' hbuffer, hl⟩
  | .binary hnode hlhs hrhs happ =>
    obtain ⟨lhs', rhs', hpl, hpr, ⟨s', hnode'⟩ | ⟨t, t', s', hnode'⟩⟩ := hij.of_binary hnode
    · obtain ⟨_, hlhs', hl'⟩ := hlhs.paired hp hpl (hj.operands hnode').1.1 hsite hl
      obtain ⟨_, hrhs', hl'⟩ := hrhs.paired hp hpr (hj.operands hnode').2.1 hsite hl'
      obtain ⟨l₂', happ', hl'⟩ := hl'.appends happ rfl
      exact ⟨l₂', .binary hnode' hlhs' hrhs' happ', hl'⟩
    · -- the function of the operator keeps no state, so its call is numbered no more than the
      -- operator
      obtain ⟨f, hcalls, hf, hk, hparams, hstate⟩ := hp.operators _
      obtain ⟨hm, hlen, -⟩ := hsite.called hj hnode' hcalls
      have hargs := fun a ha => (hj.arguments hnode' a ha).1
      obtain ⟨_, hlhs', hl'⟩ := hlhs.paired hp hpl (hargs _ List.mem_cons_self) hsite hl
      obtain ⟨_, hrhs', hl'⟩ := hrhs.paired hp hpr
        (hargs _ (List.mem_cons_of_mem _ List.mem_cons_self)) hsite hl'
      obtain ⟨l₂', happ', hl'⟩ := hl'.appends happ rfl
      refine ⟨l₂', .op hnode' hm hf hk (hlen _ rfl) (.cons hlhs' (.cons hrhs' .nil)) ?_, hl'⟩
      simpa only [Lowered.issueFor, Lowered.payload, hstate, Bool.false_eq_true,
        ↓reduceIte] using happ'
  | .op hnode hm hf hk hlen hargs happ =>
    obtain ⟨callee', args', s', hnode', hplace, hcallee, hpaired⟩ :=
      hij.of_call hnode fun _ _ _ => hj.unnamed
    obtain ⟨hm', hlen', -⟩ := hsite.called hj hnode' (hp.builtins hcallee (hsite.calls hm rfl))
    obtain ⟨l₂', hargs', hl'⟩ := hargs.paired hp hpaired
      (fun a ha => (hj.arguments hnode' a ha).1) hsite hl
    obtain ⟨_, happ', hl'⟩ := (hl'.issueFor hsite.path _).appends happ
      (kept_instruction _ _ _ (hl'.payload hsite.path hf hk))
    exact ⟨_, .op hnode' hm' hf hk (hlen' _ rfl) hargs' happ', hl'⟩
  | .pattern hnode hm hk hpattern hknown hlowered =>
    obtain ⟨callee', args', s', hnode', hplace, hcallee, hpaired⟩ :=
      hij.of_call hnode fun _ _ _ => hj.unnamed
    obtain ⟨hm', -, hchecked⟩ := hsite.called hj hnode' (hp.builtins hcallee (hsite.calls hm rfl))
    cases hpaired with
    | cons htext _ =>
      simp only [Meaning.Checked, hk] at hchecked
      obtain ⟨l₂', hlowered', hl'⟩ := hlowered.paired hl hsite.path hplace
      exact ⟨l₂', .pattern hnode' hm' hk (hp.pattern htext hpattern (hchecked _ rfl))
        hknown hlowered', hl'⟩
  | .control hnode hm hk hname hparam hlowered =>
    obtain ⟨callee', args', s', hnode', hplace, hcallee, hpaired⟩ :=
      hij.of_call hnode fun _ _ _ => hj.unnamed
    obtain ⟨hm', -, hchecked⟩ := hsite.called hj hnode' (hp.builtins hcallee (hsite.calls hm rfl))
    cases hpaired with
    | cons htext _ =>
      obtain ⟨_, hname'⟩ := htext.of_literal hname rfl
      simp only [Meaning.Checked, hk] at hchecked
      obtain ⟨_, _, hname'', hknown⟩ := hchecked _ rfl
      cases hname'.symm.trans hname''
      obtain ⟨param', hparam'⟩ := Option.isSome_iff_exists.mp hknown
      obtain ⟨l₂', hlowered', hl'⟩ := hlowered.paired hl (hp.hosts hparam hparam')
      exact ⟨l₂', .control hnode' hm' hk hname' hparam' hlowered', hl'⟩
  | .expand hnode hm hnew hargs hdef hlen hbody =>
    obtain ⟨callee', args', s', hnode', hplace, hcallee, hpaired⟩ :=
      hij.of_call hnode fun _ _ _ => hj.unnamed
    obtain ⟨f₂, hcalls, hfunction⟩ := hp.functions hcallee (hsite.calls hm rfl)
    obtain ⟨hm', hlen', -⟩ := hsite.called hj hnode' hcalls
    cases hfunction with
    | intro hname hdef₁ hdef₂ hparams hbodies =>
      cases hdef.symm.trans hdef₁
      obtain ⟨hsignature, hnormal⟩ := hp.normal₂.body hcalls hdef₂
      obtain ⟨_, hargs', hl'⟩ := hargs.paired hp hpaired
        (fun a ha => (hj.arguments hnode' a ha).1) hsite hl
      have hlength := (hlen' _ rfl).trans (by rw [hsignature, List.length_map])
      obtain ⟨_, hbody', hl''⟩ := hbody.paired hp.inBody hbodies hnormal
        (hsite.expansion hp.normal₁ hp.normal₂ hparams (hargs'.length_eq.trans hlength) _
          fun hn => by rw [hl'.count hn, hsite.path hn])
        (hl'.enter hsite.path _)
      rw [hname] at hbody'
      refine ⟨_, .expand hnode' hm' ?_ hargs' hdef₂ hlength hbody', hl''.leave hl'⟩
      rwa [← hname, ← hsite.expanding]

theorem LowersArgs.paired {args args' : List (Arg NodeId)} (hp : PairedGlobals v R₁ R₂ n₁ n₂ C) :
    LowersArgs R₁ bank site₁ args l₁ bs l₁' →
    List.Forall₂ (fun a a' : Arg NodeId =>
      Paired v R₁.patch.nodes R₂.patch.nodes C a.value a'.value) args args' →
    (∀ a ∈ args', Normal R₂ (.above R₂.symbols.globals scope) n₂ a.value) →
    SitesAgree named v.name R₁ R₂ scope site₁ site₂ → Lowered.Like named v.placed C l₁ l₂ →
    ∃ l₂', LowersArgs R₂ bank site₂ args' l₂ bs l₂' ∧ Lowered.Like named v.placed C l₁' l₂'
  | .nil, .nil, _, _, hl => ⟨_, .nil, hl⟩
  | .cons h hs, .cons ha has, hnormal, hsite, hl => by
    obtain ⟨_, h', hl'⟩ := h.paired hp ha (hnormal _ List.mem_cons_self) hsite hl
    obtain ⟨l₂', hs', hl''⟩ := hs.paired hp has
      (fun a ha => hnormal a (List.mem_cons_of_mem _ ha)) hsite hl'
    exact ⟨l₂', .cons h' hs', hl''⟩

end

/-! ## Statements -/

theorem NodeKind.exists_of_isDefinition {kind : NodeKind} (h : kind.isDefinition) :
    ∃ name params body, kind = .define name params body := by
  cases kind with
  | define name params body => exact ⟨name, params, body, rfl⟩
  | _ => cases h

theorem NodeKind.isDefinition_of_isStatement {kind : NodeKind} (h : kind.isStatement = false) :
    kind.isDefinition = false := by
  cases kind <;> simp_all [isStatement, isDefinition]

section

variable {R : Resolved} {i : NodeId}

theorem Resolved.actions_define (h : R.patch.nodes[i]? = some ⟨.define name params body, s⟩)
    (is : List NodeId) :
    R.actions (i :: is) = R.actions is :=
  List.filter_cons_of_neg (by simp [Arena.kind_eq h, NodeKind.isDefinition])

theorem Resolved.actions_cons (h : (R.patch.nodes.kind i).isDefinition = false) (is : List NodeId) :
    R.actions (i :: is) = i :: R.actions is :=
  List.filter_cons_of_pos (by simp [h])

theorem Resolved.actions_assign (h : R.patch.nodes[i]? = some ⟨.assign x u, s⟩) (is : List NodeId) :
    R.actions (i :: is) = i :: R.actions is :=
  actions_cons (by rw [Arena.kind_eq h]; rfl) is

end

theorem StatementsLowered.actions (h : StatementsLowered R bank t l ids bs l') :
    ∃ bs', StatementsLowered R bank t l (R.actions ids) bs' l' := by
  induction h with
  | nil => exact ⟨_, .nil⟩
  | define hnode _ ih =>
    rw [Resolved.actions_define hnode]
    exact ih
  | assign hnode hlower _ ih =>
    obtain ⟨bs', h'⟩ := ih
    rw [Resolved.actions_assign hnode]
    exact ⟨_, .assign hnode hlower h'⟩
  | expr hkind hlower _ ih =>
    obtain ⟨bs', h'⟩ := ih
    rw [Resolved.actions_cons (NodeKind.isDefinition_of_isStatement hkind)]
    exact ⟨_, .expr hkind hlower h'⟩

theorem StatementsLowered.of_actions {ids : List NodeId}
    (h : StatementsLowered R bank t l (R.actions ids) bs l') :
    ∃ bs', StatementsLowered R bank t l ids bs' l' := by
  induction ids generalizing t l bs with
  | nil => exact ⟨_, h⟩
  | cons i is ih =>
    cases hdef : (R.patch.nodes.kind i).isDefinition with
    | true =>
      obtain ⟨name, params, body, hkind⟩ := NodeKind.exists_of_isDefinition hdef
      have hnode := Arena.getElem?_of_kind hkind nofun
      rw [Resolved.actions_define hnode] at h
      obtain ⟨bs', h'⟩ := ih h
      exact ⟨_, .define hnode h'⟩
    | false =>
      rw [Resolved.actions_cons hdef] at h
      cases h with
      | define hnode h =>
        obtain ⟨bs', h'⟩ := ih h
        exact ⟨_, .define hnode h'⟩
      | assign hnode hlower h =>
        obtain ⟨bs', h'⟩ := ih h
        exact ⟨_, .assign hnode hlower h'⟩
      | expr hkind hlower h =>
        obtain ⟨bs', h'⟩ := ih h
        exact ⟨_, .expr hkind hlower h'⟩

theorem StatementsNormal.actions (h : StatementsNormal R n vars ids) :
    StatementsNormal R n vars (R.actions ids) := by
  induction h with
  | nil => exact .nil
  | define hnode _ ih =>
    rw [Resolved.actions_define hnode]
    exact ih
  | assign hnode hv hfree _ ih =>
    rw [Resolved.actions_assign hnode]
    exact .assign hnode hv hfree ih
  | expr hv _ ih =>
    obtain ⟨node, hnode, hkind⟩ := hv.root
    rw [← Arena.kind_eq hnode] at hkind
    rw [Resolved.actions_cons (NodeKind.isDefinition_of_isStatement hkind)]
    exact .expr hv ih

theorem SitesAgree.atPath {path : List String}
    (h : SitesAgree named name R₁ R₂ scope ⟨t₁, path, []⟩ ⟨t₂, path, []⟩)
    (hpath : named → path₁ = path₂) :
    SitesAgree named name R₁ R₂ scope ⟨t₁, path₁, []⟩ ⟨t₂, path₂, []⟩ :=
  ⟨h.values, h.symbols, hpath, rfl⟩

theorem SitesAgree.assign {path : List String}
    (h : SitesAgree named name R₁ R₂ vars ⟨t₁, path, []⟩ ⟨t₂, path, []⟩)
    (hfree : vars.find? (Text.fingerprint (name x)) = none) (b : Buffer) (span : Span) :
    SitesAgree named name R₁ R₂ (variableSymbol (name x) span :: vars)
      ⟨t₁.define (.ofVariable x b), path, []⟩ ⟨t₂.define (.ofVariable (name x) b), path, []⟩ := by
  obtain ⟨bound₁, bound₂, hsym₁, hsym₂, hvalues, houtline, hanswers⟩ := h.symbols
  dsimp only at hsym₁ hsym₂
  refine ⟨?_,
    ⟨bound₁.add (.ofVariable x b), bound₂.add (.ofVariable (name x) b), ?_, ?_, ?_, ?_, ?_⟩,
    fun _ => rfl, rfl⟩
  · intro s hs
    rcases List.mem_cons.mp hs with rfl | hs
    · rfl
    · exact h.values s hs
  · rw [hsym₁, SymbolTable.define_above]
  · rw [hsym₂, SymbolTable.define_above]
  · intro s hs
    rcases Scope.mem_add hs with rfl | hs
    · rfl
    · exact hvalues s hs
  · rw [← Scope.add_variableSymbol hfree]
    exact Scope.add_outline houtline rfl
  · exact hanswers.add rfl rfl (find?_eq_none_of_outline houtline.symm hfree) rfl rfl

theorem StatementsLowered.of_append {ids₁ : List NodeId}
    (h : StatementsLowered R bank t l (ids₁ ++ ids₂) bs l') :
    ∃ t' bs₁ bs₂ mid, StatementsLowered R bank t l ids₁ bs₁ mid ∧
      StatementsLowered R bank t' mid ids₂ bs₂ l' := by
  induction ids₁ generalizing t l bs with
  | nil => exact ⟨_, _, _, _, .nil, h⟩
  | cons i is ih =>
    cases h with
    | define hnode h =>
      obtain ⟨_, _, _, _, h₁, h₂⟩ := ih h
      exact ⟨_, _, _, _, .define hnode h₁, h₂⟩
    | assign hnode hlower h =>
      obtain ⟨_, _, _, _, h₁, h₂⟩ := ih h
      exact ⟨_, _, _, _, .assign hnode hlower h₁, h₂⟩
    | expr hkind hlower h =>
      obtain ⟨_, _, _, _, h₁, h₂⟩ := ih h
      exact ⟨_, _, _, _, .expr hkind hlower h₁, h₂⟩

section

variable {v : Manner} {named : Bool} (hname : named → v.name = id)

include hname

theorem StatementsLowered.paired (hp : PairedGlobals v R₁ R₂ n₁ n₂ C)
    (h : List.Forall₂ (StatementPaired v R₁ R₂ C) ids₁ ids₂) :
    ∀ {vars t₁ t₂ l₁ l₂ bs l₁'}, StatementsLowered R₁ bank t₁ l₁ ids₁ bs l₁' →
    StatementsNormal R₂ n₂ vars ids₂ →
      SitesAgree named v.name R₁ R₂ vars ⟨t₁, [], []⟩ ⟨t₂, [], []⟩ →
      Lowered.Like named v.placed C l₁ l₂ →
      ∃ l₂', StatementsLowered R₂ bank t₂ l₂ ids₂ bs l₂' ∧
        Lowered.Like named v.placed C l₁' l₂' := by
  -- Along the statements: what an assignment defines is defined on both sides for those behind it.
  induction h with
  | nil =>
    rintro vars t₁ t₂ l₁ l₂ bs l₁' (_ | _) - - hl
    exact ⟨_, .nil, hl⟩
  | cons hs _ ih =>
    intro vars t₁ t₂ l₁ l₂ bs l₁' hlow hnormal hsite hl
    cases hs with
    | @assign _ _ x _ _ hnode₁ hnode₂ huw =>
      have hpath : named → ["main", x] = ["main", v.name x] := fun hn => by rw [hname hn, id]
      have hkind₁ := Arena.kind_eq hnode₁
      have hkind₂ := Arena.kind_eq hnode₂
      cases hlow with
      | define hnode => cases hnode₁.symm.trans hnode
      | expr hkind =>
        rw [hkind₁] at hkind
        cases hkind
      | assign hnode hlower hrest =>
        cases hnode₁.symm.trans hnode
        cases hnormal with
        | define hnode => cases hnode₂.symm.trans hnode
        | expr hv =>
          obtain ⟨node, hnode, hkind⟩ := hv.root
          cases hnode₂.symm.trans hnode
          cases hkind
        | assign hnode hv hfree hnormal =>
          cases hnode₂.symm.trans hnode
          obtain ⟨_, hlower', hl'⟩ := hlower.paired hp huw hv (hsite.atPath hpath) hl
          obtain ⟨l₂', hrest', hl''⟩ := ih hrest hnormal (hsite.assign hfree _ _) hl'
          exact ⟨l₂', .assign hnode₂ hlower' hrest', hl''⟩
    | expr hkind₁ hkind₂ hij =>
      cases hlow with
      | define hnode | assign hnode =>
        rw [Arena.kind_eq hnode] at hkind₁
        cases hkind₁
      | expr _ hlower hrest =>
        cases hnormal with
        | define hnode | assign hnode =>
          rw [Arena.kind_eq hnode] at hkind₂
          cases hkind₂
        | expr hv hnormal =>
          obtain ⟨_, hlower', hl'⟩ := hlower.paired hp hij hv (hsite.atPath fun _ => rfl) hl
          obtain ⟨l₂', hrest', hl''⟩ := ih hrest hnormal hsite hl'
          exact ⟨l₂', .expr hkind₂ hlower' hrest', hl''⟩

/-- If one way of writing a program can be lowered, so can the other. It comes to the code that the
first one has before it goes on. -/
theorem PairedPatches.lower (hp : PairedPatches v R₁ R₂ n₁ n₂ rest C)
    (h : (R₁.lower bank).success) :
    ∃ t bs mid, StatementsLowered R₁ bank t mid rest bs (R₁.walked bank) ∧ (R₂.lower bank).success ∧
      Lowered.Like named v.placed C mid (R₂.walked bank) := by
  obtain ⟨_, hactions⟩ := (hp.normal₁.lowered h).actions
  obtain ⟨front, hfront, hpaired⟩ := hp.statements
  rw [hfront] at hactions
  obtain ⟨t, bs, bs', mid, hactions, hrest⟩ := hactions.of_append
  have hstart : SitesAgree named v.name R₁ R₂ [] ⟨R₁.symbols.push, [], []⟩
      ⟨R₂.symbols.push, [], []⟩ := by
    refine ⟨by simp, ⟨[], [], ?_, ?_, by simp, rfl, nofun⟩, fun _ => rfl, rfl⟩
    · rw [hp.normal₁.symbols]
      exact SymbolTable.push_eq_above R₁.symbols.globals
    · rw [hp.normal₂.symbols]
      exact SymbolTable.push_eq_above R₂.symbols.globals
  obtain ⟨_, hlowered, hlike⟩ :=
    hactions.paired hname hp.toPairedGlobals hpaired hp.normal₂.statements.actions
    hstart (.start named v.placed C)
  obtain ⟨_, hall⟩ := hlowered.of_actions
  obtain ⟨hsuccess, hwalked⟩ := hp.normal₂.walked_eq hall
  rw [hwalked]
  exact ⟨t, _, mid, hrest, hsuccess, hlike⟩

end

end SignalPatch
