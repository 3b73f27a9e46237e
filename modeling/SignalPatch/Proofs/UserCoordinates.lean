import SignalPatch.Proofs.CallPlaces
import SignalPatch.Proofs.IssuedPaths

/-!
# Places in a compiled program

Each sequence and each host parameter of a compiled program comes from a call in the user's text,
and holds the place of that call. The places are not those of the user's text in all respects, as
those of messages are: the line of a sequence and the offset of a host parameter are counted from
the start of the preamble.
-/

namespace SignalPatch

open Lowering (initOf PatternLowered HostParamLowered)

/-! ## Calls in the user's text -/

/-- The span covers a piece of the source that reads `text`. -/
def Span.Delimits (s : Span) (text source : String) : Prop :=
  ∃ before rest, source = before ++ text ++ rest ∧ s.StartsBehind before ∧
    s.length = text.utf8ByteSize

theorem Span.Spells.delimits {s : Span} {text source : String}
    (h : s.Spells text.toList source.toList) :
    s.Delimits text source := by
  obtain ⟨before, rest, hsource, hstart, hlength⟩ := h
  refine ⟨.ofList before, .ofList rest, ?_, .of_after hstart, by rw [hlength, utf8ByteSize_eq]⟩
  apply String.toList_inj.mp
  simp [hsource]

/-- The user's text has a call of the function at `s`. In the resolved patch, its arguments are
`args`. -/
structure LinkedSource.HasCall (linked : LinkedSource) (callee : String) (args : List (Arg NodeId))
    (s : Span) :
    Prop where
  text : ∃ inner, s.Delimits (callee ++ inner ++ ")") linked.user
  node : ∃ (i : NodeId) (read : List (Arg NodeId)),
    linked.patch.nodes[i]? = some ⟨.call callee read, linked.boundary.move s⟩ ∧
      linked.patch.resolve.patch.nodes[i]? = some ⟨.call callee args, linked.boundary.move s⟩

variable {linked : LinkedSource}

def BuiltinKind.asksForText : BuiltinKind → Bool
  | .op _ => false
  | .pattern | .control _ => true

def TokenKind.asksForText : TokenKind → Bool
  | .ident name => (Builtin.find? name).any (·.kind.asksForText)
  | _ => false

theorem Preamble.asksForText : ∀ t ∈ tokensOf Preamble.standard, t.kind.asksForText = false := by
  rw [tokensOf, Preamble.characters.2]
  decide +kernel

theorem LinkedSource.hasCall {i : NodeId}
    (hcalls : linked.patch.nodes.SameCalls linked.patch.resolve.patch.nodes)
    (hpreamble : ∀ t ∈ tokensOf linked.preamble, t.kind.asksForText = false)
    (hnode : linked.patch.resolve.patch.nodes[i]? = some ⟨.call callee args, s⟩)
    (hfind : Builtin.find? callee = some f) (hasks : f.kind.asksForText) :
    ∃ s', s = linked.boundary.move s' ∧ linked.HasCall callee args s' := by
  have hsign : callee ≠ "neg" := by
    rintro rfl
    have hneg : (Builtin.find? "neg").any (·.kind.asksForText) = false := by decide
    simp [hfind, hasks] at hneg
  have hnone : ∀ t ∈ tokensOf linked.preamble, t.kind ≠ .ident callee := by
    intro t ht hkind
    have hnone := hpreamble t ht
    simp [hkind, TokenKind.asksForText, hfind, hasks] at hnone
  obtain ⟨found, hread⟩ := hcalls i callee args s hnode
  obtain ⟨s', inner, rfl, hspells⟩ := LinkedSource.call_user hread hsign hnone
  refine ⟨s', rfl, ⟨.ofList inner, Span.Spells.delimits ?_⟩, i, found, hread, hnode⟩
  simpa using hspells

/-! ## Where sequences come from -/

/-- The sequence of a call at `s` with these arguments: the first is the text of the pattern. -/
inductive SequenceInit.PlayedBy (q : SequenceInit) (R : Resolved) (args : List (Arg NodeId))
    (s : Span) : Prop
  | intro {v : NodeId} {text : String} : args.map Arg.value = v :: vs →
      R.patch.nodes[v]? = some ⟨.text text, t⟩ → Pattern.parse text t = .ok p →
      q = initOf state p s samples → PlayedBy q R args s

inductive Played (R : Resolved) (q : SequenceInit) : Prop
  | intro {i : NodeId} : R.patch.nodes[i]? = some ⟨.call callee args, s⟩ →
      Builtin.find? callee = some f → f.kind = .pattern → q.PlayedBy R args s → Played R q

/-- The sequences that were added between two states of lowering are played by calls of the
patch. -/
def AddsPlayed (R : Resolved) (l l' : Lowered) : Prop :=
  ∀ q ∈ l'.sequences, q ∈ l.sequences ∨ Played R q

theorem AddsPlayed.of_eq (h : l'.sequences = l.sequences) : AddsPlayed R l l' :=
  fun _ hq => .inl (h ▸ hq)

theorem AddsPlayed.trans (h : AddsPlayed R l l') (h' : AddsPlayed R l' l'') : AddsPlayed R l l'' :=
  fun q hq => (h' q hq).elim (h q) .inr

theorem Lowered.Appends.sequences_eq (h : Appends l make b l') : l'.sequences = l.sequences := by
  rw [h.next]

theorem Lowered.sequences_issueFor (l : Lowered) (path : List String) (f : Builtin) :
    (l.issueFor path f).sequences = l.sequences := by
  unfold Lowered.issueFor
  split <;> rfl

theorem Lowering.PatternLowered.sequences_eq (h : PatternLowered path p s l b l') :
    l'.sequences = l.sequences ++ [initOf (l.identity path "pat") p s l.samples] := by
  cases h with
  | values _ hstep => exact hstep.sequences_eq
  | samples _ hstep hpitch hplay =>
    exact (hplay.sequences_eq.trans hpitch.sequences_eq).trans hstep.sequences_eq

theorem Lowering.HostParamLowered.sequences_eq (h : HostParamLowered param l b l') :
    l'.sequences = l.sequences := by
  cases h with
  | intro hfallback hget => exact hget.sequences_eq.trans hfallback.sequences_eq

theorem Site.SeesValues.builtin {site : Site} (h : site.SeesValues R) (hE : Elaborated P ids R)
    (hm : (site.symbols.lookup callee).map Symbol.meaning = some (.builtin f)) :
    Builtin.find? callee = some f := by
  obtain ⟨bound, hsym, hvalues⟩ := h
  exact (hE.globals.signaturesOk hvalues).builtins callee f (hsym ▸ hm)

mutual

theorem Lowers.played (hE : Elaborated P ids R) (hR : NormalPatch R n) :
    Lowers R bank site i l b l' →
    site.SeesValues R → AddsPlayed R l l'
  | .memo _, _ => .of_eq rfl
  | .fresh _ h, hsite => (h.played hE hR hsite).trans (.of_eq rfl)

theorem Makes.played (hE : Elaborated P ids R) (hR : NormalPatch R n) : Makes R bank site i l b l' →
    site.SeesValues R → AddsPlayed R l l'
  | .number _ h, _ => .of_eq h.sequences_eq
  | .bool _ h, _ => .of_eq h.sequences_eq
  | .ident _ _ _ _, _ => .of_eq rfl
  | .binary _ hlhs hrhs h, hsite =>
    ((hlhs.played hE hR hsite).trans (hrhs.played hE hR hsite)).trans (.of_eq h.sequences_eq)
  | .op _ _ _ _ _ hargs h, hsite =>
    ((hargs.played hE hR hsite).trans (.of_eq (Lowered.sequences_issueFor _ _ _))).trans
      (.of_eq h.sequences_eq)
  | .pattern hnode hm hkind hpattern _ h, hsite => by
    intro q hq
    rw [h.sequences_eq, List.mem_append, List.mem_singleton] at hq
    refine hq.imp_right fun hq => ?_
    obtain ⟨t, s, htext, hparse⟩ := hE.read _ _ hpattern
    exact .intro hnode (hsite.builtin hE hm) hkind (.intro rfl htext hparse hq)
  | .control _ _ _ _ _ h, _ => .of_eq h.sequences_eq
  | .expand _ _ _ hargs _ _ hbody, hsite =>
    (hargs.played hE hR hsite).trans fun q hq =>
      hbody.played hE hR (hR.seesValues_expansion ..) q hq

theorem LowersArgs.played (hE : Elaborated P ids R) (hR : NormalPatch R n) :
    LowersArgs R bank site args l bs l' → site.SeesValues R → AddsPlayed R l l'
  | .nil, _ => .of_eq rfl
  | .cons h hs, hsite => (h.played hE hR hsite).trans (hs.played hE hR hsite)

end

theorem StatementsLowered.played (hE : Elaborated P ids' R) (hR : NormalPatch R n)
    (h : StatementsLowered R bank symbols l ids bs l') (path : List String) :
    Site.SeesValues R ⟨symbols, path, []⟩ → AddsPlayed R l l' := by
  induction h with
  | nil => exact fun _ => .of_eq rfl
  | define _ _ ih => exact ih
  | @assign i symbols x v l b l₁ is bs l₂ s _ hlowers _ ih =>
    rintro ⟨bound, hsym, hvalues⟩
    refine (hlowers.played hE hR ⟨bound, hsym, hvalues⟩).trans
      (ih ⟨bound.add (.ofVariable x b), ?_, fun s hs => ?_⟩)
    · dsimp only at hsym ⊢
      rw [hsym, SymbolTable.define_above]
    · rcases Scope.mem_add hs with rfl | hs
      · rfl
      · exact hvalues s hs
  | expr _ hlowers _ ih => exact fun hsite => (hlowers.played hE hR hsite).trans (ih hsite)

theorem NormalPatch.played (hR : NormalPatch R n) (hE : Elaborated P ids R)
    (h : (R.lower bank).success) :
    ∀ q ∈ (R.walked bank).sequences, Played R q := by
  intro q hq
  have hstart : Site.SeesValues R ⟨R.symbols.push, [], []⟩ := by
    refine ⟨[], ?_, by simp⟩
    dsimp only
    rw [hR.symbols]
    exact SymbolTable.push_eq_above R.symbols.globals
  exact ((hR.lowered h).played hE hR [] hstart q hq).resolve_left (by simp)

/-! ## Compiled programs -/

theorem Lowering.shift_initOf (boundary : Boundary) (id : UInt32) (p : Pattern) (s : Span)
    (samples : List String) :
    (initOf id p (boundary.move s) samples).shift boundary =
      initOf id p { s with line := s.line + boundary.lines } samples := by
  simp [SequenceInit.shift, initOf, Boundary.move]

theorem SequenceInit.PlayedBy.shift {boundary : Boundary} {q : SequenceInit}
    (h : q.PlayedBy R args (boundary.move s)) :
    (q.shift boundary).span = { s with line := s.line + boundary.lines } ∧
      (q.shift boundary).PlayedBy R args (q.shift boundary).span := by
  obtain ⟨hargs, htext, hparse, rfl⟩ := h
  rw [Lowering.shift_initOf]
  exact ⟨rfl, .intro hargs htext hparse rfl⟩

theorem HostParam.DeclaredBy.place {p : HostParam} (h : p.DeclaredBy R args s) :
    p.offset = s.offset ∧ p.length = s.length := by
  obtain ⟨-, -, -, hp⟩ := h
  rw [hp]
  exact ⟨rfl, rfl⟩

/-- A compiled sequence has the column, the offset and the length of the call that plays it, and the
line of that call in the linked text. A host parameter has the length of the call that declares it,
and the offset of that call in the linked text. -/
structure Compiled.LinkedPlaces (c : Compiled) (linked : LinkedSource) : Prop where
  sequences : ∀ q ∈ c.sequences, ∃ callee args s, linked.HasCall callee args s ∧
    (Builtin.find? callee).map Builtin.kind = some .pattern ∧
    q.PlayedBy linked.patch.resolve args q.span ∧
    q.span = { s with line := s.line + linked.boundary.lines }
  hostParams : ∀ p ∈ c.hostParams, ∃ callee args s, linked.HasCall callee args s ∧
    (Builtin.find? callee).map Builtin.kind = some (.control p.kind) ∧
    p.DeclaredBy linked.patch.resolve args (linked.boundary.move s) ∧
    p.offset = s.offset + linked.boundary.bytes ∧ p.length = s.length

theorem Accepted.linkedPlaces (h : Accepted linked bank c)
    (hpreamble : ∀ t ∈ tokensOf linked.preamble, t.kind.asksForText = false) :
    c.LinkedPlaces linked := by
  have hE := parse_resolve_elaborated _ h.resolved
  have hR := parse_resolve_normal _ h.resolved
  constructor
  · intro q hq
    rw [h.sequences] at hq
    obtain ⟨q, hmem, rfl⟩ := List.mem_map.mp hq
    obtain ⟨hnode, hfind, hkind, hplayed⟩ := hR.played hE h.lowered q hmem
    obtain ⟨s, rfl, hcall⟩ := LinkedSource.hasCall hE.sameCalls hpreamble hnode hfind
      (by rw [hkind]; rfl)
    obtain ⟨hspan, hplayed⟩ := hplayed.shift
    exact ⟨_, _, s, hcall, by rw [hfind, Option.map_some, hkind], hplayed, hspan⟩
  · intro p hp
    rw [h.hostParams] at hp
    obtain ⟨hnode, hfind, hkind, hdeclared⟩ := hE.declared p hp
    obtain ⟨s, rfl, hcall⟩ := LinkedSource.hasCall hE.sameCalls hpreamble hnode hfind
      (by rw [hkind]; rfl)
    obtain ⟨hoffset, hlength⟩ := hdeclared.place
    exact ⟨_, _, s, hcall, by rw [hfind, Option.map_some, hkind], hdeclared, hoffset, hlength⟩

theorem compile_linkedPlaces (h : (compile source filename bank).success) :
    (compile source filename bank).LinkedPlaces (.standard source) :=
  (compile_accepted h).linkedPlaces Preamble.asksForText

def Scan.places (scanned : Scan) (bank : SampleRegistry) : Bool × List Span × List (Nat × Nat) :=
  let R := (parse scanned.tokens).patch.resolve
  ((scanned.faults bank).isEmpty, (R.walked bank).sequences.map SequenceInit.span,
    R.hostParams.map fun p => (p.offset, p.length))

theorem compile_places (spans : List Span) (hsource : source.toList = cs) (hne : cs ≠ [])
    (h : (Scan.ofChars (Preamble.characters.1 ++ ['\n'] ++ cs)).places bank =
      (true, spans, params)) :
    (compile source filename bank).success ∧
      (compile source filename bank).sequences.map SequenceInit.span =
        spans.map (fun s => { s with offset := s.offset - 286 }) ∧
      (compile source filename bank).hostParams.map (fun p => (p.offset, p.length)) = params := by
  obtain ⟨hfaults, hspans, hparams⟩ : _ ∧ _ ∧ _ := by
    simpa only [Scan.places, Prod.mk.injEq] using h
  have hsuccess : (compile source filename bank).success := compile_success hsource hne hfaults
  have hc := compile_accepted hsuccess
  refine ⟨hsuccess, ?_, ?_⟩
  · rw [hc.sequences, ← hspans, LinkedSource.patch,
      scan_of_toList (LinkedSource.standard_toList hsource),
      LinkedSource.boundary, LinkedSource.standard, Preamble.behind_standard,
      List.map_map, List.map_map]
    rfl
  · rw [hc.hostParams, ← hparams, LinkedSource.patch,
      scan_of_toList (LinkedSource.standard_toList hsource)]

def sharedBeat : String :=
  "// é\nfn beat(g) -> pat(\"bd [sd hh]\") * g\n\"cut\" |> param(%, 1, 0, 2) |> beat(%) |> out(%)\nbeat(2) |> out(%)"

theorem sharedBeat_places : (compile sharedBeat "lead" .drums).success ∧
    (compile sharedBeat "lead" .drums).sequences.map SequenceInit.span =
      [⟨10, 15, 20, 17⟩, ⟨10, 15, 20, 17⟩] ∧
    (compile sharedBeat "lead" .drums).hostParams.map (fun p => (p.offset, p.length)) =
      [(337, 17)] :=
  compile_places [⟨10, 15, 306, 17⟩, ⟨10, 15, 306, 17⟩] String.toList_ofList
    (by simp) (by decide +kernel)

theorem sharedBeat_linkedPlaces : (compile sharedBeat "lead" .drums).success ∧
    (compile sharedBeat "lead" .drums).LinkedPlaces (.standard sharedBeat) :=
  ⟨sharedBeat_places.1, compile_linkedPlaces sharedBeat_places.1⟩

/-- No place on the tenth line is one of a text of four lines, and the host parameter is placed
behind the end of the text. -/
theorem sharedBeat_displaced :
    (∃ q ∈ (compile sharedBeat "lead" .drums).sequences, ¬ q.span.StartsIn sharedBeat) ∧
      ∃ p ∈ (compile sharedBeat "lead" .drums).hostParams, sharedBeat.utf8ByteSize < p.offset := by
  have hchars : sharedBeat.toList = _ := String.toList_ofList
  obtain ⟨-, hspans, hparams⟩ := sharedBeat_places
  constructor
  · have hmem : ⟨10, 15, 20, 17⟩ ∈ (compile sharedBeat "lead" .drums).sequences.map
        SequenceInit.span := by
      simp [hspans]
    obtain ⟨q, hq, hspan⟩ := List.mem_map.mp hmem
    refine ⟨q, hq, ?_⟩
    rintro ⟨before, rest, htext, hbehind⟩
    have hlines : sharedBeat.toList.count '\n' = 3 := by
      rw [hchars]
      decide
    rw [htext, String.toList_append, List.count_append] at hlines
    have hline : 10 = _ := hspan ▸ hbehind.line
    omega
  · have hmem : (337, 17) ∈ (compile sharedBeat "lead" .drums).hostParams.map
        (fun p => (p.offset, p.length)) := by
      simp [hparams]
    obtain ⟨p, hp, hplace⟩ := List.mem_map.mp hmem
    refine ⟨p, hp, ?_⟩
    rw [(Prod.mk.inj hplace).1, utf8ByteSize_eq, hchars]
    decide +kernel

end SignalPatch
