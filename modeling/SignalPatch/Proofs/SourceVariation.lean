import SignalPatch.Proofs.ExactGrammar
import SignalPatch.Proofs.MeaningPreservation
import SignalPatch.Proofs.PairedLowering
import SignalPatch.Proofs.StableIdentity

/-!
# Programs that are written in two ways

Texts that are read as the same program, written in two ways, compile to the same code up to the
places of patterns. Where definitions stand does not matter (`compile_definitionsMoved`), nor does
the order of named arguments (`compile_argumentsReordered`); an operator stands for the call of its
function, and an alias for the function it names (`compile_respelled`).
-/

namespace SignalPatch

/-! ## Readable texts -/

theorem LinkedSource.program_eq (linked : LinkedSource) :
    linked.program = (Grammar.turns (tokensOf linked.text)).filterMap Grammar.Turn.statement? := by
  rw [LinkedSource.program, Grammar.statements, beforeFinish_scan]

theorem compile_eq_of_success (h : (compile source filename bank).success) :
    compile source filename bank = compileLinked (.standard source) filename bank := by
  unfold compile at h ⊢
  split at h
  · cases h
  · rw [if_neg ‹_›]

theorem compileLinked_of_stages {linked : LinkedSource} (hscan : (scan linked.text).findings = [])
    (hparse : (parse (scan linked.text).tokens).findings = [])
    (hresolve : linked.patch.resolve.success)
    (hlower : (linked.patch.resolve.lower bank).findings = []) (filename : String) :
    (compileLinked linked filename bank).success := by
  have herrors : (parse (scan linked.text).tokens).patch.resolve.findings.any Finding.isError =
      false := by
    simpa [Resolved.success, LinkedSource.patch] using hresolve
  have hlower' : ((parse (scan linked.text).tokens).patch.resolve.lower bank).findings =
      [] := hlower
  unfold compileLinked
  simp only [hasErrors_append, hasErrors_relocated, hscan, hparse, herrors, hlower',
    List.any_nil, Bool.or_self]
  rfl

structure Readable (source : String) : Prop where
  nonempty : source ≠ ""
  clean : ¬ HasSyntaxErrors (LinkedSource.standard source).text

/-- The same code and the same sequences, but for the places of patterns in the text. -/
structure Compiled.SameCode (c c' : Compiled) : Prop where
  bytecode : c.bytecode = c'.bytecode
  sequences : c.sequences.map SequenceInit.placeless = c'.sequences.map SequenceInit.placeless
  samples : c.samples = c'.samples

theorem LinkedSource.resolve_success_iff (linked : LinkedSource) :
    linked.patch.resolve.success ↔ ProgramChecks linked.program :=
  SignalPatch.resolve_success_iff (parse_stored _) (parse_unshared _)

theorem LinkedSource.resolvedProgram {linked : LinkedSource} (h : ProgramChecks linked.program) :
    ResolvedProgram linked.patch.nodes linked.program linked.patch.statements
      linked.patch.resolve := by
  have hsuccess := linked.resolve_success_iff.mpr h
  exact ⟨parse_stored _, parse_resolve_elaborated _ hsuccess,
    (linked.patch.resolve_survey (parse_stored _) (parse_unshared _)).1 hsuccess⟩

theorem LinkedSource.hostsAgree {linked₁ linked₂ : LinkedSource}
    (hc₁ : ProgramChecks linked₁.program) (hc₂ : ProgramChecks linked₂.program)
    (h : HostsAgree ((programDeclarations linked₁.program).foldl HostParam.declare [])
      ((programDeclarations linked₂.program).foldl HostParam.declare [])) :
    HostsAgree linked₁.patch.resolve.hostParams linked₂.patch.resolve.hostParams := by
  rw [(resolvedProgram hc₁).survey.hostParams, (resolvedProgram hc₂).survey.hostParams]
  exact h

theorem Readable.success_iff (h : Readable source) (filename : String) (bank : SampleRegistry) :
    (compile source filename bank).success ↔
      ProgramChecks (LinkedSource.standard source).program ∧
        ((LinkedSource.standard source).patch.resolve.lower bank).success := by
  rw [← LinkedSource.resolve_success_iff]
  constructor
  · intro hsuccess
    have hc := compile_accepted hsuccess
    exact ⟨hc.resolved, hc.lowered⟩
  · rintro ⟨hresolved, hlowered⟩
    obtain ⟨hscan, hparse⟩ := not_or.mp h.clean
    have hnormal := parse_resolve_normal _ hresolved
    rw [compile, if_neg (by simpa using h.nonempty)]
    exact compileLinked_of_stages (not_not.mp hscan) (not_not.mp hparse) hresolved
      (hnormal.findings_eq_nil hlowered) filename

/-! ## Variation -/

theorem SequenceInit.placeless_comp_shift (b : Boundary) : placeless ∘ shift b = placeless := rfl

theorem Accepted.sameCode (h₁ : Accepted linked₁ bank c₁) (h₂ : Accepted linked₂ bank c₂)
    (h : Lowered.Like true false C (linked₁.patch.resolve.walked bank)
      (linked₂.patch.resolve.walked bank)) :
    c₁.SameCode c₂ := by
  have hinstructions : (linked₁.patch.resolve.walked bank).instructions.map id =
      (linked₂.patch.resolve.walked bank).instructions.map id := h.instructions
  rw [List.map_id, List.map_id] at hinstructions
  refine ⟨?_, ?_, ?_⟩
  · rw [h₁.bytecode, h₂.bytecode, hinstructions]
  · rw [h₁.sequences, h₂.sequences, List.map_map, List.map_map, SequenceInit.placeless_comp_shift,
      SequenceInit.placeless_comp_shift]
    exact h.sequences
  · rw [h₁.samples, h₂.samples, h.samples]

section

variable {w : Manner} (named : Bool) {linked₁ linked₂ : LinkedSource} (hname : named → w.name = id)
  (hc₁ : ProgramChecks linked₁.program) (hc₂ : ProgramChecks linked₂.program)
  (hhosts : HostsMatch linked₁.patch.resolve.hostParams linked₂.patch.resolve.hostParams)
  (hsuccess : (linked₁.patch.resolve.lower bank).success)

include hname hc₁ hc₂ hhosts hsuccess

/-- Ways of writing a program whose host parameters match are lowered alike, up to where the first
one goes on with more statements. -/
theorem ProgramVaries.lower_front (h : ProgramVaries w ss linked₂.program)
    (hprogram : linked₁.program = ss ++ more) (hmore : ∀ s ∈ more, s.isDefinition = false) :
    (linked₂.patch.resolve.lower bank).success ∧
    ∃ C mid, mid.Grows (linked₁.patch.resolve.walked bank) ∧
      (more = [] → mid = linked₁.patch.resolve.walked bank) ∧
      Lowered.Like named w.placed C mid (linked₂.patch.resolve.walked bank) := by
  have h₁ := LinkedSource.resolvedProgram hc₁
  rw [hprogram] at h₁
  obtain ⟨C, rest, hp, hrest⟩ := exists_pairedPatches h₁
    (LinkedSource.resolvedProgram hc₂) h hmore hhosts
  obtain ⟨t, bs, mid, hlowered, hsuccess', hlike⟩ := hp.lower hname hsuccess
  refine ⟨hsuccess', C, mid, hlowered.grows, fun hnone => ?_, hlike⟩
  rw [hrest hnone] at hlowered
  cases hlowered
  rfl

theorem ProgramVaries.lower (h : ProgramVaries w linked₁.program linked₂.program) :
    (linked₂.patch.resolve.lower bank).success ∧ ∃ C,
      Lowered.Like named w.placed C (linked₁.patch.resolve.walked bank)
        (linked₂.patch.resolve.walked bank) := by
  obtain ⟨hsuccess', C, mid, -, hmid, hlike⟩ := h.lower_front named hname hc₁ hc₂ hhosts hsuccess
    (List.append_nil _).symm (by simp)
  rw [hmid rfl] at hlike
  exact ⟨hsuccess', C, hlike⟩

end

theorem HostsAgree.symm (h : HostsAgree hosts hosts') : HostsAgree hosts' hosts :=
  fun n => (h n).symm

theorem ProgramVaries.compile {v : Latitude} {source₁ source₂ : String}
    (hspelling : v.spelling = false)
    (h : ProgramVaries v.plain (LinkedSource.standard source₁).program
      (LinkedSource.standard source₂).program)
    (h₁ : Readable source₁) (h₂ : Readable source₂)
    (hnodup :
      ((programDeclarations (LinkedSource.standard source₁).program).map HostParam.name).Nodup)
    (filename₁ filename₂ : String) (bank : SampleRegistry) :
    ((compile source₁ filename₁ bank).success ↔ (compile source₂ filename₂ bank).success) ∧
      ((compile source₁ filename₁ bank).success →
        (compile source₁ filename₁ bank).SameCode (compile source₂ filename₂ bank)) := by
  have hsymm := h.symm hspelling
  have hhosts := fun hc₁ hc₂ => LinkedSource.hostsAgree hc₁ hc₂
    (hostsAgree_of_perm hnodup (h.declarations hc₁))
  -- Variation goes both ways, so the converse is shown in the same way from `hsymm`.
  have hforth : (SignalPatch.compile source₁ filename₁ bank).success →
      (SignalPatch.compile source₂ filename₂ bank).success := by
    rw [h₁.success_iff, h₂.success_iff]
    rintro ⟨hc₁, hl₁⟩
    have hc₂ := h.checks hspelling hc₁
    exact ⟨hc₂, (h.lower true (fun _ => rfl) hc₁ hc₂ (hhosts hc₁ hc₂).hostsMatch hl₁).1⟩
  refine ⟨⟨hforth, ?_⟩, fun hsuccess => ?_⟩
  · rw [h₁.success_iff, h₂.success_iff]
    rintro ⟨hc₂, hl₂⟩
    have hc₁ := hsymm.checks hspelling hc₂
    exact ⟨hc₁, (hsymm.lower true (fun _ => rfl) hc₂ hc₁ (hhosts hc₁ hc₂).symm.hostsMatch hl₂).1⟩
  · obtain ⟨hc₁, hl₁⟩ := (h₁.success_iff filename₁ bank).mp hsuccess
    have hc₂ := h.checks hspelling hc₁
    obtain ⟨C, hlike⟩ := (h.lower true (fun _ => rfl) hc₁ hc₂ (hhosts hc₁ hc₂).hostsMatch hl₁).2
    exact (compile_accepted hsuccess).sameCode (compile_accepted (hforth hsuccess)) hlike

theorem Readable.of_success (h : (compile source filename bank).success) : Readable source := by
  refine ⟨?_, ?_⟩
  · rintro rfl
    cases h
  · rw [compile_eq_of_success h] at h
    obtain ⟨hscan, hparse⟩ := compileLinked_clean h
    exact not_or.mpr ⟨not_not.mpr hscan, not_not.mpr hparse⟩

theorem Readable.of_chars (hsource : source.toList = cs) (hne : cs ≠ [])
    (h : (Scan.ofChars (Preamble.characters.1 ++ ['\n'] ++ cs)).findings = [] ∧
      (parse (Scan.ofChars (Preamble.characters.1 ++ ['\n'] ++ cs)).tokens).findings = []) :
    Readable source := by
  refine ⟨?_, ?_⟩
  · rintro rfl
    exact hne hsource.symm
  · rw [HasSyntaxErrors, scan_of_toList (LinkedSource.standard_toList hsource)]
    exact not_or.mpr ⟨not_not.mpr h.1, not_not.mpr h.2⟩

theorem nodup_declarations (hsource : source.toList = cs)
    (h : let tokens :=
        (pieces .origin (Preamble.characters.1 ++ ['\n'] ++ cs)).filterMap Piece.token?
      let program := (Grammar.turns tokens).filterMap Grammar.Turn.statement?
      ((programDeclarations program).map HostParam.name).Nodup) :
    ((programDeclarations (LinkedSource.standard source).program).map HostParam.name).Nodup := by
  rwa [LinkedSource.program_eq, tokensOf, LinkedSource.standard_toList hsource]

/-! ## Definitions -/

/-- It does not matter where among the statements the functions are defined. The definitions of the
preamble belong to the statements. -/
theorem compile_definitionsMoved (source₁ source₂ filename₁ filename₂ : String)
    (bank : SampleRegistry) (h₁ : Readable source₁) (h₂ : Readable source₂)
    (hmoved : DefinitionsMoved ((LinkedSource.standard source₁).program.map Statement.shape)
      ((LinkedSource.standard source₂).program.map Statement.shape))
    (hnodup :
      ((programDeclarations (LinkedSource.standard source₁).program).map HostParam.name).Nodup) :
    ((compile source₁ filename₁ bank).success ↔ (compile source₂ filename₂ bank).success) ∧
      ((compile source₁ filename₁ bank).success →
        (compile source₁ filename₁ bank).SameCode (compile source₂ filename₂ bank)) :=
  (hmoved.programVaries .strict).compile rfl h₁ h₂ hnodup filename₁ filename₂ bank

def toneFirst : String :=
  "fn tone(n) -> saw(n)\na = tone(pat(\"c3 e3\"))\nfn soft(x) -> lp(x, param(\"edge\"))\nsoft(a) |> out(%)"

def toneLast : String :=
  "a = tone(pat(\"c3 e3\"))\nsoft(a) |> out(%)\nfn soft(x) -> lp(x, param(\"edge\"))\nfn tone(n) -> saw(n)"

theorem toneLast_definitionsMoved :
    (compile toneFirst "first" .drums).success ∧ (compile toneLast "last" .drums).success ∧
      (compile toneFirst "first" .drums).SameCode (compile toneLast "last" .drums) := by
  have hsuccess : (compile toneFirst "first" .drums).success :=
    compile_success String.toList_ofList (by simp) (by decide +kernel)
  have hreadable : Readable toneLast := .of_chars String.toList_ofList (by simp) (by decide +kernel)
  have hfirst : (LinkedSource.standard toneFirst).program.map Statement.shape = _ ++
      [.define "tone" [("n", none)] (.call "saw" [(none, .ident "n")]),
        .assign "a" (.call "tone" [(none, .call "pat" [(none, .text "c3 e3")])]),
        .define "soft" [("x", none)]
          (.call "lp" [(none, .ident "x"), (none, .call "param" [(none, .text "edge")])]),
        .expr (.pipe (.call "soft" [(none, .ident "a")]) (.call "out" [(none, .hole)]))] :=
    standard_shapes_of_chars String.toList_ofList (by decide +kernel) (by with_unfolding_all rfl)
  have hlast : (LinkedSource.standard toneLast).program.map Statement.shape = _ ++
      [.assign "a" (.call "tone" [(none, .call "pat" [(none, .text "c3 e3")])]),
        .expr (.pipe (.call "soft" [(none, .ident "a")]) (.call "out" [(none, .hole)])),
        .define "soft" [("x", none)]
          (.call "lp" [(none, .ident "x"), (none, .call "param" [(none, .text "edge")])]),
        .define "tone" [("n", none)] (.call "saw" [(none, .ident "n")])] :=
    standard_shapes_of_chars String.toList_ofList (by decide +kernel) (by with_unfolding_all rfl)
  have hmoved : DefinitionsMoved ((LinkedSource.standard toneFirst).program.map Statement.shape)
      ((LinkedSource.standard toneLast).program.map Statement.shape) := by
    rw [hfirst, hlast]
    exact .append_left _ ⟨rfl, .swap _ _ _⟩
  have hcompiled := compile_definitionsMoved _ _ "first" "last" .drums
    (.of_success hsuccess) hreadable hmoved
    (nodup_declarations String.toList_ofList (by decide +kernel))
  exact ⟨hsuccess, hcompiled.1.mp hsuccess, hcompiled.2 hsuccess⟩

/-! ## Named arguments -/

/-- The order of the named arguments of a call does not matter. -/
theorem compile_argumentsReordered (source₁ source₂ filename₁ filename₂ : String)
    (bank : SampleRegistry) (h₁ : Readable source₁) (h₂ : Readable source₂)
    (hreordered : List.Forall₂ (StatementShape.Varies .reordered)
      ((LinkedSource.standard source₁).program.map Statement.shape)
        ((LinkedSource.standard source₂).program.map Statement.shape))
    (hnodup :
      ((programDeclarations (LinkedSource.standard source₁).program).map HostParam.name).Nodup) :
    ((compile source₁ filename₁ bank).success ↔ (compile source₂ filename₂ bank).success) ∧
      ((compile source₁ filename₁ bank).success →
        (compile source₁ filename₁ bank).SameCode (compile source₂ filename₂ bank)) :=
  (ProgramVaries.of_forall₂ (Statement.Varies.of_shapes hreordered)).compile rfl h₁ h₂ hnodup
    filename₁ filename₂ bank

def echoTimed : String :=
  "delay(saw(pat(\"c3 e3\")), time: param(\"gap\"), fb: sin(pat(\"e2\"))) |> out(%)"

/-- The feedback of the echo comes first, and with it its pattern. -/
def echoFed : String :=
  "delay(saw(pat(\"c3 e3\")), fb: sin(pat(\"e2\")), time: param(\"gap\")) |> out(%)"

theorem echoFed_argumentsReordered :
    (compile echoTimed "timed" .drums).success ∧ (compile echoFed "fed" .drums).success ∧
      (compile echoTimed "timed" .drums).SameCode (compile echoFed "fed" .drums) := by
  have hsuccess : (compile echoTimed "timed" .drums).success :=
    compile_success String.toList_ofList (by simp) (by decide +kernel)
  have hreadable : Readable echoFed := .of_chars String.toList_ofList (by simp) (by decide +kernel)
  have htimed : (LinkedSource.standard echoTimed).program.map Statement.shape = _ ++
      [.expr
        (.pipe (.call "delay" [(none, .call "saw" [(none, .call "pat" [(none, .text "c3 e3")])]),
        (some "time", .call "param" [(none, .text "gap")]),
        (some "fb", .call "sin" [(none, .call "pat" [(none, .text "e2")])])])
          (.call "out" [(none, .hole)]))] :=
    standard_shapes_of_chars String.toList_ofList (by decide +kernel) (by with_unfolding_all rfl)
  have hfed : (LinkedSource.standard echoFed).program.map Statement.shape = _ ++
      [.expr
        (.pipe (.call "delay" [(none, .call "saw" [(none, .call "pat" [(none, .text "c3 e3")])]),
        (some "fb", .call "sin" [(none, .call "pat" [(none, .text "e2")])]),
        (some "time", .call "param" [(none, .text "gap")])]) (.call "out" [(none, .hole)]))] :=
    standard_shapes_of_chars String.toList_ofList (by decide +kernel) (by with_unfolding_all rfl)
  have hreordered : List.Forall₂ (StatementShape.Varies .reordered)
      ((LinkedSource.standard echoTimed).program.map Statement.shape)
      ((LinkedSource.standard echoFed).program.map Statement.shape) := by
    rw [htimed, hfed]
    refine StatementShape.Varies.append_left _ (.cons (.expr (.pipe ?_ (.refl _ _))) .nil)
    refine .call rfl (Shape.Varies.refl_args _ _) (.inr ⟨rfl, ?_⟩) (.refl _ _)
    exact ⟨[_], [_, _], [_, _], rfl, rfl, .swap _ _ _, by simp⟩
  have hcompiled := compile_argumentsReordered _ _ "timed" "fed" .drums (.of_success hsuccess)
    hreadable hreordered (nodup_declarations String.toList_ofList (by decide +kernel))
  exact ⟨hsuccess, hcompiled.1.mp hsuccess, hcompiled.2 hsuccess⟩

/-! ## Operators and aliases -/

/-- An operator is the call of its function, and an alias the name that it stands for. -/
theorem compile_respelled (source₁ source₂ filename₁ filename₂ : String) (bank : SampleRegistry)
    (h₁ : (compile source₁ filename₁ bank).success) (h₂ : (compile source₂ filename₂ bank).success)
    (hrespelled : List.Forall₂ (StatementShape.Varies .respelled)
      ((LinkedSource.standard source₁).program.map Statement.shape)
      ((LinkedSource.standard source₂).program.map Statement.shape)) :
    (compile source₁ filename₁ bank).SameCode (compile source₂ filename₂ bank) := by
  have hvaries := Statement.Varies.of_shapes hrespelled
  have hc₁ := compile_accepted h₁
  have hc₂ := compile_accepted h₂
  have hchecks₁ := (LinkedSource.resolve_success_iff _).mp hc₁.resolved
  have hchecks₂ := (LinkedSource.resolve_success_iff _).mp hc₂.resolved
  have hhosts := LinkedSource.hostsAgree hchecks₁ hchecks₂
    (hostsAgree_of_eq (declarations_eq rfl hvaries hchecks₁))
  obtain ⟨-, C, hlike⟩ := (ProgramVaries.of_forall₂ hvaries).lower true (fun _ => rfl)
    hchecks₁ hchecks₂ hhosts.hostsMatch hc₁.lowered
  exact hc₁.sameCode hc₂ hlike

def sugaredSum : String := "a = sine(pat(\"c3\")) + sawtooth(pat(\"e3\")) * clock()\na |> output(%)"

def plainSum : String := "a = add(sin(pat(\"c3\")), sawtooth(pat(\"e3\")) * clock())\na |> out(%)"

theorem plainSum_respelled :
    (compile sugaredSum "sugared" .drums).success ∧ (compile plainSum "plain" .drums).success ∧
      (compile sugaredSum "sugared" .drums).SameCode (compile plainSum "plain" .drums) := by
  have hsuccess₁ : (compile sugaredSum "sugared" .drums).success :=
    compile_success String.toList_ofList (by simp) (by decide +kernel)
  have hsuccess₂ : (compile plainSum "plain" .drums).success :=
    compile_success String.toList_ofList (by simp) (by decide +kernel)
  have hsugared : (LinkedSource.standard sugaredSum).program.map Statement.shape = _ ++
      [.assign "a" (.binary .add (.call "sine" [(none, .call "pat" [(none, .text "c3")])])
        (.binary .mul (.call "sawtooth" [(none, .call "pat" [(none, .text "e3")])])
          (.call "clock" []))),
        .expr (.pipe (.ident "a") (.call "output" [(none, .hole)]))] :=
    standard_shapes_of_chars String.toList_ofList (by decide +kernel) (by with_unfolding_all rfl)
  have hplain : (LinkedSource.standard plainSum).program.map Statement.shape = _ ++
      [.assign "a" (.call "add" [(none, .call "sin" [(none, .call "pat" [(none, .text "c3")])]),
        (none, .binary .mul (.call "sawtooth" [(none, .call "pat" [(none, .text "e3")])])
          (.call "clock" []))]),
        .expr (.pipe (.ident "a") (.call "out" [(none, .hole)]))] :=
    standard_shapes_of_chars String.toList_ofList (by decide +kernel) (by with_unfolding_all rfl)
  have hrespelled : List.Forall₂ (StatementShape.Varies .respelled)
      ((LinkedSource.standard sugaredSum).program.map Statement.shape)
      ((LinkedSource.standard plainSum).program.map Statement.shape) := by
    rw [hsugared, hplain]
    refine StatementShape.Varies.append_left _
      (.cons (.assign ?_) (.cons (.expr (.pipe (.refl _ _) ?_)) .nil))
    · exact .operator rfl (.of_canonicalName rfl (by decide) _) (.refl _ _)
    · exact .of_canonicalName rfl (by decide) _
  exact ⟨hsuccess₁, hsuccess₂, compile_respelled _ _ _ _ _ hsuccess₁ hsuccess₂ hrespelled⟩

end SignalPatch
