import SignalPatch.Proofs.Attribution
import SignalPatch.Proofs.DeclarationOrder
import SignalPatch.Proofs.SourceVariation

/-!
# Statements behind a program

Statements that define no function and stand behind a program that compiles leave its code as it is:
they are read behind it, resolved behind it and lowered behind it. So all that a host gets for the
longer program starts with what it gets for the shorter one (`compile_appended`).
-/

namespace SignalPatch

open Grammar

/-! ## Reading -/

def appended (source more : String) : String := source ++ "\n;\n" ++ more

theorem text_appended (source more : String) : (LinkedSource.standard (appended source more)).text =
    (LinkedSource.mk (LinkedSource.mk (LinkedSource.standard source).text ";").text more).text := by
  apply String.ext
  simp [LinkedSource.text, LinkedSource.standard, appended]

theorem tokensOf_semicolon : tokensOf ";" = [⟨.semicolon, ⟨1, 1, 0, 1⟩⟩] := by
  rw [tokensOf, (String.toList_ofList : ";".toList = [';'])]
  decide +kernel

/-- Nothing that is read reaches over a line with only a semicolon. -/
theorem turns_semicolonLine (h : (turns ts).all Turn.isComplete) (hend : newline.kind = .newline)
    (hmark : mark.kind = .semicolon) (hend' : newline'.kind = .newline) (more : List Token) :
    turns (ts ++ newline :: mark :: newline' :: more) = turns ts ++ turns more := by
  have hsep : isSeparator newline := by simp [isSeparator, hend]
  have hstop : Grammar.Stops (newline :: mark :: newline' :: more) := by
    refine ⟨by rintro _ ⟨⟩; exact hsep, ?_⟩
    obtain ⟨kind, span⟩ := newline
    cases hend
    rw [pipe?_newline]
    exact (Grammar.Stops.semicolon hmark _).pipe
  rw [turns_append h hsep hstop, turns_separator (by simp [isSeparator, hmark]),
    turns_separator (by simp [isSeparator, hend'])]

theorem turns_appended (more : String)
    (h : (turns (tokensOf (LinkedSource.standard source).text)).all Turn.isComplete) :
    ∃ b : Boundary, turns (tokensOf (LinkedSource.standard (appended source more)).text) =
      turns (tokensOf (LinkedSource.standard source).text) ++
        turns ((tokensOf more).map (.move b)) := by
  rw [text_appended, LinkedSource.tokensOf_text, LinkedSource.tokensOf_text,
    tokensOf_semicolon, List.append_assoc]
  exact ⟨_, turns_semicolonLine h rfl rfl rfl _⟩

theorem Statement.isDefinition_of_shape {s s' : Statement} (h : s'.shape = s.shape) :
    s'.isDefinition = s.isDefinition := by
  cases s <;> cases s' <;> first | rfl | cases h

theorem program_appended
    (hclean : (parse (scan (LinkedSource.standard source).text).tokens).findings = [])
    (hmore : ∀ s ∈ Grammar.statements (scan more).tokens, s.isDefinition = false) :
    ∃ qs, (LinkedSource.standard (appended source more)).program =
      (LinkedSource.standard source).program ++ qs ∧ ∀ s ∈ qs, s.isDefinition = false := by
  rw [findings_eq_nil_iff, beforeFinish_scan] at hclean
  obtain ⟨b, hturns⟩ := turns_appended more hclean
  rw [LinkedSource.program_eq, LinkedSource.program_eq, hturns, List.filterMap_append]
  refine ⟨_, rfl, fun s hs => ?_⟩
  -- the statements are those that are read from the appended text alone
  have hshapes := shapes_like (Grammar.turns_like (Token.Like.moved b (tokensOf more)))
  have hshape := List.mem_map_of_mem (f := Statement.shape) hs
  rw [hshapes] at hshape
  obtain ⟨s₀, hs₀, hsame⟩ := List.mem_map.mp hshape
  rw [← Statement.isDefinition_of_shape hsame]
  refine hmore s₀ ?_
  rw [Grammar.statements, beforeFinish_scan]
  exact hs₀

/-! ## Host parameters and remarks -/

theorem HostParam.prefix_foldl_declare (known ps : List HostParam) :
    known <+: ps.foldl declare known := by
  induction ps generalizing known with
  | nil => exact List.prefix_refl _
  | cons p ps ih => exact (Resolving.declare_prefix known p).trans (ih (declare known p))

theorem programControls_append (hqs : ∀ s ∈ qs, s.isDefinition = false) :
    programControls (ss ++ qs) = programControls ss ++ qs.flatMap Statement.controls := by
  have hnone : qs.flatMap Statement.bodyControls = [] :=
    List.flatMap_eq_nil_iff.mpr fun s hs => if_neg (by simp [hqs s hs])
  rw [programControls, List.flatMap_append, List.flatMap_append, hnone, List.append_nil,
    ← List.append_assoc]
  rfl

theorem hostsMatch_of_isPrefix {hosts hosts' : List HostParam} (h : hosts' <+: hosts) :
    HostsMatch hosts hosts' := by
  obtain ⟨more, rfl⟩ := h
  intro name p p' hp hp'
  rw [List.find?_append, hp', Option.some_or] at hp
  cases hp
  rfl

section

variable {linked linked' : LinkedSource} (hc : ProgramChecks linked.program)
  (hc' : ProgramChecks linked'.program)
  (hprogram : linked'.program = linked.program ++ qs) (hqs : ∀ s ∈ qs, s.isDefinition = false)

include hc hc' hprogram hqs

theorem hostParams_appended :
    linked.patch.resolve.hostParams <+: linked'.patch.resolve.hostParams := by
  rw [(LinkedSource.resolvedProgram hc).survey.hostParams,
    (LinkedSource.resolvedProgram hc').survey.hostParams,
    hprogram, ← map_programControls, ← map_programControls,
    programControls_append hqs, List.map_append,
    List.foldl_append]
  exact HostParam.prefix_foldl_declare _ _

theorem findings_appended : linked.patch.resolve.findings <+: linked'.patch.resolve.findings := by
  have h := LinkedSource.resolvedProgram hc
  have h' := LinkedSource.resolvedProgram hc'
  rw [linked.patch.resolve_collected h.stored h.survey (linked.resolve_success_iff.mpr hc),
    linked'.patch.resolve_collected h'.stored h'.survey
      (linked'.resolve_success_iff.mpr hc'), hprogram,
    programControls_append hqs, Control.remarks_append]
  exact List.prefix_append _ _

/-! ## Lowering -/

theorem walked_appended (hlowered : (linked'.patch.resolve.lower bank).success) :
    (linked.patch.resolve.walked bank).Grows (linked'.patch.resolve.walked bank) := by
  obtain ⟨-, C, mid, hgrows, -, hlike⟩ := ProgramVaries.lower_front true (fun _ => rfl) hc' hc
    (hostsMatch_of_isPrefix (hostParams_appended hc hc' hprogram hqs)) hlowered
    (.of_forall₂ (List.forall₂_same.mpr fun s _ => .refl s)) hprogram hqs
  have hinstructions : mid.instructions.map id =
      (linked.patch.resolve.walked bank).instructions.map id :=
    hlike.instructions
  have hsequences : mid.sequences.map id = (linked.patch.resolve.walked bank).sequences.map id :=
    hlike.sequences
  rw [List.map_id, List.map_id] at hinstructions hsequences
  exact hgrows.of_eq hinstructions.symm hsequences.symm

end

/-! ## Compiled programs -/

/-- All that a host gets for the first program comes first in what it gets for the second. -/
structure Compiled.Starts (c c' : Compiled) : Prop where
  bytecode : c.bytecode <+: c'.bytecode
  sequences : c.sequences <+: c'.sequences
  samples : c.samples <+: c'.samples
  hostParams : c.hostParams <+: c'.hostParams
  diagnostics : c.diagnostics <+: c'.diagnostics

theorem Bytecode.encode_prefix_encode (h : is <+: is') : encode is <+: encode is' := by
  obtain ⟨more, rfl⟩ := h
  unfold encode
  rw [List.flatMap_append]
  exact List.prefix_append _ _

theorem Accepted.samples_eq (h : Accepted linked bank c) :
    c.samples = (c.sequences.flatMap SequenceInit.sampleNames).eraseDups := by
  obtain ⟨⟨is, -, htables⟩, -⟩ := h.tablesMatch
  exact htables.firstUse

theorem eraseDups_prefix_eraseDups {names names' : List String} (h : names <+: names') :
    names.eraseDups <+: names'.eraseDups := by
  obtain ⟨more, rfl⟩ := h
  rw [eraseDups_append_foldl_need]
  exact prefix_foldl_need _ _

theorem Accepted.diagnostics_eq {linked : LinkedSource}
    (h : Accepted linked bank (compileLinked linked filename bank)) :
    (compileLinked linked filename bank).diagnostics =
      relocated linked.boundary filename linked.patch.resolve.findings := by
  obtain ⟨rest, hall, hend⟩ := compileLinked_diagnostics linked filename bank
  have hrest : rest = [] := hend.resolve_left (by rw [h.diagnostics]; nofun)
  obtain ⟨hscan, hparse⟩ := compileLinked_clean h.success
  have hlower : ((parse (scan linked.text).tokens).patch.resolve.lower bank).findings = [] :=
    (parse_resolve_normal _ h.resolved).findings_eq_nil h.lowered
  rw [hrest, List.append_nil, Scan.faults] at hall
  rw [hscan, hparse, hlower, List.append_nil] at hall
  exact hall.symm

theorem compile_appended (source more filename : String) (bank : SampleRegistry)
    (h : (compile source filename bank).success)
    (h' : (compile (appended source more) filename bank).success)
    (hmore : ∀ s ∈ Grammar.statements (scan more).tokens, s.isDefinition = false) :
    (compile source filename bank).Starts (compile (appended source more) filename bank) := by
  have hc := compile_accepted h
  have hc' := compile_accepted h'
  have hchecks := (LinkedSource.resolve_success_iff _).mp hc.resolved
  have hchecks' := (LinkedSource.resolve_success_iff _).mp hc'.resolved
  have hlinked := compile_eq_of_success h
  have hlinked' := compile_eq_of_success h'
  rw [hlinked] at h
  obtain ⟨qs, hprogram, hqs⟩ := program_appended (compileLinked_clean h).2 hmore
  -- The walk of the longer program starts as the walk of the shorter one, so the tables only grow.
  have hgrows := walked_appended hchecks hchecks' hprogram hqs hc'.lowered
  have hsequences : (compile source filename bank).sequences <+:
      (compile (appended source more) filename bank).sequences := by
    rw [hc.sequences, hc'.sequences]
    exact hgrows.sequences.map _
  refine ⟨?_, hsequences, ?_, ?_, ?_⟩
  · rw [hc.bytecode, hc'.bytecode]
    exact Bytecode.encode_prefix_encode hgrows.instructions
  · rw [hc.samples_eq, hc'.samples_eq]
    exact eraseDups_prefix_eraseDups (hsequences.flatMap _)
  · rw [hc.hostParams, hc'.hostParams]
    exact hostParams_appended hchecks hchecks' hprogram hqs
  · rw [hlinked] at hc ⊢
    rw [hlinked'] at hc' ⊢
    rw [hc.diagnostics_eq, hc'.diagnostics_eq]
    exact (findings_appended hchecks hchecks' hprogram hqs).map _

def beat : String :=
  "fn kit(level) -> pat(\"bd [sd bd]\") * level\nlevel = param(\"level\", 0.5)\nkit(level) |> out(%)"

def voice : String :=
  "lead = saw(mtof(pat(\"c4 e4\"))) * level\npat(\"hh bd\") * param(\"room\", 1) + lead |> out(%)"

theorem compile_beat : (compile beat "beat" .drums).success :=
  compile_success String.toList_ofList (by simp) (by decide +kernel)

theorem compile_beat_voice : (compile (appended beat voice) "beat" .drums).success :=
  compile_success (toList_append_eq (toList_append_eq String.toList_ofList String.toList_ofList)
    String.toList_ofList) (by simp) (by decide +kernel)

theorem voice_noDefinition :
    ∀ s ∈ Grammar.statements (scan voice).tokens, s.isDefinition = false := by
  have hchars : voice.toList = _ := String.toList_ofList
  rw [Grammar.statements, beforeFinish_scan, tokensOf, hchars]
  decide +kernel

theorem beat_starts :
    (compile beat "beat" .drums).success ∧ (compile (appended beat voice) "beat" .drums).success ∧
    (∀ s ∈ Grammar.statements (scan voice).tokens, s.isDefinition = false) ∧
    (compile beat "beat" .drums).Starts (compile (appended beat voice) "beat" .drums) :=
  ⟨compile_beat, compile_beat_voice, voice_noDefinition,
    compile_appended _ _ _ _ compile_beat compile_beat_voice voice_noDefinition⟩

end SignalPatch
