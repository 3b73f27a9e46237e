import SignalPatch.Proofs.RenamedTokens
import SignalPatch.Proofs.SourceVariation

/-!
# Another name for a variable

A program and the same program with another name for one of its variables are read in step, and are
two ways of writing one program, so they have the same code but for the identities of states
(`compile_renamed`). Two things can come between: the new name can have the fingerprint of another
variable, and it can be `neg`, which every sign behind the assignment then takes for the variable.
-/

namespace SignalPatch

open Grammar

variable {x y : String} {behind behind' : Bool}

/-! ## What the new name must not meet -/

/-- No other variable has the fingerprint of `y`, and where a sign would call `y`, none stands
behind the assignment of `x`. -/
structure Renamable (x y : String) (program : List Statement) : Prop where
  apart : ∀ z ∈ program.filterMap Statement.assigned?, z ≠ x →
    Text.fingerprint z ≠ Text.fingerprint y
  signs : y = "neg" → program.Pairwise fun s s' => s.assigns x → ¬ s'.calls "neg"

theorem Renamable.sparesSign (h : Renamable x y ss) : SparesSign x y false ss :=
  fun hy => ⟨nofun, h.signs hy⟩

theorem exchange_self (x y : String) : exchange x y x = y := if_pos rfl

theorem exchange_of_ne (h : z ≠ x) : exchange x y z = z := if_neg h

/-! ## Checks -/

theorem Symbol.role_of_isValue {s : Symbol} (h : s.isValue) : s.meaning.role = .value := by
  unfold Symbol.isValue at h
  cases hm : s.meaning <;> simp_all [Meaning.role]

theorem globalRole_ne_value (ss : List Statement) (n : String) : globalRole ss n ≠ some .value := by
  unfold globalRole
  split
  · simp
  · intro h
    obtain ⟨d, -, hd⟩ := Option.map_eq_some_iff.mp h
    cases hd

/-- The variables of two programs, of which the second has `y` for `x`. -/
structure Counterparts (x y : String) (behind : Bool) (vars vars' : Scope) : Prop where
  filed : vars.Filed
  values : ∀ s ∈ vars, s.isValue
  known : ∀ s ∈ vars, s.name = x → behind
  apart : ∀ s ∈ vars, s.name ≠ x → Text.fingerprint s.name ≠ Text.fingerprint y
  answers : Scope.Answers (exchange x y) vars vars'
  partner : ∀ s' ∈ vars', s'.hash = Text.fingerprint s'.name ∧
    ∃ s ∈ vars, s'.name = exchange x y s.name

namespace Counterparts

theorem start (x y : String) : Counterparts x y false [] [] where
  filed := .nil
  values := by simp
  known := by simp
  apart := by simp
  answers := nofun
  partner := by simp

theorem keeps (h : Counterparts x y behind vars vars') (hroles : ∀ n, roles n ≠ some .value) :
    (Manner.exchanging x y behind).Keeps (seenFrom vars roles) (seenFrom vars' roles) where
  value n hn := by
    rcases Option.or_eq_some_iff.mp hn with hrole | ⟨-, hrole⟩
    · obtain ⟨s, hs, -⟩ := Option.map_eq_some_iff.mp hrole
      obtain ⟨s', hs', hvalue, -⟩ := h.answers _ _ hs
      have hname : (Manner.exchanging x y behind).name n = exchange x y n := rfl
      rw [seenFrom, Scope.role, hname, hs', Option.map_some,
        Symbol.role_of_isValue hvalue, Option.some_or]
    · exact absurd hrole (hroles n)
  function f role hcalls hf hne := by
    rcases Option.or_eq_some_iff.mp hf with hrole | ⟨hnone, hrole⟩
    · obtain ⟨s, hs, rfl⟩ := Option.map_eq_some_iff.mp hrole
      exact absurd (Symbol.role_of_isValue (h.values s (Scope.named?_eq_some hs).1)) hne
    · have hnone' : vars'.role f = none := by
        refine Option.map_eq_none_iff.mpr (Option.eq_none_iff_forall_ne_some.mpr fun s' hs' => ?_)
        obtain ⟨hmem', rfl⟩ := Scope.named?_eq_some hs'
        obtain ⟨-, s, hs, hname⟩ := h.partner s' hmem'
        -- A variable that hides the function after the exchange has hidden it before, or is `x`.
        by_cases hx : s.name = x
        · rw [hx, exchange_self] at hname
          have := h.known s hs hx
          rw [hcalls hname] at this
          cases this
        · rw [exchange_of_ne hx] at hname
          rw [hname, Scope.role, h.filed.named?_mem hs] at hnone
          cases hnone
      rw [seenFrom, hnone', Option.none_or, hrole]

theorem free (h : Counterparts x y behind vars vars')
    (hfree : vars.find? (Text.fingerprint z) = none)
    (hz : z ≠ x → Text.fingerprint z ≠ Text.fingerprint y) :
    vars'.find? (Text.fingerprint (exchange x y z)) = none := by
  have hother : ∀ s ∈ vars, Text.fingerprint s.name ≠ Text.fingerprint z := fun s hs heq => by
    have := List.find?_eq_none.mp hfree s hs
    simp [h.filed.hash s hs, heq] at this
  refine List.find?_eq_none.mpr fun s' hs' heq => ?_
  obtain ⟨hhash, s, hs, hname⟩ := h.partner s' hs'
  rw [beq_iff_eq, hhash, hname] at heq
  by_cases hsx : s.name = x <;> by_cases hzx : z = x
  · exact hother s hs (by rw [hsx, hzx])
  · rw [hsx, exchange_self, exchange_of_ne hzx] at heq
    exact hz hzx heq.symm
  · rw [hzx, exchange_self, exchange_of_ne hsx] at heq
    exact h.apart s hs hsx heq
  · rw [exchange_of_ne hsx, exchange_of_ne hzx] at heq
    exact hother s hs heq

theorem assign (h : Counterparts x y behind vars vars')
    (hfree : vars.find? (Text.fingerprint z) = none)
    (hz : z ≠ x → Text.fingerprint z ≠ Text.fingerprint y) (hle : behind → behind')
    (hx : z = x → behind') (span span' : Span) :
    Counterparts x y behind' (variableSymbol z span :: vars)
      (variableSymbol (exchange x y z) span' :: vars') where
  filed := by
    rw [← Scope.add_variableSymbol hfree]
    exact h.filed.add rfl
  values := List.forall_mem_cons.mpr ⟨rfl, h.values⟩
  known := List.forall_mem_cons.mpr ⟨hx, fun s hs hsx => hle (h.known s hs hsx)⟩
  apart := List.forall_mem_cons.mpr ⟨hz, h.apart⟩
  answers := by
    have hfree' := h.free hfree hz
    rw [← Scope.add_variableSymbol hfree, ← Scope.add_variableSymbol hfree']
    exact h.answers.add rfl rfl hfree' rfl rfl
  partner := by
    refine List.forall_mem_cons.mpr ⟨⟨rfl, _, List.mem_cons_self, rfl⟩, fun s' hs' => ?_⟩
    obtain ⟨hhash, s, hs, hname⟩ := h.partner s' hs'
    exact ⟨hhash, s, List.mem_cons_of_mem _ hs, hname⟩

end Counterparts

namespace Exchanged

theorem statementsCheck (h : Exchanged x y behind ss ss') (hroles : ∀ n, roles n ≠ some .value) :
    ∀ {vars vars' : Scope}, Counterparts x y behind vars vars' →
      (∀ z ∈ ss.filterMap Statement.assigned?, z ≠ x → Text.fingerprint z ≠ Text.fingerprint y) →
      StatementsCheck roles vars ss → StatementsCheck roles vars' ss' := by
  induction h with
  | nil => exact fun _ _ _ => .nil
  | cons hs _ ih =>
    intro vars vars' hvars hapart hc
    cases hs with
    | define _ _ =>
      cases hc with
      | define hc =>
        exact .define (ih (by simpa [Statement.assigns, Statement.assigned?] using hvars) hapart hc)
    | assign hvalue =>
      obtain ⟨hz, hapart⟩ := List.forall_mem_cons.mp hapart
      cases hc with
      | assign hchecks hfree hc =>
        refine .assign (hvalue.checks rfl (hvars.keeps hroles) hchecks) (hvars.free hfree hz)
          (ih (hvars.assign hfree hz ?_ ?_ _ _) hapart hc)
        · exact fun hb => by rw [hb, Bool.true_or]
        · rintro rfl
          simp [Statement.assigns, Statement.assigned?]
    | expr he =>
      cases hc with
      | expr hchecks hc =>
        refine .expr (he.checks rfl (hvars.keeps hroles) hchecks) (ih ?_ hapart hc)
        simpa [Statement.assigns, Statement.assigned?] using hvars

theorem varies (h : Exchanged x y behind ss ss') :
    List.Forall₂ (Statement.Varies (.exchanging x y false)) ss ss' := by
  induction h with
  | nil => exact .nil
  | cons hs _ ih => exact .cons (hs.mono fun _ _ _ => rfl) ih

theorem checks (h : Exchanged x y false ss ss') (hss : Renamable x y ss) (hc : ProgramChecks ss) :
    ProgramChecks ss' := by
  refine (ProgramVaries.of_forall₂ h.varies).checks_of rfl hc (statementsCheck_filter.mpr ?_)
  exact h.statementsCheck (globalRole_ne_value ss) (.start x y) hss.apart hc.statements

end Exchanged

/-! ## Compiled programs -/

/-- The tokens of the second text are those of the first, with the new name `y` for the variable
`x`. The standard preamble belongs to both. -/
structure RenamedTo (x y source source' : String) : Prop where
  assigned : x ∈ (LinkedSource.standard source).program.filterMap Statement.assigned?
  fresh : ∀ t ∈ tokensOf (LinkedSource.standard source).text, t.kind ≠ .ident y
  clean : (scan (LinkedSource.standard source').text).findings = []
  kinds : (tokensOf (LinkedSource.standard source').text).map Token.kind =
    renameVariable x y (tokensOf (LinkedSource.standard source).text)

/-- The same code but for the identities of states and the places of patterns in the text. -/
structure Compiled.SameUnnamed (c c' : Compiled) : Prop where
  instructions : ∃ is is', Bytecode.decode c.bytecode = .ok is ∧
    Bytecode.decode c'.bytecode = .ok is' ∧ is'.map Instruction.unnamed = is.map Instruction.unnamed
  sequences : c'.sequences.map SequenceInit.unnamed = c.sequences.map SequenceInit.unnamed
  samples : c'.samples = c.samples

theorem standard_isDefinition : (LinkedSource.standard "").program.all Statement.isDefinition := by
  have hchars : (LinkedSource.standard "").text.toList = _ := LinkedSource.standard_toList rfl
  rw [LinkedSource.program_eq, tokensOf, hchars]
  decide +kernel

theorem Statement.isDefinition_of_assigned? {s : Statement} (h : s.assigned? = some x) :
    s.isDefinition = false := by
  cases s <;> first | rfl | cases h

theorem SequenceInit.unnamed_comp_shift (b : Boundary) : unnamed ∘ shift b = unnamed := rfl

theorem compile_renamed (x y source source' filename : String) (bank : SampleRegistry)
    (h : (compile source filename bank).success) (hrenamed : RenamedTo x y source source')
    (hmeets : Renamable x y (LinkedSource.standard source).program) :
    (compile source' filename bank).success ∧
      (compile source filename bank).SameUnnamed (compile source' filename bank) := by
  have hc := compile_accepted h
  have hchecks := (LinkedSource.resolve_success_iff _).mp hc.resolved
  rw [compile_eq_of_success h] at h
  obtain ⟨-, hparse⟩ := compileLinked_clean h
  -- the two texts are read in step
  have hsign := hmeets.sparesSign
  rw [findings_eq_nil_iff, beforeFinish_scan] at hparse
  rw [LinkedSource.program_eq] at hsign
  obtain ⟨hparse', hexchanged⟩ := turns_respelled hparse
    (respelled_of_kinds hrenamed.fresh hrenamed.kinds) (fun _ _ => rfl) hsign
  rw [← LinkedSource.program_eq, ← LinkedSource.program_eq] at hexchanged
  rw [← beforeFinish_scan, ← findings_eq_nil_iff] at hparse'
  have hne : source' ≠ "" := by
    rintro rfl
    obtain ⟨s, hs, hassigned⟩ := List.mem_filterMap.mp hrenamed.assigned
    obtain ⟨s', hs', hvaries⟩ := exists_mem_left hexchanged.varies.flip hs
    have hdef := hvaries.isDefinition_eq
    rw [Statement.isDefinition_of_assigned? hassigned,
      List.all_eq_true.mp standard_isDefinition s' hs'] at hdef
    cases hdef
  have hreadable : Readable source' :=
    ⟨hne, not_or.mpr ⟨not_not.mpr hrenamed.clean, not_not.mpr hparse'⟩⟩
  -- they are two ways of writing one program
  have hchecks' := hexchanged.checks hmeets hchecks
  have hhosts := LinkedSource.hostsAgree hchecks hchecks'
    (hostsAgree_of_eq (declarations_eq rfl hexchanged.varies hchecks))
  obtain ⟨hlowered, C, hlike⟩ := (ProgramVaries.of_forall₂ hexchanged.varies).lower false
    nofun hchecks hchecks' hhosts.hostsMatch hc.lowered
  have hsuccess := (hreadable.success_iff filename bank).mpr ⟨hchecks', hlowered⟩
  have hc' := compile_accepted hsuccess
  refine ⟨hsuccess,
    ⟨_, _, hc.bytecode ▸ Bytecode.decode_encode _, hc'.bytecode ▸ Bytecode.decode_encode _,
    hlike.instructions.symm⟩, ?_, ?_⟩
  · rw [hc.sequences, hc'.sequences, List.map_map, List.map_map, SequenceInit.unnamed_comp_shift,
      SequenceInit.unnamed_comp_shift]
    exact hlike.sequences.symm
  · rw [hc.samples, hc'.samples, hlike.samples]

theorem RenamedTo.of_chars (hsource : source.toList = cs) (hsource' : source'.toList = cs')
    (h : let whole cs := Preamble.characters.1 ++ ['\n'] ++ cs
      let tokens cs := (pieces .origin (whole cs)).filterMap Piece.token?
      x ∈ ((turns (tokens cs)).filterMap Turn.statement?).filterMap Statement.assigned? ∧
        (∀ t ∈ tokens cs, t.kind ≠ .ident y) ∧ (Scan.ofChars (whole cs')).findings = [] ∧
        (tokens cs').map Token.kind = renameVariable x y (tokens cs)) :
    RenamedTo x y source source' := by
  have hchars := LinkedSource.standard_toList hsource
  have hchars' := LinkedSource.standard_toList hsource'
  obtain ⟨hassigned, hfresh, hclean, hkinds⟩ := h
  refine ⟨?_, ?_, ?_, ?_⟩
  · rwa [LinkedSource.program_eq, tokensOf, hchars]
  · rwa [tokensOf, hchars]
  · rwa [scan_of_toList hchars']
  · rwa [tokensOf, tokensOf, hchars, hchars']

def inverted : String :=
  "fn lift(sig, cut = 2) -> sig * cut\nroom = 3\ncut = -lp(saw(pat(\"c3 [e3 g3]\")), 400)\nlift(cut, cut: room) |> out(%)"

/-- The sign in the assignment itself calls the function. -/
def invertedNeg : String :=
  "fn lift(sig, cut = 2) -> sig * cut\nroom = 3\nneg = -lp(saw(pat(\"c3 [e3 g3]\")), 400)\nlift(neg, cut: room) |> out(%)"

theorem compile_inverted : (compile inverted "lead" .drums).success :=
  compile_success String.toList_ofList (by simp) (by decide +kernel)

theorem inverted_renamedTo : RenamedTo "cut" "neg" inverted invertedNeg :=
  .of_chars String.toList_ofList String.toList_ofList (by decide +kernel)

theorem inverted_renamable : Renamable "cut" "neg" (LinkedSource.standard inverted).program := by
  have hchars : (LinkedSource.standard inverted).text.toList = _ :=
    LinkedSource.standard_toList String.toList_ofList
  rw [LinkedSource.program_eq, tokensOf, hchars]
  exact ⟨by decide +kernel, fun _ => by decide +kernel⟩

theorem inverted_renamed :
    (compile inverted "lead" .drums).success ∧ RenamedTo "cut" "neg" inverted invertedNeg ∧
    Renamable "cut" "neg" (LinkedSource.standard inverted).program ∧
    (compile invertedNeg "lead" .drums).success ∧
    (compile inverted "lead" .drums).SameUnnamed (compile invertedNeg "lead" .drums) :=
  ⟨compile_inverted, inverted_renamedTo, inverted_renamable,
    compile_renamed _ _ _ _ _ _ compile_inverted inverted_renamedTo inverted_renamable⟩

theorem compile_fails {filename : String} {bank : SampleRegistry} (hsource : source.toList = cs)
    (h :
      (parse (Scan.ofChars (Preamble.characters.1 ++ ['\n'] ++ cs)).tokens).patch.resolve.success =
        false) :
    (compile source filename bank).success = false := by
  refine Bool.eq_false_iff.mpr fun hsuccess => ?_
  have hresolved := (compile_accepted hsuccess).resolved
  rw [LinkedSource.patch, scan_of_toList (LinkedSource.standard_toList hsource), h] at hresolved
  cases hresolved

structure BrokenBy (x y source source' : String) : Prop where
  success : (compile source "patch" .drums).success
  renamed : RenamedTo x y source source'
  failure : (compile source' "patch" .drums).success = false

/-- A sign behind the assignment takes the new name for its function, and a name with the
fingerprint of another variable is taken for that. -/
theorem newName_breaks : BrokenBy "x" "neg" "x = 2\nout(-x)" "neg = 2\nout(-neg)" ∧
    BrokenBy "x" "yacxa" "glbvs = 1\nx = 2\nout(glbvs + x)"
      "glbvs = 1\nyacxa = 2\nout(glbvs + yacxa)" := by
  refine ⟨⟨?_, ?_, ?_⟩, ⟨?_, ?_, ?_⟩⟩
  · exact compile_success String.toList_ofList (by simp) (by decide +kernel)
  · exact .of_chars String.toList_ofList String.toList_ofList (by decide +kernel)
  · exact compile_fails String.toList_ofList (by decide +kernel)
  · exact compile_success String.toList_ofList (by simp) (by decide +kernel)
  · exact .of_chars String.toList_ofList String.toList_ofList (by decide +kernel)
  · exact compile_fails String.toList_ofList (by decide +kernel)

end SignalPatch
