import SignalPatch.Proofs.BufferAccounting
import SignalPatch.Proofs.Termination

/-!
# Recursion

Functions are expanded where they are called, so a recursive one has no code. Lowering ends all the
same, on every patch that was read. On one without errors it never succeeds if a function is
recursive, and says that one is only if that is so (`parse_reportsRecursion`).
-/

namespace SignalPatch

/-- Recursion is found: it is reported only where it is, and where it is there is no code. -/
structure ReportsRecursion (R : Resolved) (bank : SampleRegistry)
    (calls : Option String → String → Prop) :
    Prop where
  reported : ∀ f ∈ (R.lower bank).findings, f.issue.code = "E203" →
    ∃ g, f.issue = .recursiveFunction g ∧ Recursive calls g
  rejected : (∃ g, Recursive calls g) → (R.lower bank).success = false

theorem Halts.reported {l l' : Lowered} (h : Halts calls cost l l') (hl : l.findings = []) :
    ∀ f ∈ l'.findings, f.issue.code = "E203" → ∃ g, f.issue = .recursiveFunction g ∧
      Recursive calls g := by
  cases h with
  | full span hf _ =>
    rw [hf, hl]
    simp [Issue.code]
  | recursive g span hf hg =>
    rw [hf, hl]
    rintro f hmem -
    obtain rfl := List.mem_singleton.mp hmem
    exact ⟨g, rfl, hg⟩
  | unusable fs hf _ hall =>
    rw [hf, hl, List.nil_append]
    intro f hmem hcode
    rcases Issue.code_of_isUnusable (hall f hmem) with h | h <;> simp [h] at hcode

theorem parse_reportsRecursion (tokens : List Token) (h : (parse tokens).patch.resolve.success)
    (bank : SampleRegistry) :
    ReportsRecursion (parse tokens).patch.resolve bank (callGraph (Grammar.statements tokens)) := by
  have hcalls := parse_resolve_callsAs tokens h
  rcases parse_resolve_charge tokens h bank with ⟨hf, hlen⟩ | hstops
  · refine ⟨fun f hmem => ?_, fun hrec => ?_⟩
    · have hmem : f ∈ ((parse tokens).patch.resolve.walked bank).findings := hmem
      rw [hf] at hmem
      cases hmem
    · -- the code that was made is finite
      rw [hcalls.need_eq_top_iff.mpr hrec] at hlen
      exact absurd hlen (ENat.natCast_ne_top _)
  · exact ⟨hstops.reported rfl, fun _ => hstops.failed⟩

/-- Lowering ends for every program, with or without errors. Of a program without errors, it reports
recursion only if there is a recursive function, and has no success if there is one. -/
theorem lower_ends_reportsRecursion (tokens : List Token) (bank : SampleRegistry) :
    LoweringEnds (parse tokens).patch.resolve bank ∧
      ((parse tokens).patch.resolve.success →
        ReportsRecursion (parse tokens).patch.resolve bank
          (callGraph (Grammar.statements tokens))) :=
  ⟨(parse_resolve_grounded tokens).ends bank, fun h => parse_reportsRecursion tokens h bank⟩

def nestedCall : List Token :=
  ([.keywordFn, .ident "f", .openParen, .ident "x", .closeParen, .arrow,
    .ident "x", .plus, .number 1,
    .newline, .ident "f", .openParen, .ident "f", .openParen, .number 1, .closeParen,
    .closeParen] : List TokenKind).map (⟨·, .origin⟩)

def mutualCalls : List Token :=
  ([.keywordFn, .ident "f", .openParen, .ident "x", .closeParen, .arrow, .ident "g",
    .openParen, .ident "x",
    .closeParen, .newline, .keywordFn, .ident "g", .openParen, .ident "x",
    .closeParen, .arrow, .ident "f",
    .openParen, .ident "x", .closeParen, .plus, .number 1, .newline, .ident "f",
    .openParen, .number 1,
    .closeParen] : List TokenKind).map (⟨·, .origin⟩)

theorem resolve_nestedCall : (parse nestedCall).patch.resolve.success ∧
    ((parse nestedCall).patch.resolve.lower .drums).success := by
  decide +kernel

theorem resolve_mutualCalls : (parse mutualCalls).patch.resolve.success := by
  decide +kernel

theorem mutualCalls_recursive : Recursive (callGraph (Grammar.statements mutualCalls)) "f" := by
  have hroot : callGraph (Grammar.statements mutualCalls) none "f" := by decide +kernel
  have hf : callGraph (Grammar.statements mutualCalls) (some "f") "g" := by decide +kernel
  have hg : callGraph (Grammar.statements mutualCalls) (some "g") "f" := by decide +kernel
  exact ⟨⟨"f", hroot, .refl⟩, .head hf (.single hg)⟩

/-- A call in an argument is no recursion; calls that lead back to a function are. -/
theorem nestedCall_mutualCalls_recursion :
    ((parse nestedCall).patch.resolve.success ∧
      ReportsRecursion (parse nestedCall).patch.resolve .drums
        (callGraph (Grammar.statements nestedCall)) ∧
      ((parse nestedCall).patch.resolve.lower .drums).success) ∧
    (parse mutualCalls).patch.resolve.success ∧
      (∃ g, Recursive (callGraph (Grammar.statements mutualCalls)) g) ∧
      ((parse mutualCalls).patch.resolve.lower .drums).success = false := by
  obtain ⟨hnested, hlowered⟩ := resolve_nestedCall
  have hmutual := (lower_ends_reportsRecursion mutualCalls .drums).2 resolve_mutualCalls
  exact ⟨⟨hnested, (lower_ends_reportsRecursion nestedCall .drums).2 hnested, hlowered⟩,
    resolve_mutualCalls, ⟨"f", mutualCalls_recursive⟩,
    hmutual.rejected ⟨"f", mutualCalls_recursive⟩⟩

end SignalPatch
