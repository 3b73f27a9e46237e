import SignalPatch.Proofs.Coordinates

/-!
# Scanning on both sides of the boundary

The newline behind a preamble ends every lexeme, whatever the preamble leaves open. So a joined text
is scanned in two parts: what starts before the boundary is what the preamble and its newline give
alone, and what starts behind it is what the user's text gives alone, moved by the bytes and lines
of the boundary.
-/

namespace SignalPatch

open Pattern (byteLength)

/-- The parts of a list that start before the boundary and behind it, one after the other. -/
structure Boundary.Divides (b : Boundary) (start : α → Nat) (xs before behind : List α) : Prop where
  joined : xs = before ++ behind
  ahead : xs.filter (fun x => b.contains (start x)) = before
  beyond : xs.filter (fun x => !b.contains (start x)) = behind

theorem Boundary.divides_append (b : Boundary) {start : α → Nat} {before behind : List α}
    (hbefore : ∀ x ∈ before, b.contains (start x))
    (hbehind : ∀ x ∈ behind, b.contains (start x) = false) :
    b.Divides start (before ++ behind) before behind := by
  refine ⟨rfl, ?_, ?_⟩
  · rw [List.filter_append, List.filter_eq_self.mpr hbefore,
      List.filter_eq_nil_iff.mpr, List.append_nil]
    intro x hx
    simp [hbehind x hx]
  · rw [List.filter_append, List.filter_eq_nil_iff.mpr, List.nil_append, List.filter_eq_self.mpr]
    · intro x hx
      simp [hbehind x hx]
    · intro x hx
      simp [hbefore x hx]

namespace LinkedSource

variable (linked : LinkedSource)

def opening : String := linked.preamble ++ "\n"

theorem opening_eq : linked.opening = (LinkedSource.mk linked.preamble "").text := by
  rw [opening, text, String.append_empty]

theorem byteLength_opening : byteLength linked.opening.toList = linked.boundary.bytes := by
  rw [opening, String.toList_append, byteLength_append, boundary, Boundary.behind, utf8ByteSize_eq]
  rfl

theorem opening_tokens :
    (scan linked.opening).tokens.dropLast = tokensOf linked.preamble ++ [linked.joint] := by
  have hempty : tokensOf "" = [] := by
    rw [tokensOf, String.toList_empty, pieces_nil, List.filterMap_nil]
  rw [SignalPatch.scan_tokens, List.dropLast_concat, opening_eq, tokensOf_text,
    hempty, List.map_nil]
  rfl

theorem opening_findings : (scan linked.opening).findings = (scan linked.preamble).findings := by
  have hempty : (scan "").findings = [] := by
    simp only [scan, String.toList_empty, Scan.ofChars, pieces_nil, List.filterMap_nil]
  rw [opening_eq, scan_findings, hempty, List.map_nil, List.append_nil]

theorem contains_of_liesIn {s : Span} (h : s.LiesIn linked.preamble.toList) :
    linked.boundary.contains s.offset := by
  have hstop : s.offset + s.length ≤ byteLength linked.preamble.toList := h.stop
  have hbytes := linked.byteLength_opening
  rw [opening, String.toList_append, byteLength_append] at hbytes
  have hnewline : byteLength "\n".toList = 1 := rfl
  simp only [Boundary.contains, decide_eq_true_eq]
  omega

theorem contains_joint : linked.boundary.contains linked.joint.span.offset := by
  have hoffset : linked.joint.span.offset = linked.preamble.utf8ByteSize := by
    rw [joint, Position.spanTo, Position.offset_after, utf8ByteSize_eq]
    exact Nat.zero_add _
  rw [hoffset]
  exact decide_eq_true (Nat.lt_succ_self _)

theorem tokens_divide : linked.boundary.Divides (·.span.offset) (scan linked.text).tokens
    (scan linked.opening).tokens.dropLast
      ((scan linked.user).tokens.map (.move linked.boundary)) := by
  rw [opening_tokens, scan_tokens, List.append_cons]
  refine linked.boundary.divides_append (fun t ht => ?_) fun t ht => ?_
  · rcases List.mem_append.mp ht with ht | ht
    · exact linked.contains_of_liesIn (pieces_lieIn [] _ _ (mem_tokensOf ht)).span
    · rw [List.mem_singleton.mp ht]
      exact linked.contains_joint
  · obtain ⟨t, -, rfl⟩ := List.mem_map.mp ht
    exact linked.boundary.contains_move t.span

theorem findings_divide : linked.boundary.Divides (·.span.offset) (scan linked.text).findings
    (scan linked.opening).findings ((scan linked.user).findings.map (.move linked.boundary)) := by
  rw [opening_findings, scan_findings]
  refine linked.boundary.divides_append (fun f hf => ?_) fun f hf => ?_
  · exact linked.contains_of_liesIn (scan_findings_lieIn _ f hf)
  · obtain ⟨f, -, rfl⟩ := List.mem_map.mp hf
    exact linked.boundary.contains_move f.span

/-- A joined text is scanned as its two parts are, and the messages about the user's text are those
that it gives alone. -/
structure ScansApart (filename : String) : Prop where
  tokens : linked.boundary.Divides (·.span.offset) (scan linked.text).tokens
    (scan linked.opening).tokens.dropLast ((scan linked.user).tokens.map (.move linked.boundary))
  findings : linked.boundary.Divides (·.span.offset) (scan linked.text).findings
    (scan linked.opening).findings ((scan linked.user).findings.map (.move linked.boundary))
  messages : relocated linked.boundary filename
      ((scan linked.text).findings.filter fun f => !linked.boundary.contains f.span.offset) =
    (scan linked.user).findings.map (Finding.diagnostic filename)

theorem scansApart (filename : String) : linked.ScansApart filename := by
  refine ⟨linked.tokens_divide, linked.findings_divide, ?_⟩
  rw [linked.findings_divide.beyond]
  exact relocated_move _ _ (scan_isSyntactic _)

end LinkedSource

end SignalPatch
