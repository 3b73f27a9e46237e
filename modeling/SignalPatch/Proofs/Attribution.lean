import Mathlib.Data.List.Induction
import SignalPatch.Proofs.MessagePlaces

/-!
# The files of messages

A message about the joined text belongs to the preamble or to the user's file. Moved there, its
place is counted from the start of that file: `compile_attributed` says so for every message and
every note.
-/

namespace SignalPatch

open Pattern (byteLength)

/-- Right after `before`: bytes, lines and the characters of the last line are counted. -/
structure Span.StartsBehind (s : Span) (before : String) : Prop where
  offset : s.offset = before.utf8ByteSize
  line : s.line = 1 + before.toList.count '\n'
  column : s.column = 1 + (before.toList.reverse.takeWhile (· != '\n')).length

def Span.StartsIn (s : Span) (text : String) : Prop :=
  ∃ before rest, text = before ++ rest ∧ s.StartsBehind before

structure Span.FitsIn (s : Span) (text : String) : Prop where
  starts : s.StartsIn text
  stops : s.offset + s.length ≤ text.utf8ByteSize

/-- A place of the user's text under the name of its file, or one of the preamble. The user's file
may bear the name of the preamble; only then the name does not tell which it is. -/
inductive LinkedSource.Attributed (linked : LinkedSource) (filename : String) : String → Span → Prop
  | user : s.FitsIn linked.user → Attributed linked filename filename s
  | preamble : s.StartsIn linked.preamble → Attributed linked filename Preamble.filename s

theorem LinkedSource.Attributed.fitsIn_user (h : LinkedSource.Attributed linked filename name s)
    (hfilename : filename ≠ Preamble.filename) (hname : name = filename) :
    s.FitsIn linked.user := by
  cases h with
  | user hfits => exact hfits
  | preamble => exact absurd hname.symm hfilename

/-! ## Counting -/

theorem Position.column_after (cs : List Char) :
    (Position.origin.after cs).column = 1 + (cs.reverse.takeWhile (· != '\n')).length := by
  induction cs using List.reverseRecOn with
  | nil => rfl
  | append_singleton cs c ih =>
    rw [Position.after_append, Position.after_cons, Position.after_nil, Position.advance,
      List.reverse_append, List.reverse_singleton, List.singleton_append, List.takeWhile_cons]
    by_cases hc : c = '\n'
    · simp [hc]
    · simp [hc, ih, Nat.add_assoc]

theorem Span.StartsBehind.of_after {s : Span} (h : s.start = Position.origin.after before) :
    s.StartsBehind (.ofList before) := by
  obtain ⟨line, column, offset, length⟩ := s
  have hoffset : offset = _ := congrArg Position.offset h
  have hline : line = _ := congrArg Position.line h
  have hcolumn : column = _ := congrArg Position.column h
  refine ⟨?_, ?_, ?_⟩
  · rw [hoffset, Position.offset_after, utf8ByteSize_eq, String.toList_ofList]
    exact Nat.zero_add _
  · rw [hline, Position.line_after, String.toList_ofList]
    rfl
  · rw [hcolumn, Position.column_after, String.toList_ofList]

theorem Span.StartsIn.of_after {s : Span} {text : String} (hbefore : before <+: text.toList)
    (h : s.start = Position.origin.after before) : s.StartsIn text := by
  obtain ⟨rest, hrest⟩ := hbefore
  refine ⟨.ofList before, .ofList rest, ?_, .of_after h⟩
  apply String.toList_inj.mp
  simp [hrest]

/-! ## The two files -/

variable {linked : LinkedSource}

theorem LinkedSource.byteLength_text (linked : LinkedSource) :
    byteLength linked.text.toList = byteLength linked.user.toList + linked.boundary.bytes := by
  rw [linked.text_toList, LinkedSource.boundary, Boundary.behind, utf8ByteSize_eq]
  simp [Char.utf8Size]
  omega

theorem LinkedSource.point_cases (h : before <+: linked.text.toList) :
    (before <+: linked.preamble.toList ∧ byteLength before < linked.boundary.bytes) ∨
      ∃ own, own <+: linked.user.toList ∧
        Position.origin.after before = linked.boundary.movePosition (.after .origin own) := by
  have hpreamble : byteLength linked.preamble.toList < linked.boundary.bytes := by
    rw [LinkedSource.boundary, Boundary.behind, utf8ByteSize_eq]
    exact Nat.lt_succ_self _
  obtain ⟨rest, hrest⟩ := h
  rw [linked.text_toList, List.append_eq_append_iff] at hrest
  rcases hrest with ⟨more, hmore, -⟩ | ⟨own, rfl, hown⟩
  · have hbefore : before <+: linked.preamble.toList := ⟨more, hmore.symm⟩
    exact .inl ⟨hbefore, Nat.lt_of_le_of_lt (byteLength_le_of_isPrefix hbefore) hpreamble⟩
  · cases own with
    | nil =>
      rw [List.append_nil]
      exact .inl ⟨List.prefix_rfl, hpreamble⟩
    | cons c own =>
      obtain ⟨rfl, huser⟩ := List.cons.inj hown
      refine .inr ⟨own, ⟨rest, huser.symm⟩, ?_⟩
      rw [← Boundary.after_movePosition, LinkedSource.boundary, ← Boundary.after_behind,
        ← Position.after_append, List.append_assoc, List.singleton_append]

theorem LinkedSource.relocate_attributed (h : Span.LiesIn s linked.text.toList)
    (filename : String) :
    linked.Attributed filename (linked.boundary.filename filename s.offset)
      (linked.boundary.relocate s) := by
  obtain ⟨⟨before, hbefore, hstart⟩, hstop⟩ := h
  rcases LinkedSource.point_cases hbefore with ⟨hpreamble, hlt⟩ | ⟨own, hown, hafter⟩
  · have hoffset : s.offset = byteLength before := by
      have hoffset : s.offset = _ := congrArg Position.offset hstart
      rw [hoffset, Position.offset_after]
      exact Nat.zero_add _
    have hcontains : linked.boundary.contains s.offset = true := by
      rw [hoffset]
      exact decide_eq_true hlt
    rw [Boundary.filename, Boundary.relocate, if_pos hcontains, if_pos hcontains]
    exact .preamble (.of_after hpreamble hstart)
  · -- The span is one of the user's text, moved.
    let place := Position.origin.after own
    have hs : s = linked.boundary.move ⟨place.line, place.column, place.offset, s.length⟩ := by
      rw [hafter] at hstart
      obtain ⟨line, column, offset, length⟩ := s
      cases hstart
      rfl
    rw [hs, linked.byteLength_text] at hstop
    rw [hs, Boundary.filename_move, Boundary.relocate_move]
    refine .user ⟨.of_after hown rfl, ?_⟩
    rw [utf8ByteSize_eq]
    simp only [Span.stop, Boundary.move] at hstop ⊢
    omega

/-! ## Compiled programs -/

theorem compileLinked_diagnostics (linked : LinkedSource) (filename : String)
    (bank : SampleRegistry) :
    ∃ rest, relocated linked.boundary filename ((scan linked.text).faults bank) =
        (compileLinked linked filename bank).diagnostics ++ rest ∧
      (hasErrors (compileLinked linked filename bank).diagnostics ∨ rest = []) := by
  unfold compileLinked Scan.faults relocated
  dsimp only
  simp only [List.map_append]
  split
  · rw [List.append_assoc, List.append_assoc]
    exact ⟨_, rfl, .inl ‹_›⟩
  split
  · rw [List.append_assoc]
    exact ⟨_, rfl, .inl ‹_›⟩
  split
  · exact ⟨_, rfl, .inl ‹_›⟩
  split
  · exact ⟨[], (List.append_nil _).symm, .inl ‹_›⟩
  · exact ⟨[], (List.append_nil _).symm, .inr rfl⟩

theorem faults_lieIn (source : String) (bank : SampleRegistry) :
    ∀ f ∈ (scan source).faults bank, f.LiesIn source.toList := by
  obtain ⟨hnodes, -, hresolve⟩ := Patch.resolve_stemsFrom (parse_nodes_stem source)
  simp only [Scan.faults, List.mem_append]
  rintro f (((hf | hf) | hf) | hf)
  · exact .of_span (scan_findings_lieIn source f hf) (scan_isSyntactic source f hf).notes
  · exact .of_span (parse_findings_lieIn source f hf) (parse_isSyntactic _ f hf).notes
  · exact hresolve f hf
  · exact Resolved.lower_liesIn hnodes bank f hf

theorem diagnostics_attributed (source filename : String) (bank : SampleRegistry) :
    ∀ d ∈ (compile source filename bank).diagnostics,
      (LinkedSource.standard source).Attributed filename d.filename d.span ∧
        ∀ n ∈ d.related, (LinkedSource.standard source).Attributed filename n.filename n.span := by
  unfold compile
  split
  · intro d hd
    cases List.mem_singleton.mp hd
    refine ⟨.user ⟨.of_after List.nil_prefix rfl, Nat.zero_le _⟩, fun n hn => ?_⟩
    cases hn
  · intro d hd
    obtain ⟨rest, hall, -⟩ := compileLinked_diagnostics (.standard source) filename bank
    obtain ⟨f, hf, rfl⟩ := List.mem_map.mp (hall ▸ List.mem_append_left rest hd)
    have hlies := faults_lieIn _ bank f hf
    refine ⟨LinkedSource.relocate_attributed hlies.span filename, fun n hn => ?_⟩
    obtain ⟨note, hnote, rfl⟩ := List.mem_map.mp hn
    exact LinkedSource.relocate_attributed (hlies.notes filename note hnote) filename

/-- Every message and every note has a place of the preamble, or one of the user's text under the
name of its file. Unless that name is the one of the preamble, all places under it are places of the
user's text. -/
theorem compile_attributed (source filename : String) (bank : SampleRegistry) :
    ∀ d ∈ (compile source filename bank).diagnostics,
      (LinkedSource.standard source).Attributed filename d.filename d.span ∧
        (∀ n ∈ d.related, (LinkedSource.standard source).Attributed filename n.filename n.span) ∧
        (filename ≠ Preamble.filename → (d.filename = filename → d.span.FitsIn source) ∧
          ∀ n ∈ d.related, n.filename = filename → n.span.FitsIn source) := by
  intro d hd
  obtain ⟨hplace, hnotes⟩ := diagnostics_attributed source filename bank d hd
  refine ⟨hplace, hnotes, fun hfilename => ⟨hplace.fitsIn_user hfilename, fun n hn => ?_⟩⟩
  exact (hnotes n hn).fitsIn_user hfilename

theorem compileLinked_head (h : ((scan linked.text).faults bank).head? = some f)
    (filename : String) :
    linked.boundary.relocateDiagnostic filename (f.diagnostic filename) ∈
      (compileLinked linked filename bank).diagnostics := by
  obtain ⟨rest, hall, hend⟩ := compileLinked_diagnostics linked filename bank
  obtain ⟨fs, hfs⟩ := List.head?_eq_some_iff.mp h
  rw [hfs] at hall
  generalize (compileLinked linked filename bank).diagnostics = ds at hall hend ⊢
  cases ds with
  | nil =>
    rcases hend with hend | rfl
    · cases hend
    · cases hall
  | cons d ds =>
    cases (List.cons.inj hall).1
    exact .head _

/-- The second step of the group is neither a pitch nor a sample, and what stands before it takes
more bytes than characters. -/
def accentedStep : String := "// é\nsaw(pat(\"c4 [~ é4]\"))"

theorem Preamble.behind_standard : Boundary.behind Preamble.standard = ⟨286, 8⟩ := by
  rw [Boundary.behind, utf8ByteSize_eq, Preamble.characters.2]
  decide +kernel

theorem accentedStep_attributed : ∃ d ∈ (compile accentedStep "lead" .drums).diagnostics,
    d.code = "E116" ∧ d.span = ⟨2, 16, 21, 3⟩ ∧ d.span.FitsIn accentedStep ∧
      (LinkedSource.standard accentedStep).Attributed "lead" d.filename d.span := by
  have hchars : accentedStep.toList = _ := String.toList_ofList
  have hhead : ((scan (LinkedSource.standard accentedStep).text).faults .drums).head? =
      some ⟨.badPattern (.badStep "é4"), ⟨10, 16, 307, 3⟩⟩ := by
    rw [scan_of_toList (LinkedSource.standard_toList hchars)]
    decide +kernel
  have hmem := compileLinked_head hhead "lead"
  rw [← compile_eq_compileLinked hchars (by simp)] at hmem
  obtain ⟨hplace, -, huser⟩ := compile_attributed accentedStep "lead" .drums _ hmem
  refine ⟨_, hmem, rfl, ?_, (huser (by decide)).1 ?_, hplace⟩
  all_goals
    dsimp only [Boundary.relocateDiagnostic, Finding.diagnostic, LinkedSource.boundary,
      LinkedSource.standard]
    rw [Preamble.behind_standard]
    rfl

end SignalPatch
