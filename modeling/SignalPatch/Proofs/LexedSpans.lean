import Mathlib.Data.List.Induction
import Mathlib.Data.List.Nodup
import Mathlib.Data.String.Basic
import SignalPatch.Proofs.Linking

/-!
# The spans of a scan

Scanning accounts for every character of a text once: for those of a token or a fault by its span,
and for blanks and comments by the gap between two spans. A text is cut into lexemes from the front
(`Cut`); when blank lexemes are taken as gaps, what is left are the spans, each of them behind the
one before (`Partition`).
-/

namespace SignalPatch

open Pattern (byteLength)

/-! ## Points of a text -/

def textBetween (source : String) (start stop : Nat) : String :=
  String.Pos.Raw.extract source ⟨start⟩ ⟨stop⟩

def lineBehind (before : List Char) : Nat := before.count '\n' + 1

/-- The column of the point behind `before`: the characters since the last newline are before it. -/
def columnBehind (before : List Char) : Nat := (before.reverse.takeWhile (· != '\n')).length + 1

theorem utf8Len_eq (cs : List Char) : String.utf8Len cs = byteLength cs := by
  induction cs with
  | nil => rfl
  | cons c cs ih => simp [ih, Nat.add_comm]

theorem byteLength_pos (h : cs ≠ []) : 0 < byteLength cs := by
  obtain ⟨c, cs, rfl⟩ := List.exists_cons_of_ne_nil h
  rw [byteLength_cons]
  exact Nat.add_pos_left c.utf8Size_pos _

theorem textBetween_eq (h : source.toList = before ++ cs ++ behind) :
    textBetween source (byteLength before) (byteLength (before ++ cs)) = String.ofList cs := by
  have hextract := String.extract_of_valid before cs behind
  rw [← h, String.ofList_toList, utf8Len_eq, utf8Len_eq, ← byteLength_append] at hextract
  exact hextract

theorem isValid_byteLength (h : source.toList = before ++ behind) :
    String.Pos.Raw.IsValid source ⟨byteLength before⟩ := by
  refine String.Pos.Raw.isValid_iff_exists_append.mpr
    ⟨String.ofList before, String.ofList behind, ?_, ?_⟩
  · rw [← String.ofList_append, ← h, String.ofList_toList]
  · rw [String.rawEndPos, utf8ByteSize_eq, String.toList_ofList]

theorem Position.origin_after (before : List Char) :
    Position.origin.after before = ⟨lineBehind before, columnBehind before, byteLength before⟩ := by
  induction before using List.reverseRecOn with
  | nil => rfl
  | append_singleton before c ih =>
    rw [after_append, ih, after_cons, after_nil, advance]
    by_cases hc : c = '\n' <;> simp [hc, lineBehind, columnBehind, Nat.add_comm]

/-! ## Gaps -/

/-- Spaces, tabs, carriage returns, and comments up to the end of their line, in front of `rest`. -/
inductive IsGap : List Char → List Char → Prop
  | nil : IsGap [] rest
  | space : c = ' ' ∨ c = '\t' ∨ c = '\r' → IsGap gap rest → IsGap (c :: gap) rest
  | comment : '\n' ∉ body → (gap ++ rest).head?.all (· = '\n') → IsGap gap rest →
      IsGap ('/' :: '/' :: (body ++ gap)) rest

theorem IsGap.append (h : IsGap gap (more ++ rest)) (hmore : IsGap more rest) :
    IsGap (gap ++ more) rest := by
  generalize hbehind : more ++ rest = behind at h
  induction h with
  | nil => exact hmore
  | space hc _ ih => exact .space hc (ih hbehind)
  | @comment body gap _ hbody hend _ ih =>
    rw [List.cons_append, List.cons_append, List.append_assoc]
    refine .comment hbody ?_ (ih hbehind)
    rwa [List.append_assoc, hbehind]

namespace Lexeme

theorem takeWhile_length_eq {p : Char → Bool} {xs ys : List Char}
    (h : ((xs ++ ys).takeWhile p).length = xs.length) :
    (xs ++ ys).takeWhile p = xs ∧ ys.takeWhile p = [] := by
  have htaken : (xs ++ ys).takeWhile p = xs :=
    (List.prefix_of_prefix_length_le (List.takeWhile_prefix p) (List.prefix_append xs ys)
      h.le).eq_of_length h
  refine ⟨htaken, ?_⟩
  have hall : ∀ x ∈ xs, p x := by
    rw [← htaken]
    exact List.all_eq_true.mp List.all_takeWhile
  rw [List.takeWhile_append_of_pos hall] at htaken
  simpa using htaken

theorem quoted_ne_blank (cs : List Char) : (quoted cs).1 ≠ .blank := by
  unfold quoted
  dsimp only
  split <;> nofun

theorem numeral_ne_blank (c : Char) (cs : List Char) : (numeral c cs).1 ≠ .blank := by
  unfold numeral
  dsimp only
  repeat' split
  all_goals nofun

theorem comment_isGap (hhead : (tail ++ rest).head? = some '/')
    (h : ((tail ++ rest).takeWhile (· != '\n')).length = tail.length) :
    IsGap ('/' :: tail) rest := by
  obtain ⟨htail, hrest⟩ := takeWhile_length_eq h
  have hline : '\n' ∉ tail := by
    rw [← htail]
    intro hmem
    simpa using List.all_eq_true.mp List.all_takeWhile _ hmem
  cases tail with
  | nil =>
    obtain ⟨more, rfl⟩ := List.head?_eq_some_iff.mp hhead
    simp at hrest
  | cons c body =>
    obtain rfl : c = '/' := by simpa using hhead
    have hend : rest.head?.all (· = '\n') := by
      cases rest with
      | nil => rfl
      | cons c rest => simpa [List.takeWhile_cons] using hrest
    have hgap : IsGap ('/' :: '/' :: (body ++ [])) rest :=
      .comment (fun hmem => hline (List.mem_cons_of_mem _ hmem)) hend .nil
    rwa [List.append_nil] at hgap

theorem first_isGap (h : first c (tail ++ rest) = (.blank, tail.length)) :
    IsGap (c :: tail) rest := by
  unfold first at h
  split at h
  · rename_i hc
    obtain rfl : tail = [] := List.length_eq_zero_iff.mp (Prod.mk.inj h).2.symm
    exact .space hc .nil
  split at h
  · rename_i hcomment
    obtain ⟨rfl, hhead⟩ := hcomment
    exact comment_isGap hhead (Prod.mk.inj h).2
  -- all other lexemes are tokens or faults
  exfalso
  split at h
  · cases h
  split at h
  · split at h <;> cases h
  split at h
  · split at h <;> cases h
  split at h
  · exact quoted_ne_blank _ (congrArg Prod.fst h)
  split at h
  · exact numeral_ne_blank _ _ (congrArg Prod.fst h)
  split at h <;> cases h

end Lexeme

/-! ## Lexemes one after the other -/

def spanBehind (before taken : List Char) : Span :=
  (Position.origin.after before).spanTo (.after .origin (before ++ taken))

theorem spanBehind_offset (before taken : List Char) :
    (spanBehind before taken).offset = byteLength before := by
  simp [spanBehind, Position.spanTo, Position.origin_after]

theorem spanBehind_stop (before taken : List Char) :
    (spanBehind before taken).stop = byteLength (before ++ taken) := by
  simp [spanBehind, Span.stop, Position.spanTo, Position.origin_after]

theorem spanBehind_length (before taken : List Char) :
    (spanBehind before taken).length = byteLength taken := by
  simp [spanBehind, Position.spanTo, Position.origin_after]

/-- The lexemes of a text behind `before`. Each takes its characters from the front of what is
left. -/
inductive Cut : List Char → List Char → List Piece → Prop
  | nil : Cut before [] []
  | cons : Lexeme.first c (tail ++ rest) = (lexeme, tail.length) →
      Cut (before ++ c :: tail) rest found →
      Cut before (c :: tail ++ rest) (⟨lexeme, spanBehind before (c :: tail)⟩ :: found)

theorem pieces_cut (before cs : List Char) : Cut before cs (pieces (.after .origin before) cs) := by
  cases cs with
  | nil =>
    rw [pieces_nil]
    exact .nil
  | cons c cs =>
    -- the lexeme takes `c` and the counted characters behind it, and what it leaves is shorter
    have hlength : (cs.take (Lexeme.first c cs).2).length = (Lexeme.first c cs).2 := by
      rw [List.length_take]
      exact Nat.min_eq_left (Lexeme.first_length_le c cs)
    have hfirst : Lexeme.first c (cs.take (Lexeme.first c cs).2 ++ cs.drop (Lexeme.first c cs).2) =
        ((Lexeme.first c cs).1, (cs.take (Lexeme.first c cs).2).length) := by
      rw [List.take_append_drop, hlength]
    have hcut : Cut before _ _ := .cons hfirst (pieces_cut _ _)
    rw [List.cons_append, List.take_append_drop] at hcut
    rw [pieces_cons, ← Position.after_append]
    exact hcut
termination_by cs.length
decreasing_by exact drop_length_lt _ c cs

theorem Cut.length_pos (h : Cut before rest found) (hpiece : piece ∈ found) :
    0 < piece.span.length := by
  induction h with
  | nil => cases hpiece
  | cons _ _ ih =>
    rcases List.mem_cons.mp hpiece with rfl | hpiece
    · rw [spanBehind_length]
      exact byteLength_pos (List.cons_ne_nil _ _)
    · exact ih hpiece

/-! ## Spans one after the other -/

def GapBetween (source : String) (a b : Span) : Prop :=
  IsGap (textBetween source a.stop b.offset).toList
    (textBetween source b.offset source.utf8ByteSize).toList

theorem GapBetween.of_split (h : source.toList = before ++ gap ++ rest) (hgap : IsGap gap rest)
    (ha : a.stop = byteLength before) (hb : b.offset = byteLength (before ++ gap)) :
    GapBetween source a b := by
  have hrest : source.toList = before ++ gap ++ rest ++ [] := by simp [h]
  rw [GapBetween, ha, hb, textBetween_eq h, utf8ByteSize_eq, h, textBetween_eq hrest,
    String.toList_ofList, String.toList_ofList]
  exact hgap

/-- Spans that account for a text behind `before`: a gap is in front of each, and the last is empty
and at the end of the text. -/
inductive Partition : List Char → List Char → List Span → Prop
  | finish : IsGap gap [] → Partition before gap [spanBehind (before ++ gap) []]
  | cons : IsGap gap (taken ++ rest) → taken ≠ [] → Partition (before ++ gap ++ taken) rest spans →
      Partition before (gap ++ (taken ++ rest)) (spanBehind (before ++ gap) taken :: spans)

namespace Partition

theorem behind_gap (hgap : IsGap gap rest) (h : Partition (before ++ gap) rest spans) :
    Partition before (gap ++ rest) spans := by
  cases h with
  | @finish more _ hmore =>
    rw [List.append_assoc]
    exact .finish (.append (by rwa [List.append_nil]) hmore)
  | @cons more taken rest _ spans hmore htaken h =>
    rw [List.append_assoc before] at h ⊢
    rw [← List.append_assoc gap]
    exact .cons (hgap.append hmore) htaken h

theorem behind_nothing (htaken : taken ≠ []) (h : Partition (before ++ taken) rest spans) :
    Partition before (taken ++ rest) (spanBehind before taken :: spans) := by
  have hpartition : Partition before ([] ++ (taken ++ rest)) _ :=
    .cons .nil htaken (by rwa [List.append_nil])
  rwa [List.append_nil] at hpartition

theorem mem (h : Partition before rest spans) (ha : a ∈ spans) :
    ∃ ahead taken behind, before ++ rest = ahead ++ taken ++ behind ∧
      a = spanBehind ahead taken := by
  induction h with
  | finish => exact ⟨_, [], [], by simp, List.mem_singleton.mp ha⟩
  | @cons gap taken rest before spans _ _ _ ih =>
    rcases List.mem_cons.mp ha with rfl | ha
    · exact ⟨before ++ gap, taken, rest, by simp, rfl⟩
    · simpa using ih ha

theorem offset_ge (h : Partition before rest spans) (ha : a ∈ spans) :
    byteLength before ≤ a.offset := by
  induction h with
  | finish =>
    rw [List.mem_singleton.mp ha, spanBehind_offset, byteLength_append]
    exact Nat.le_add_right _ _
  | cons _ _ _ ih =>
    rcases List.mem_cons.mp ha with rfl | ha
    · rw [spanBehind_offset, byteLength_append]
      exact Nat.le_add_right _ _
    · have hbehind := ih ha
      simp only [byteLength_append] at hbehind
      omega

theorem pairwise (h : Partition before rest spans) :
    spans.Pairwise fun a b => a.offset < b.offset ∧ a.stop ≤ b.offset := by
  induction h with
  | finish => exact List.pairwise_singleton _ _
  | @cons gap taken rest before spans _ htaken h ih =>
    refine List.pairwise_cons.mpr ⟨fun b hb => ?_, ih⟩
    have hstop := h.offset_ge hb
    have hpos : 0 < byteLength taken := byteLength_pos htaken
    rw [spanBehind_offset, spanBehind_stop]
    refine ⟨?_, hstop⟩
    rw [byteLength_append] at hstop
    omega

theorem gaps (h : Partition before rest spans) (hsource : source.toList = before ++ rest)
    (hprev : prev.stop = byteLength before) : (prev :: spans).IsChain (GapBetween source) := by
  induction h generalizing prev with
  | finish hgap =>
    refine List.isChain_cons_cons.mpr ⟨?_, .singleton _⟩
    exact .of_split (by simp [hsource]) hgap hprev (spanBehind_offset _ _)
  | cons hgap _ _ ih =>
    refine List.isChain_cons_cons.mpr ⟨?_, ih (by simp [hsource]) (spanBehind_stop _ _)⟩
    exact .of_split (by simp [hsource]) hgap hprev (spanBehind_offset _ _)

end Partition

def Piece.mark? (piece : Piece) : Option Span :=
  match piece.lexeme with
  | .blank => none
  | _ => some piece.span

theorem Cut.partition (h : Cut before rest found) :
    Partition before rest (found.filterMap Piece.mark? ++ [spanBehind (before ++ rest) []]) := by
  induction h with
  | nil => exact .finish .nil
  | @cons c tail rest lexeme before found hfirst _ ih =>
    rw [List.append_assoc] at ih
    -- a blank lexeme joins the gap in front of the next span, any other has a span of its own
    cases lexeme with
    | blank => exact .behind_gap (Lexeme.first_isGap hfirst) ih
    | token kind => exact .behind_nothing (List.cons_ne_nil _ _) ih
    | fault issue => exact .behind_nothing (List.cons_ne_nil _ _) ih

/-! ## The spans of a scan -/

/-- The places of the tokens and of the findings, in the order of their offsets. -/
def Scan.spans (s : Scan) : List Span :=
  (s.tokens.map (·.span) ++ s.findings.map (·.span)).mergeSort fun a b => a.offset ≤ b.offset

theorem marks_perm (found : List Piece) :
    ((found.filterMap Piece.token?).map (·.span) ++
      (found.filterMap Piece.finding?).map (·.span)).Perm (found.filterMap Piece.mark?) := by
  induction found with
  | nil => exact .nil
  | cons piece found ih =>
    obtain ⟨lexeme, span⟩ := piece
    cases lexeme with
    | blank => exact ih
    | token kind => exact ih.cons span
    | fault issue => exact List.perm_middle.trans (ih.cons span)

theorem mergeSort_eq_of_pairwise {spans sorted : List Span} (hperm : spans.Perm sorted)
    (hsorted : sorted.Pairwise fun a b => a.offset < b.offset) :
    spans.mergeSort (fun a b => a.offset ≤ b.offset) = sorted := by
  have hle : sorted.Pairwise fun a b => decide (a.offset ≤ b.offset) = true :=
    hsorted.imp fun h => decide_eq_true h.le
  have hmerged : (spans.mergeSort fun a b => a.offset ≤ b.offset).Pairwise _ :=
    List.pairwise_mergeSort (by simpa using fun _ _ _ => Nat.le_trans)
      (by simpa using fun _ _ => Nat.le_total _ _) _
  refine List.Perm.eq_of_pairwise ?_ hmerged hle ((List.mergeSort_perm _ _).trans hperm)
  -- equal offsets could be sorted either way, but no two of the spans have them
  intro a b ha hb hab hba
  have hoffsets : (sorted.map (·.offset)).Nodup :=
    List.pairwise_map.mpr (hsorted.imp fun h => h.ne)
  have ha : a ∈ sorted := ((List.mergeSort_perm _ _).trans hperm).mem_iff.mp ha
  refine List.inj_on_of_nodup_map hoffsets ha hb (Nat.le_antisymm ?_ ?_)
  · exact of_decide_eq_true hab
  · exact of_decide_eq_true hba

theorem scan_spans_perm (source : String) :
    ((scan source).tokens.map (·.span) ++ (scan source).findings.map (·.span)).Perm
      ((pieces .origin source.toList).filterMap Piece.mark? ++ [spanBehind source.toList []]) := by
  have hend : spanBehind source.toList [] = endOf source := by simp [spanBehind, endOf]
  rw [scan_tokens, List.map_append, List.append_assoc, hend]
  -- the end is the last token, and so it stands before the findings
  refine (List.perm_append_comm.append_left _).trans ?_
  rw [← List.append_assoc]
  exact (marks_perm _).append_right _

theorem scan_partition (source : String) : Partition [] source.toList (scan source).spans := by
  have hpartition := (pieces_cut [] source.toList).partition
  have hspans : (scan source).spans = _ :=
    mergeSort_eq_of_pairwise (scan_spans_perm source) (hpartition.pairwise.imp And.left)
  rw [hspans]
  exact hpartition

/-- How a scan accounts for a text. -/
structure Scan.Partitions (s : Scan) (source : String) : Prop where
  finish : ∃ ts stop, s.tokens = ts ++ [⟨.finish, stop⟩] ∧ (∀ t ∈ ts, t.kind ≠ .finish) ∧
    stop.offset = source.utf8ByteSize ∧ stop.length = 0
  tokens : ∀ t ∈ s.tokens, t.kind ≠ .finish → 0 < t.span.length
  findings : ∀ f ∈ s.findings, 0 < f.span.length
  apart : s.spans.Pairwise fun a b => a.offset < b.offset ∧ a.stop ≤ b.offset
  boundaries : ∀ a ∈ s.spans, String.Pos.Raw.IsValid source ⟨a.offset⟩ ∧
    String.Pos.Raw.IsValid source ⟨a.stop⟩
  gaps : (Span.origin :: s.spans).IsChain (GapBetween source)
  places : ∀ a ∈ s.spans, a.line = lineBehind (textBetween source 0 a.offset).toList ∧
    a.column = columnBehind (textBetween source 0 a.offset).toList

theorem spanBehind_boundaries (h : source.toList = ahead ++ taken ++ behind) :
    String.Pos.Raw.IsValid source ⟨(spanBehind ahead taken).offset⟩ ∧
      String.Pos.Raw.IsValid source ⟨(spanBehind ahead taken).stop⟩ := by
  rw [spanBehind_offset, spanBehind_stop]
  exact ⟨isValid_byteLength (by rw [h, List.append_assoc]), isValid_byteLength h⟩

theorem spanBehind_place (h : source.toList = ahead ++ taken ++ behind) :
    (spanBehind ahead taken).line = lineBehind
      (textBetween source 0 (spanBehind ahead taken).offset).toList ∧
      (spanBehind ahead taken).column =
        columnBehind (textBetween source 0 (spanBehind ahead taken).offset).toList := by
  have hsplit : source.toList = [] ++ ahead ++ (taken ++ behind) := by simp [h]
  have hahead : textBetween source 0 (byteLength ahead) = String.ofList ahead :=
    textBetween_eq hsplit
  rw [spanBehind_offset, hahead, String.toList_ofList, spanBehind, Position.origin_after]
  exact ⟨rfl, rfl⟩

theorem scan_partitions (source : String) : (scan source).Partitions source := by
  have hcut := pieces_cut [] source.toList
  have hpartition := scan_partition source
  refine ⟨⟨tokensOf source, endOf source, rfl, tokensOf_ne_finish source, ?_, ?_⟩, ?_, ?_,
    hpartition.pairwise, ?_, hpartition.gaps rfl rfl, ?_⟩
  · simp [endOf, Position.spanTo, Position.origin_after, utf8ByteSize_eq]
  · simp [endOf, Position.spanTo]
  · intro t ht hkind
    rw [scan_tokens] at ht
    rcases List.mem_append.mp ht with ht | ht
    · exact hcut.length_pos (mem_tokensOf ht)
    · rw [List.mem_singleton.mp ht] at hkind
      exact absurd rfl hkind
  · intro f hf
    exact hcut.length_pos (mem_scan_findings hf)
  · intro a ha
    obtain ⟨ahead, taken, behind, htext, rfl⟩ := hpartition.mem ha
    exact spanBehind_boundaries htext
  · intro a ha
    obtain ⟨ahead, taken, behind, htext, rfl⟩ := hpartition.mem ha
    exact spanBehind_place htext

end SignalPatch
