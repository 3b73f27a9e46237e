import SignalPatch.Pattern
import SignalPatch.Proofs.Linking

/-!
# Places in a text

A span lies in a text if it starts behind some of its characters, at the line and column that they
lead to, and does not reach past the end. Lexemes do, and what covers two such spans does too. So
every node of a patch lies in the text that it was read from, with numerals that have a value, and
so does every fault inside a literal.
-/

namespace SignalPatch

open Pattern (byteLength)

/-! ## Spans -/

def Span.start (s : Span) : Position := ⟨s.line, s.column, s.offset⟩

structure Span.LiesIn (s : Span) (cs : List Char) : Prop where
  start : ∃ before, before <+: cs ∧ s.start = Position.origin.after before
  stop : s.stop ≤ byteLength cs

/-- A literal of one line, between quotes. -/
structure Span.Quotes (s : Span) (value : String) (cs : List Char) : Prop where
  text : ∃ before rest, cs = before ++ '"' :: (value.toList ++ '"' :: rest) ∧
    s.start = Position.origin.after before
  oneLine : '\n' ∉ value.toList

theorem byteLength_le_of_isPrefix (h : before <+: cs) : byteLength before ≤ byteLength cs := by
  obtain ⟨rest, rfl⟩ := h
  simp

theorem length_le_byteLength (cs : List Char) : cs.length ≤ byteLength cs := by
  induction cs with
  | nil => simp
  | cons c cs ih =>
    have := c.utf8Size_pos
    simp
    omega

namespace Span.LiesIn

theorem origin (cs : List Char) : Span.origin.LiesIn cs :=
  ⟨⟨[], List.nil_prefix, rfl⟩, Nat.zero_le _⟩

theorem cover (ha : LiesIn a cs) (hb : LiesIn b cs) : (a.cover b).LiesIn cs := by
  have hstop : (a.cover b).stop = max a.stop b.stop := by
    unfold Span.cover Span.stop
    split <;> dsimp only <;> omega
  refine ⟨?_, ?_⟩
  · unfold Span.cover
    split
    · exact ha.start
    · exact hb.start
  · rw [hstop]
    exact Nat.max_le.mpr ⟨ha.stop, hb.stop⟩

theorem between (h : before ++ taken <+: cs) :
    ((Position.origin.after before).spanTo (.after .origin (before ++ taken))).LiesIn cs := by
  refine ⟨⟨before, (List.prefix_append _ _).trans h, rfl⟩, ?_⟩
  have hle := byteLength_le_of_isPrefix h
  simp only [Span.stop, Position.spanTo, Position.offset_after, Position.origin,
    byteLength_append] at hle ⊢
  omega

end Span.LiesIn

theorem Position.after_oneLine (p : Position) (h : '\n' ∉ cs) :
    p.after cs = ⟨p.line, p.column + cs.length, p.offset + byteLength cs⟩ := by
  induction cs generalizing p with
  | nil => rfl
  | cons c cs ih =>
    rw [List.mem_cons, not_or] at h
    rw [Position.after_cons, ih _ h.2, Position.advance, if_neg (Ne.symm h.1)]
    simp [Nat.add_assoc, Nat.add_comm 1]

/-! ## Tokens -/

structure Piece.LiesIn (piece : Piece) (cs : List Char) : Prop where
  span : piece.span.LiesIn cs
  text : piece.lexeme = .token (.text value) → piece.span.Quotes value cs
  number : piece.lexeme = .token (.number v) → Decimal.IsNumber v

theorem pieces_lieIn (before rest : List Char) :
    ∀ piece ∈ pieces (.after .origin before) rest, piece.LiesIn (before ++ rest) := by
  cases rest with
  | nil => simp [pieces_nil]
  | cons c rest =>
    have htake : c :: rest = (c :: rest.take (Lexeme.first c rest).2) ++
        rest.drop (Lexeme.first c rest).2 := by
      simp
    rw [pieces_cons, ← Position.after_append]
    rintro piece (_ | ⟨_, hmem⟩)
    · have hproper := Lexeme.first_isProper c rest
      refine ⟨.between ?_, fun htext => ?_, fun hnumber => ?_⟩
      · rw [htake, ← List.append_assoc]
        exact List.prefix_append _ _
      · rw [show (Lexeme.first c rest).1 = _ from htext] at hproper
        obtain ⟨rfl, ⟨more, rfl⟩, hline⟩ := hproper
        exact ⟨⟨before, more, rfl, rfl⟩, hline⟩
      · rwa [show (Lexeme.first c rest).1 = _ from hnumber] at hproper
    · -- The first lexeme now belongs to what comes before.
      have ih := pieces_lieIn _ _ piece hmem
      rwa [List.append_assoc, ← htake] at ih
termination_by rest.length
decreasing_by exact drop_length_lt _ c rest

def Likeness.within (cs : List Char) : Likeness where
  span s s' := s' = s ∧ s.LiesIn cs
  text value s s' := s' = s ∧ s.LiesIn cs ∧ s.Quotes value cs
  number := Decimal.IsNumber
  cover := by
    rintro _ _ _ _ ⟨rfl, ha⟩ ⟨rfl, hb⟩
    exact ⟨rfl, ha.cover hb⟩
  span_of_text h := ⟨h.1, h.2.1⟩
  number_neg := Decimal.isNumber_neg

theorem tokensOf_within (source : String) :
    List.Forall₂ (Token.Like (.within source.toList)) (tokensOf source) (tokensOf source) := by
  rw [List.forall₂_same]
  rintro ⟨kind, span⟩ ht
  obtain ⟨hspan, htext, hnumber⟩ := pieces_lieIn [] _ _ (mem_tokensOf ht)
  refine ⟨rfl, ⟨rfl, hspan⟩, ?_, fun _ => trivial, fun _ => trivial, ?_⟩
  · rintro value rfl
    exact ⟨rfl, hspan, htext rfl⟩
  · rintro v rfl
    exact hnumber rfl

theorem scan_findings_lieIn (source : String) :
    ∀ f ∈ (scan source).findings, f.span.LiesIn source.toList :=
  fun _ hf => (pieces_lieIn [] _ _ (mem_scan_findings hf)).span

/-! ## Nodes -/

structure Parameter.StemsFrom (p : Parameter) (cs : List Char) : Prop where
  span : p.span.LiesIn cs
  default : ∀ v ∈ p.default, Decimal.IsNumber v

/-- What a node holds is in the text: its literal, and the places that it names besides its own. -/
def NodeKind.StemsFrom (cs : List Char) (s : Span) : NodeKind → Prop
  | .number v => Decimal.IsNumber v
  | .text value => s.Quotes value cs
  | .call _ args => ∀ a ∈ args, a.span.LiesIn cs
  | .define _ params _ => ∀ p ∈ params, p.StemsFrom cs
  | _ => True

structure Node.StemsFrom (node : Node) (cs : List Char) : Prop where
  span : node.span.LiesIn cs
  kind : node.kind.StemsFrom cs node.span

theorem of_forall₂ {P : α → Prop} (h : List.Forall₂ R xs ys) (hR : ∀ x y, R x y → P x) :
    ∀ x ∈ xs, P x :=
  ((List.forall₂_and_left _ _).mp (h.imp fun x y hxy => ⟨hR x y hxy, hxy⟩)).1

theorem Node.Like.stemsFrom (h : Node.Like (.within cs) k node node') : node.StemsFrom cs := by
  cases h with
  | number hs hv => exact ⟨hs.2, hv⟩
  | text hs => exact ⟨hs.2.1, hs.2.2⟩
  | call hargs hs => exact ⟨hs.2, of_forall₂ hargs fun _ _ ha => ha.span.2⟩
  | define hparams hs => exact ⟨hs.2, of_forall₂ hparams fun _ _ hp => ⟨hp.span.2, hp.number⟩⟩
  | bool hs | ident hs | hole hs | binary hs | pipe hs | assign hs => exact ⟨hs.2, trivial⟩

theorem endOf_liesIn (source : String) : (endOf source).LiesIn source.toList := by
  have h : source.toList ++ [] <+: source.toList := by simp
  simpa [endOf] using Span.LiesIn.between h

theorem parse_nodes_stem (source : String) :
    ∀ node ∈ (parse (scan source).tokens).patch.nodes.toList, node.StemsFrom source.toList := by
  have hlike := (Patch.Like.empty _ .empty).foldl (Grammar.turns_like (tokensOf_within source))
  rw [parse_scan]
  obtain ⟨tail, -, hnodes⟩ := hlike.nodes
  exact of_forall₂ hnodes fun _ _ h => h.stemsFrom

theorem parse_findings_lieIn (source : String) :
    ∀ f ∈ (parse (scan source).tokens).findings, f.span.LiesIn source.toList := by
  have hend : (Likeness.within source.toList).span (endOf source) (endOf source) :=
    ⟨rfl, endOf_liesIn source⟩
  have hlike := Grammar.findings_like hend (Grammar.turns_like (tokensOf_within source))
  rw [parse_scan]
  exact of_forall₂ hlike fun _ _ h => h.span.2

/-! ## Faults in literals -/

namespace Pattern

def Misread.IsIn (m : Misread) (cs : List Char) : Prop :=
  ∃ rest, rest <:+ cs ∧ m.left = rest.length ∧ m.length ≤ byteLength rest

theorem Misread.IsIn.of_suffix (h : IsIn m cs) (hcs : cs <:+ ds) : m.IsIn ds := by
  obtain ⟨rest, hrest, h⟩ := h
  exact ⟨rest, hrest.trans hcs, h⟩

/-- Reading goes on within the text, or fails within it. -/
def Stays (cs : List Char) : Except Misread (Reading α ds) → Prop
  | .ok r => r.rest <:+ cs
  | .error m => m.IsIn cs

theorem Stays.of_suffix {x : Except Misread (Reading α ds)} (h : Stays cs x) (hcs : cs <:+ cs') :
    Stays cs' x := by
  cases x with
  | ok r => exact List.IsSuffix.trans h hcs
  | error m => exact Misread.IsIn.of_suffix h hcs

theorem Stays.bind {x : Except Misread (Reading α ds)}
    {f : Reading α ds → Except Misread (Reading β ds')} (h : Stays cs x)
    (hf : ∀ r, r.rest <:+ cs → Stays cs (f r)) : Stays cs (x >>= f) := by
  cases x with
  | ok r => exact hf r h
  | error m => exact h

theorem repeats_stays (cs : List Char) : Stays cs (repeats cs) := by
  unfold repeats
  split
  · rename_i rest
    dsimp only
    split
    · exact (List.drop_suffix _ _).trans (List.suffix_cons _ _)
    · refine ⟨_, List.suffix_rfl, rfl, ?_⟩
      have hlength := length_le_byteLength rest
      have htake := Lexeme.takeWhile_length_le Char.isDigit rest
      simp [Char.utf8Size]
      omega
  · exact List.suffix_rfl

theorem steps_stays (nested : Bool) (cs : List Char) : Stays cs (steps nested cs) := by
  -- What a part of the reader leaves is an end of what it was given, so all faults are counted from
  -- one end.
  have hdrop : cs.dropWhile Text.isBlank <:+ cs := List.dropWhile_suffix _
  rw [steps]
  split
  · split
    · exact ⟨[], List.nil_suffix, rfl, Nat.zero_le _⟩
    · exact List.nil_suffix
  · rename_i rest hc
    rw [hc] at hdrop
    have hlt : rest.length < cs.length := hdrop.length_le
    have hopen : Misread.IsIn ⟨.emptyGroup, rest.length + 1, 1⟩ cs :=
      ⟨_, hdrop, rfl, by simp [Char.utf8Size]⟩
    refine ((steps_stays true rest).of_suffix ((List.suffix_cons _ _).trans hdrop)).bind ?_
    rintro ⟨inner, r₁, hle⟩ h₁
    dsimp only
    split
    · exact hopen
    refine ((repeats_stays _).of_suffix h₁).bind fun r₂ h₂ => ?_
    have hle₂ : r₂.rest.length ≤ r₁.length := r₂.le
    exact ((steps_stays nested _).of_suffix h₂).bind fun r₃ h₃ => h₃
  · rename_i rest hc
    rw [hc] at hdrop
    split
    · exact (List.suffix_cons _ _).trans hdrop
    · exact ⟨_, hdrop, rfl, by simp [Char.utf8Size]⟩
  · rename_i rest hc
    rw [hc] at hdrop
    exact ⟨_, hdrop, rfl, by simp [Char.utf8Size]⟩
  · rename_i c rest _ _ _ hc
    rw [hc] at hdrop
    have hlt : rest.length < cs.length := hdrop.length_le
    dsimp only
    cases atom (c :: rest.takeWhile isWordChar) with
    | error fault =>
      refine ⟨_, hdrop, rfl, byteLength_le_of_isPrefix ?_⟩
      exact List.cons_prefix_cons.mpr ⟨rfl, List.takeWhile_prefix _⟩
    | ok a =>
      have hrest : rest.drop (rest.takeWhile isWordChar).length <:+ cs :=
        (List.drop_suffix _ _).trans ((List.suffix_cons _ _).trans hdrop)
      refine ((repeats_stays _).of_suffix hrest).bind fun r₂ h₂ => ?_
      have hle₂ := Nat.le_trans r₂.le (List.drop_suffix _ _).length_le
      exact ((steps_stays nested _).of_suffix h₂).bind fun r₃ h₃ => h₃
termination_by cs.length
decreasing_by all_goals omega

theorem ofChars_isIn (h : ofChars cs = .error m) : m.IsIn cs := by
  have hwhole : ∀ fault, Misread.IsIn ⟨fault, cs.length, byteLength cs⟩ cs :=
    fun _ => ⟨cs, List.suffix_rfl, rfl, Nat.le_refl _⟩
  have hsteps := steps_stays false cs
  unfold ofChars at h
  cases hread : steps false cs with
  | error m' =>
    rw [hread] at h hsteps
    cases h
    exact hsteps
  | ok r =>
    rw [hread] at h
    dsimp only [bind, Except.bind] at h
    split at h
    · cases h
      exact hwhole _
    split at h
    · cases h
      exact hwhole _
    split at h
    · cases h
      exact hwhole _
    · cases h

theorem Misread.span_liesIn (hm : IsIn m text.toList) (hs : Span.Quotes s text cs) :
    (m.span s text.toList).LiesIn cs := by
  obtain ⟨rest, ⟨before, htext⟩, hleft, hlength⟩ := hm
  obtain ⟨⟨outer, more, rfl, hstart⟩, hline⟩ := hs
  rw [← htext] at hline ⊢
  have hbefore : '\n' ∉ '"' :: before := by
    simp only [List.mem_append, not_or] at hline
    simpa using hline.1
  have htake : (before ++ rest).take ((before ++ rest).length - m.left) = before := by
    rw [hleft, List.length_append, Nat.add_sub_cancel, List.take_left]
  have hplace : Position.origin.after (outer ++ '"' :: before) =
      ⟨s.line, s.column + (before.length + 1), s.offset + (1 + byteLength before)⟩ := by
    rw [Position.after_append, ← hstart, Position.after_oneLine _ hbefore, byteLength_cons]
    rfl
  have hoffset := Position.offset_after .origin (outer ++ '"' :: before)
  rw [hplace] at hoffset
  unfold Misread.span
  rw [htake]
  refine ⟨⟨outer ++ '"' :: before, ⟨rest ++ '"' :: more, by simp⟩, ?_⟩, ?_⟩
  · rw [hplace]
    simp [Span.start, Nat.add_assoc, Nat.add_comm 1]
  · simp [Span.stop, Position.origin, Char.utf8Size] at hoffset ⊢
    omega

theorem parse_error_liesIn (h : parse text s = .error f) (hs : Span.Quotes s text cs) :
    f.span.LiesIn cs := by
  unfold parse at h
  dsimp only at h
  cases hm : ofChars text.toList with
  | ok p =>
    rw [hm] at h
    cases h
  | error m =>
    rw [hm] at h
    cases h
    exact Misread.span_liesIn (ofChars_isIn hm) hs

end Pattern

end SignalPatch
