import SignalPatch.Proofs.Attribution
import SignalPatch.Proofs.NestedSpans

/-!
# Where calls stand

Tokens come one behind the other, and names and parentheses stand in the text as they are written.
So the span of a call covers its text from the name of the function up to the parenthesis that
closes the call. In a linked text, a call of a function that the preamble does not name stands in
the user's text.
-/

namespace SignalPatch

open Pattern (byteLength)

/-! ## Words in a text -/

/-- The span covers this word of the text. -/
def Span.Spells (s : Span) (word cs : List Char) : Prop :=
  ∃ before rest, cs = before ++ (word ++ rest) ∧ s.start = Position.origin.after before ∧
    s.length = byteLength word

theorem Span.offset_of_start {s : Span} (h : s.start = Position.origin.after before) :
    s.offset = byteLength before := by
  have hoffset : s.offset = _ := congrArg Position.offset h
  rw [hoffset, Position.offset_after]
  exact Nat.zero_add _

theorem isPrefix_of_byteLength_le (ha : as <+: cs) (hb : bs <+: cs)
    (h : byteLength as ≤ byteLength bs) :
    as <+: bs := by
  rcases List.prefix_or_prefix_of_prefix ha hb with hab | ⟨more, rfl⟩
  · exact hab
  · have hmore := length_le_byteLength more
    rw [byteLength_append] at h
    obtain rfl : more = [] := List.eq_nil_of_length_eq_zero (by omega)
    simp

theorem Span.cover_of_le {a b : Span} (h : a.stop ≤ b.offset) :
    a.cover b = { a with length := b.stop - a.offset } := by
  simp only [stop] at h
  rw [cover, if_pos (by omega), stop, stop, Nat.max_eq_right (by omega)]

theorem Span.Spells.cover (ha : Spells a word cs) (hb : Spells b word' cs) (h : a.stop ≤ b.offset) :
    ∃ inner, (a.cover b).Spells (word ++ inner ++ word') cs := by
  obtain ⟨before, rest, hcs, hstart, hlength⟩ := ha
  obtain ⟨before', rest', hcs', hstart', hlength'⟩ := hb
  have hoffset := offset_of_start hstart
  have hoffset' := offset_of_start hstart'
  have hle : byteLength (before ++ word) ≤ byteLength before' := by
    rw [byteLength_append, ← hoffset, ← hoffset', ← hlength]
    exact h
  obtain ⟨inner, rfl⟩ : before ++ word <+: before' :=
    isPrefix_of_byteLength_le ⟨rest, by rw [hcs, List.append_assoc]⟩ ⟨word' ++ rest', hcs'.symm⟩ hle
  rw [cover_of_le h]
  refine ⟨inner, before, rest', by simp [hcs'], hstart, ?_⟩
  simp only [stop, byteLength_append] at hoffset' ⊢
  omega

/-! ## Tokens -/

def TokenKind.written? : TokenKind → Option (List Char)
  | .ident name => some name.toList
  | .closeParen => some [')']
  | _ => none

namespace Lexeme

def Spelled (c : Char) (cs : List Char) (found : Lexeme × Nat) : Prop :=
  ∀ kind spelling, found.1 = .token kind → kind.written? = some spelling →
    c :: cs.take found.2 = spelling

theorem Spelled.of_none {found : Lexeme × Nat}
    (h : ∀ kind, found.1 = .token kind → kind.written? = none) :
    Spelled c cs found := by
  intro kind spelling hfound hspelling
  rw [h kind hfound] at hspelling
  cases hspelling

theorem symbol?_spelled (cs : List Char) (h : symbol? c = some kind) :
    Spelled c cs (.token kind, 0) := by
  rintro _ spelling ⟨⟩ hspelling
  unfold symbol? at h
  split at h <;> cases h <;> cases hspelling
  rfl

theorem quoted_spelled (cs : List Char) : Spelled '"' cs (quoted cs) := by
  refine .of_none fun kind hfound => ?_
  unfold quoted at hfound
  dsimp only at hfound
  split at hfound <;> cases hfound
  rfl

theorem numeral_spelled (c : Char) (cs : List Char) : Spelled c cs (numeral c cs) := by
  refine .of_none fun kind hfound => ?_
  unfold numeral at hfound
  dsimp only at hfound
  split at hfound
  · cases hfound
  · split at hfound <;> cases hfound
    rfl

theorem word_spelled (c : Char) (cs : List Char) : Spelled c cs (word c cs) := by
  intro kind spelling hfound hspelling
  have htake : cs.take (cs.takeWhile isWordChar).length = cs.takeWhile isWordChar :=
    (List.prefix_iff_eq_take.mp (List.takeWhile_prefix _)).symm
  unfold word keywordOrName at hfound
  dsimp only at hfound
  split at hfound <;> cases hfound <;> cases hspelling
  rw [String.toList_ofList, word, htake]

theorem first_spelled (c : Char) (cs : List Char) : Spelled c cs (first c cs) := by
  unfold first
  repeat' split
  · exact .of_none nofun
  · exact .of_none nofun
  · exact symbol?_spelled cs ‹_›
  · exact .of_none fun _ h => by cases h; rfl
  · exact .of_none fun _ h => by cases h; rfl
  · exact .of_none fun _ h => by cases h; rfl
  · exact .of_none nofun
  · rename_i hquote
    exact hquote ▸ quoted_spelled cs
  · exact numeral_spelled c cs
  · exact word_spelled c cs
  · exact .of_none nofun

end Lexeme

theorem pieces_spell (before rest : List Char) : ∀ piece ∈ pieces (.after .origin before) rest,
    ∃ c cs, piece.lexeme = (Lexeme.first c cs).1 ∧
      piece.span.Spells (c :: cs.take (Lexeme.first c cs).2) (before ++ rest) := by
  cases rest with
  | nil => simp [pieces_nil]
  | cons c rest =>
    have htake : c :: rest = (c :: rest.take (Lexeme.first c rest).2) ++
        rest.drop (Lexeme.first c rest).2 := by
      simp
    rw [pieces_cons, ← Position.after_append]
    rintro piece (_ | ⟨_, hmem⟩)
    · refine ⟨c, rest, rfl, before, rest.drop (Lexeme.first c rest).2, by rw [← htake], rfl, ?_⟩
      simp only [Position.spanTo, Position.offset_after, byteLength_append]
      omega
    · -- the first lexeme now belongs to what comes before
      have ih := pieces_spell _ _ piece hmem
      rwa [List.append_assoc, ← htake] at ih
termination_by rest.length
decreasing_by exact drop_length_lt _ c rest

theorem tokensOf_spell (source : String) (ht : t ∈ tokensOf source)
    (hword : t.kind.written? = some word) :
    t.span.Spells word source.toList := by
  obtain ⟨c, cs, hlexeme, hspells⟩ := pieces_spell [] source.toList _ (mem_tokensOf ht)
  rwa [Lexeme.first_spelled c cs _ _ hlexeme.symm hword] at hspells

/-! ## Nodes -/

/-- A call in the text with these tokens: it starts with the name of the function, which is a token,
and ends with a parenthesis. A sign calls a function without naming it. -/
def Span.IsCall (s : Span) (callee : String) (cs : List Char) (ts : List Token) : Prop :=
  callee = "neg" ∨ (∃ inner, s.Spells (callee.toList ++ inner ++ [')']) cs) ∧
    ∃ t ∈ ts, t.kind = .ident callee ∧ t.span.start = s.start

/-- The names and parentheses of a text, in order. -/
def Likeness.spelled (cs : List Char) (ts : List Token) : Likeness where
  span _ _ := True
  text _ _ _ := True
  name x s := s.Spells x.toList cs ∧ ⟨.ident x, s⟩ ∈ ts
  close s := s.Spells [')'] cs
  order a b := a.stop ≤ b.offset
  call x s _ := s.IsCall x cs ts
  cover _ _ := trivial
  span_of_text _ := trivial
  call_cover := by
    rintro x a b a' b' ⟨hname, hmem⟩ hclose hle - -
    refine .inr ⟨hname.cover hclose hle, _, hmem, rfl, ?_⟩
    rw [Span.cover_of_le hle]
    rfl
  call_neg _ := .inl rfl

theorem tokensOf_spelled (source : String) :
    List.Forall₂ (Token.Like (.spelled source.toList (tokensOf source))) (tokensOf source)
      (tokensOf source) := by
  rw [List.forall₂_same]
  rintro ⟨kind, span⟩ ht
  refine ⟨rfl, trivial, fun _ => trivial, ?_, ?_, fun _ => trivial⟩
  · rintro x rfl
    exact ⟨tokensOf_spell source ht rfl, ht⟩
  · rintro rfl
    exact tokensOf_spell source ht rfl

theorem tokensOf_ordered (source : String) :
    (Likeness.spelled source.toList (tokensOf source)).Ordered (tokensOf source) :=
  List.pairwise_map.mp (tokensOf_inLine source).pairwise

theorem parse_isCall (source : String) {i : Nat}
    (hnode : (parse (scan source).tokens).patch.nodes[i]? = some ⟨.call callee args, s⟩) :
    s.IsCall callee source.toList (tokensOf source) := by
  have hlike := (Patch.Like.empty _ .empty).foldl
    (Grammar.turns_like (tokensOf_spelled source) (tokensOf_ordered source))
  obtain ⟨tail, -, hnodes⟩ := hlike.nodes
  rw [parse_scan] at hnode
  have hmem := Array.mem_toList_iff.mpr (Array.mem_of_getElem? hnode)
  refine of_forall₂ (P := fun node => ∀ callee args, node.kind = .call callee args →
    node.span.IsCall callee source.toList (tokensOf source)) hnodes
      (fun node node' h => ?_) _ hmem _ _ rfl
  rintro callee args hkind
  cases h with
  | call _ _ hcall =>
    cases hkind
    exact hcall
  | _ => cases hkind

/-! ## Linked texts -/

variable {linked : LinkedSource}

theorem LinkedSource.byteLength_before (linked : LinkedSource) :
    byteLength (linked.preamble.toList ++ ['\n']) = linked.boundary.bytes := by
  rw [LinkedSource.boundary, Boundary.behind, utf8ByteSize_eq]
  simp [Char.utf8Size]

theorem LinkedSource.spells_user (h : Span.Spells s word linked.text.toList)
    (hbytes : linked.boundary.bytes ≤ s.offset) :
    ∃ s', s = linked.boundary.move s' ∧ s'.Spells word linked.user.toList := by
  obtain ⟨before, rest, htext, hstart, hlength⟩ := h
  have htoList := linked.text_toList
  rw [← List.singleton_append, ← List.append_assoc] at htoList
  obtain ⟨own, rfl⟩ : linked.preamble.toList ++ ['\n'] <+: before := by
    refine isPrefix_of_byteLength_le ⟨_, htoList.symm⟩ ⟨_, htext.symm⟩ ?_
    rw [linked.byteLength_before, ← Span.offset_of_start hstart]
    exact hbytes
  rw [htext, List.append_assoc, List.append_cancel_left_eq] at htoList
  let place := Position.origin.after own
  refine ⟨⟨place.line, place.column, place.offset, s.length⟩, ?_, own, rest,
    htoList.symm, rfl, hlength⟩
  have hmoved : s.start = linked.boundary.movePosition place := by
    rw [hstart, Position.after_append, ← Boundary.after_movePosition]
    exact congrArg (Position.after · own) (Boundary.after_behind linked.preamble)
  obtain ⟨line, column, offset, length⟩ := s
  cases hmoved
  rfl

/-- A call of a function that the preamble does not name stands in the user's text. -/
theorem LinkedSource.call_user {i : Nat}
    (hnode : linked.patch.nodes[i]? = some ⟨.call callee args, s⟩) (hsign : callee ≠ "neg")
    (hpreamble : ∀ t ∈ tokensOf linked.preamble, t.kind ≠ .ident callee) :
    ∃ s' inner, s = linked.boundary.move s' ∧
      s'.Spells (callee.toList ++ inner ++ [')']) linked.user.toList := by
  rcases parse_isCall linked.text hnode with hneg | ⟨⟨inner, hspells⟩, t, ht, hkind, hstart⟩
  · exact absurd hneg hsign
  · have hbytes : linked.boundary.bytes ≤ s.offset := by
      have hoffset : t.span.offset = s.offset := congrArg Position.offset hstart
      rw [linked.tokensOf_text, List.mem_append, List.mem_cons, List.mem_map] at ht
      rcases ht with ht | rfl | ⟨u, -, rfl⟩
      · exact absurd hkind (hpreamble t ht)
      · cases hkind
      · rw [← hoffset]
        exact Nat.le_add_left _ _
    obtain ⟨s', hs, hspells'⟩ := LinkedSource.spells_user hspells hbytes
    exact ⟨s', inner, hs, hspells'⟩

end SignalPatch
