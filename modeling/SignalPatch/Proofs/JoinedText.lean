import SignalPatch.Pattern.Read
import SignalPatch.Preamble
import SignalPatch.Token.Scan

/-!
# Scanning a joined text

No lexeme goes on past a newline, so a text that is joined to another by a newline is scanned as the
two are scanned alone. Only the places in the second text are moved, by the bytes and the lines
before it.
-/

namespace SignalPatch

open Pattern (byteLength)

/-! ## Positions -/

theorem foldl_utf8Size (n : Nat) (cs : List Char) :
    cs.foldl (fun n c => n + c.utf8Size) n = n + byteLength cs := by
  unfold byteLength
  induction cs generalizing n with
  | nil => rfl
  | cons c cs ih =>
    rw [List.foldl_cons, List.foldl_cons, ih, ih (0 + c.utf8Size)]
    omega

@[simp] theorem byteLength_nil : byteLength [] = 0 := rfl

@[simp] theorem byteLength_cons (c : Char) (cs : List Char) :
    byteLength (c :: cs) = c.utf8Size + byteLength cs := by
  rw [byteLength, List.foldl_cons, foldl_utf8Size, Nat.zero_add]

@[simp] theorem byteLength_append (cs ds : List Char) :
    byteLength (cs ++ ds) = byteLength cs + byteLength ds := by
  induction cs with
  | nil => simp
  | cons c cs ih => simp [ih, Nat.add_assoc]

theorem utf8ByteSize_eq (s : String) : s.utf8ByteSize = byteLength s.toList := by
  rw [← String.size_toByteArray, ← String.utf8Encode_toList]
  induction s.toList with
  | nil => rfl
  | cons c cs ih =>
    rw [List.utf8Encode_cons, ByteArray.size_append, ih, byteLength_cons, List.utf8Encode_singleton]
    simp

namespace Position

theorem offset_after (p : Position) (cs : List Char) :
    (p.after cs).offset = p.offset + byteLength cs := by
  induction cs generalizing p with
  | nil => simp
  | cons c cs ih =>
    rw [after_cons, ih, byteLength_cons]
    unfold advance
    split <;> simp [Nat.add_assoc]

theorem line_after (p : Position) (cs : List Char) :
    (p.after cs).line = p.line + cs.count '\n' := by
  induction cs generalizing p with
  | nil => simp
  | cons c cs ih =>
    rw [after_cons, ih, List.count_cons]
    unfold advance
    split
    · simp [*]
      omega
    · simp [*]

end Position

/-- A point of the second text, seen in the joined text. -/
def Boundary.movePosition (b : Boundary) (p : Position) : Position :=
  { p with line := p.line + b.lines, offset := p.offset + b.bytes }

def Boundary.move (b : Boundary) (s : Span) : Span :=
  { s with line := s.line + b.lines, offset := s.offset + b.bytes }

namespace Boundary

variable (b : Boundary)

theorem advance_movePosition (p : Position) (c : Char) :
    (b.movePosition p).advance c = b.movePosition (p.advance c) := by
  unfold Position.advance movePosition
  split <;> simp [Nat.add_assoc, Nat.add_comm, Nat.add_left_comm]

theorem after_movePosition (p : Position) (cs : List Char) :
    (b.movePosition p).after cs = b.movePosition (p.after cs) := by
  induction cs generalizing p with
  | nil => rfl
  | cons c cs ih => rw [Position.after_cons, advance_movePosition, ih, Position.after_cons]

theorem spanTo_movePosition (p q : Position) :
    (b.movePosition p).spanTo (b.movePosition q) = b.move (p.spanTo q) := by
  simp [Position.spanTo, movePosition, move, Nat.add_sub_add_right]

theorem move_cover (s t : Span) : b.move (s.cover t) = (b.move s).cover (b.move t) := by
  unfold move Span.cover Span.stop
  simp only [Nat.add_le_add_iff_right]
  split <;> simp <;> omega

theorem contains_move (s : Span) : b.contains (b.move s).offset = false :=
  decide_eq_false (Nat.not_lt.mpr (Nat.le_add_left _ _))

theorem relocate_move (s : Span) : b.relocate (b.move s) = s := by
  rw [relocate, contains_move]
  simp [move]

theorem filename_move (filename : String) (s : Span) :
    b.filename filename (b.move s).offset = filename := by
  rw [Boundary.filename, contains_move]
  rfl

theorem after_behind (preamble : String) :
    Position.origin.after (preamble.toList ++ ['\n']) = (behind preamble).movePosition .origin := by
  have hline := Position.line_after .origin preamble.toList
  have hoffset := Position.offset_after .origin preamble.toList
  rw [Position.after_append, Position.after_cons, Position.after_nil,
    Position.advance, if_pos rfl, hline, hoffset, movePosition, behind, utf8ByteSize_eq]
  simp [Position.origin, Nat.add_comm, Char.utf8Size]

end Boundary

/-! ## Lexemes -/

namespace Lexeme

variable {p : Char → Bool}

theorem takeWhile_newline (h : p '\n' = false) (cs ds : List Char) :
    (cs ++ '\n' :: ds).takeWhile p = cs.takeWhile p := by
  induction cs with
  | nil => simp [h]
  | cons c cs ih =>
    simp only [List.cons_append, List.takeWhile_cons, ih]

theorem head_newline (h : p '\n' = false) (cs ds : List Char) :
    (cs ++ '\n' :: ds).head?.any p = cs.head?.any p := by
  cases cs <;> simp [h]

theorem head_eq_newline (hc : c ≠ '\n') (cs ds : List Char) :
    (cs ++ '\n' :: ds).head? = some c ↔ cs.head? = some c := by
  cases cs <;> simp [hc.symm]

theorem takeWhile_length_le (p : Char → Bool) (cs : List Char) :
    (cs.takeWhile p).length ≤ cs.length :=
  (List.takeWhile_sublist p).length_le

theorem digitNext_newline (cs ds : List Char) : digitNext (cs ++ '\n' :: ds) = digitNext cs :=
  head_newline rfl cs ds

theorem fractionPart_newline (cs ds : List Char) :
    fractionPart (cs ++ '\n' :: ds) = fractionPart cs := by
  cases cs with
  | nil => rfl
  | cons c cs =>
    by_cases hc : c = '.'
    · subst hc
      simp only [List.cons_append, fractionPart, digitNext_newline,
        takeWhile_newline (p := Char.isDigit) rfl]
    · simp [fractionPart, hc]

theorem fractionPart_length_le (cs : List Char) : (fractionPart cs).length ≤ cs.length := by
  unfold fractionPart
  split
  · split
    · simpa using takeWhile_length_le Char.isDigit _
    · simp
  · simp

theorem exponentPart_newline (cs ds : List Char) :
    exponentPart (cs ++ '\n' :: ds) = exponentPart cs := by
  cases cs with
  | nil => rfl
  | cons e cs =>
    simp only [List.cons_append, exponentPart, digitNext_newline,
      takeWhile_newline (p := Char.isDigit) rfl]
    cases cs with
    | nil => rfl
    | cons s cs =>
      simp only [List.cons_append, digitNext_newline, takeWhile_newline (p := Char.isDigit) rfl]

theorem exponentPart_length_le (cs : List Char) : (exponentPart cs).length ≤ cs.length := by
  cases cs with
  | nil => simp [exponentPart]
  | cons e cs =>
    simp only [exponentPart]
    have := takeWhile_length_le Char.isDigit cs
    split
    · split
      · simpa using this
      · cases cs with
        | nil => simp
        | cons s cs =>
          have := takeWhile_length_le Char.isDigit cs
          dsimp only
          split
          · simpa using this
          · simp
    · simp

theorem numeralTail_newline (c : Char) (cs ds : List Char) :
    numeralTail c (cs ++ '\n' :: ds) = numeralTail c cs := by
  unfold numeralTail
  have hdrop : (cs ++ '\n' :: ds).drop (cs.takeWhile Char.isDigit).length = _ :=
    List.drop_append_of_le_length (takeWhile_length_le Char.isDigit cs)
  simp only [takeWhile_newline (p := Char.isDigit) rfl, hdrop]
  split
  · simp only [List.length_nil, List.drop_zero, exponentPart_newline]
  · have hle := fractionPart_length_le (cs.drop (cs.takeWhile Char.isDigit).length)
    simp only [fractionPart_newline, List.drop_append_of_le_length hle, exponentPart_newline]

theorem numeralTail_length_le (c : Char) (cs : List Char) :
    (numeralTail c cs).length ≤ cs.length := by
  have hwhole := takeWhile_length_le Char.isDigit cs
  unfold numeralTail
  dsimp only
  generalize hrest : cs.drop (cs.takeWhile Char.isDigit).length = rest
  have hlen : rest.length = cs.length - (cs.takeWhile Char.isDigit).length := by
    rw [← hrest, List.length_drop]
  have hfraction : (if c = '.' then [] else fractionPart rest).length ≤ rest.length := by
    split
    · simp
    · exact fractionPart_length_le rest
  generalize (if c = '.' then [] else fractionPart rest) = fraction at hfraction ⊢
  have hexponent := exponentPart_length_le (rest.drop fraction.length)
  simp only [List.length_append, List.length_drop] at hexponent ⊢
  omega

theorem numeral_newline (c : Char) (cs ds : List Char) :
    numeral c (cs ++ '\n' :: ds) = numeral c cs := by
  unfold numeral
  have hdrop : (cs ++ '\n' :: ds).drop (numeralTail c cs).length = _ :=
    List.drop_append_of_le_length (numeralTail_length_le c cs)
  simp only [numeralTail_newline, hdrop, head_newline (p := isLetter) rfl,
    takeWhile_newline (p := isWordChar) rfl]

theorem quoted_newline (cs ds : List Char) : quoted (cs ++ '\n' :: ds) = quoted cs := by
  unfold quoted
  have hle := takeWhile_length_le (fun c => c != '"' && c != '\n') cs
  simp only [takeWhile_newline (p := fun c => c != '"' && c != '\n') rfl,
    List.drop_append_of_le_length hle, head_eq_newline (c := '"') (by decide)]

theorem word_newline (c : Char) (cs ds : List Char) : word c (cs ++ '\n' :: ds) = word c cs := by
  simp only [word, takeWhile_newline (p := isWordChar) rfl]

/-- No lexeme looks past a newline, except the newline itself. -/
theorem first_newline (c : Char) (cs ds : List Char) : first c (cs ++ '\n' :: ds) = first c cs := by
  unfold first
  simp only [head_eq_newline (c := '/') (by decide), head_eq_newline (c := '>') (by decide),
    takeWhile_newline (p := (· != '\n')) rfl, digitNext_newline, quoted_newline, numeral_newline,
    word_newline]

theorem quoted_length_le (cs : List Char) : (quoted cs).2 ≤ cs.length := by
  have hle := takeWhile_length_le (fun c => c != '"' && c != '\n') cs
  unfold quoted
  dsimp only
  split
  · rename_i hquote
    have hpos : 0 < (cs.drop (cs.takeWhile fun c => c != '"' && c != '\n').length).length := by
      rw [List.length_pos_iff]
      rintro hnil
      rw [hnil] at hquote
      cases hquote
    rw [List.length_drop] at hpos
    dsimp only
    omega
  · exact hle

theorem numeral_length_le (c : Char) (cs : List Char) : (numeral c cs).2 ≤ cs.length := by
  have htail := numeralTail_length_le c cs
  unfold numeral
  dsimp only
  split
  · have := takeWhile_length_le isWordChar (cs.drop (numeralTail c cs).length)
    simp only [List.length_append, List.length_drop] at this ⊢
    omega
  · split <;> exact htail

theorem first_length_le (c : Char) (cs : List Char) : (first c cs).2 ≤ cs.length := by
  unfold first
  have hhead : ∀ d, cs.head? = some d → 1 ≤ cs.length := by
    rintro d h
    cases cs <;> simp_all
  repeat' split
  · exact Nat.zero_le _
  · exact takeWhile_length_le _ cs
  · exact Nat.zero_le _
  · exact hhead _ ‹_›
  · exact Nat.zero_le _
  · exact hhead _ ‹_›
  · exact Nat.zero_le _
  · exact quoted_length_le cs
  · exact numeral_length_le c cs
  · exact takeWhile_length_le isWordChar cs
  · exact Nat.zero_le _

end Lexeme

/-! ## Pieces -/

theorem drop_length_lt (n : Nat) (c : Char) (cs : List Char) :
    (cs.drop n).length < (c :: cs).length :=
  Nat.lt_succ_of_le (List.drop_sublist n cs).length_le

theorem pieces_nil (p : Position) : pieces p [] = [] := by
  rw [pieces]

theorem pieces_cons (p : Position) (c : Char) (cs : List Char) :
    pieces p (c :: cs) =
      ⟨(Lexeme.first c cs).1, p.spanTo (p.after (c :: cs.take (Lexeme.first c cs).2))⟩ ::
        pieces (p.after (c :: cs.take (Lexeme.first c cs).2)) (cs.drop (Lexeme.first c cs).2) := by
  rw [pieces]

/-- A text in front of a newline is cut as it would be alone. -/
theorem pieces_newline (p : Position) (cs ds : List Char) :
    pieces p (cs ++ '\n' :: ds) = pieces p cs ++ pieces (p.after cs) ('\n' :: ds) := by
  cases cs with
  | nil => simp [pieces_nil]
  | cons c cs =>
    have hle := Lexeme.first_length_le c cs
    rw [List.cons_append, pieces_cons, pieces_cons, Lexeme.first_newline,
      List.take_append_of_le_length hle, List.drop_append_of_le_length hle, pieces_newline,
      ← Position.after_append, List.cons_append, List.take_append_drop, List.cons_append]
termination_by cs.length
decreasing_by exact drop_length_lt _ c cs

def Piece.move (b : Boundary) (piece : Piece) : Piece := { piece with span := b.move piece.span }

theorem pieces_movePosition (b : Boundary) (p : Position) (cs : List Char) :
    pieces (b.movePosition p) cs = (pieces p cs).map (.move b) := by
  cases cs with
  | nil => simp [pieces_nil]
  | cons c cs =>
    rw [pieces_cons, pieces_cons, b.after_movePosition, pieces_movePosition, b.spanTo_movePosition]
    rfl
termination_by cs.length
decreasing_by exact drop_length_lt _ c cs

def Token.move (b : Boundary) (t : Token) : Token := { t with span := b.move t.span }

/-- Findings of scanning and parsing, whose issues name no place. -/
def Finding.move (b : Boundary) (f : Finding) : Finding := { f with span := b.move f.span }

theorem Piece.token?_move (b : Boundary) (piece : Piece) :
    (piece.move b).token? = piece.token?.map (.move b) := by
  obtain ⟨lexeme, span⟩ := piece
  cases lexeme <;> rfl

theorem Piece.finding?_move (b : Boundary) (piece : Piece) :
    (piece.move b).finding? = piece.finding?.map (.move b) := by
  obtain ⟨lexeme, span⟩ := piece
  cases lexeme <;> rfl

def tokensOf (source : String) : List Token := (pieces .origin source.toList).filterMap Piece.token?

theorem scan_tokens (source : String) :
    (scan source).tokens = tokensOf source ++
      [⟨.finish, (Position.origin.after source.toList).spanTo (.after .origin source.toList)⟩] :=
  rfl

theorem mem_tokensOf (h : t ∈ tokensOf source) :
    ⟨.token t.kind, t.span⟩ ∈ pieces .origin source.toList := by
  obtain ⟨⟨lexeme, span⟩, hmem, htoken⟩ := List.mem_filterMap.mp h
  cases lexeme with
  | token kind =>
    cases htoken
    exact hmem
  | blank => cases htoken
  | fault => cases htoken

theorem mem_scan_findings (h : f ∈ (scan source).findings) :
    ⟨.fault f.issue, f.span⟩ ∈ pieces .origin source.toList := by
  obtain ⟨⟨lexeme, span⟩, hmem, hfinding⟩ := List.mem_filterMap.mp h
  cases lexeme with
  | fault issue =>
    cases hfinding
    exact hmem
  | blank => cases hfinding
  | token => cases hfinding

def LinkedSource.joint (linked : LinkedSource) : Token :=
  let p := Position.origin.after linked.preamble.toList
  ⟨.newline, p.spanTo (p.advance '\n')⟩

theorem LinkedSource.text_toList (linked : LinkedSource) :
    linked.text.toList = linked.preamble.toList ++ '\n' :: linked.user.toList := by
  simp [LinkedSource.text]

theorem LinkedSource.pieces_text (linked : LinkedSource) :
    pieces .origin linked.text.toList = pieces .origin linked.preamble.toList ++
      ⟨.token .newline, linked.joint.span⟩ :: (pieces .origin linked.user.toList).map
        (.move linked.boundary) := by
  have hfirst : Lexeme.first '\n' linked.user.toList = (.token .newline, 0) := by
    simp [Lexeme.first, Lexeme.symbol?]
  have hstart : (Position.origin.after linked.preamble.toList).after ['\n'] =
      linked.boundary.movePosition .origin := by
    rw [← Position.after_append]
    exact Boundary.after_behind linked.preamble
  rw [linked.text_toList, pieces_newline, pieces_cons, hfirst, List.take_zero,
    List.drop_zero, hstart, pieces_movePosition, ← hstart]
  rfl

theorem LinkedSource.tokensOf_text (linked : LinkedSource) :
    tokensOf linked.text = tokensOf linked.preamble ++
      linked.joint :: (tokensOf linked.user).map (.move linked.boundary) := by
  have hjoint : Piece.token? ⟨.token .newline, linked.joint.span⟩ = some linked.joint := rfl
  unfold tokensOf
  rw [linked.pieces_text, List.filterMap_append,
    List.filterMap_cons_some hjoint, List.filterMap_map, List.map_filterMap]
  simp only [Function.comp_def, Piece.token?_move]

theorem LinkedSource.after_text (linked : LinkedSource) : Position.origin.after linked.text.toList =
    linked.boundary.movePosition (Position.origin.after linked.user.toList) := by
  have hstart : Position.origin.after (linked.preamble.toList ++ ['\n']) =
      linked.boundary.movePosition .origin :=
    Boundary.after_behind linked.preamble
  rw [← Boundary.after_movePosition, ← hstart, ← Position.after_append, linked.text_toList,
    List.append_assoc, List.singleton_append]

theorem LinkedSource.scan_tokens (linked : LinkedSource) :
    (scan linked.text).tokens =
      tokensOf linked.preamble ++ linked.joint :: (scan linked.user).tokens.map
        (.move linked.boundary) := by
  rw [SignalPatch.scan_tokens, SignalPatch.scan_tokens, linked.tokensOf_text, linked.after_text,
    Boundary.spanTo_movePosition]
  simp [Token.move]

theorem LinkedSource.scan_findings (linked : LinkedSource) :
    (scan linked.text).findings =
      (scan linked.preamble).findings ++ (scan linked.user).findings.map
        (.move linked.boundary) := by
  simp only [scan, Scan.ofChars]
  have hjoint : Piece.finding? ⟨.token .newline, linked.joint.span⟩ = none := rfl
  rw [linked.pieces_text, List.filterMap_append,
    List.filterMap_cons_none hjoint, List.filterMap_map, List.map_filterMap]
  simp only [Function.comp_def, Piece.finding?_move]

end SignalPatch
