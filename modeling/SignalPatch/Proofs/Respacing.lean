import SignalPatch.Proofs.LexedSpans

/-!
# Spacing between tokens

How far a token reaches is decided by what follows it, but a space ends every token as the end of
the text does. So a token is read again from its own characters, whatever stood behind them, and a
text whose tokens are written again with a single space between them is scanned to the same tokens.
-/

namespace SignalPatch

/-! ## Characters that end a token -/

def EndsToken (rest : List Char) : Prop := rest = [] ∨ ∃ more, rest = ' ' :: more

namespace EndsToken

variable {p : Char → Bool}

theorem head_any (h : EndsToken rest) (hp : p ' ' = false) : rest.head?.any p = false := by
  obtain rfl | ⟨more, rfl⟩ := h
  · rfl
  · exact hp

theorem head_ne (h : EndsToken rest) (hc : c ≠ ' ') : rest.head? ≠ some c := by
  obtain rfl | ⟨more, rfl⟩ := h
  · nofun
  · simpa using hc.symm

end EndsToken

namespace Lexeme

/-! ## Numerals -/

theorem takeWhile_again {p : Char → Bool} (cs : List Char) (h : rest.head?.any p = false) :
    (cs.takeWhile p ++ rest).takeWhile p = cs.takeWhile p := by
  have hall : ∀ c ∈ cs.takeWhile p, p c := List.all_eq_true.mp List.all_takeWhile
  have hrest : rest.takeWhile p = [] := by
    cases rest with
    | nil => rfl
    | cons c rest => simpa [List.takeWhile_cons] using h
  rw [List.takeWhile_append_of_pos hall, hrest, List.append_nil]

theorem digitNext_append (h : digitNext cs) (rest : List Char) :
    digitNext (cs.takeWhile Char.isDigit ++ rest) := by
  cases cs with
  | nil => simp [digitNext] at h
  | cons c cs =>
    have hc : c.isDigit := by simpa [digitNext] using h
    simp [digitNext, hc]

theorem fractionPart_cases (cs : List Char) :
    fractionPart cs = [] ∨ ∃ ds, digitNext ds ∧
      fractionPart cs = '.' :: ds.takeWhile Char.isDigit := by
  unfold fractionPart
  split
  · split
    · exact .inr ⟨_, ‹_›, rfl⟩
    · exact .inl rfl
  · exact .inl rfl

theorem fractionPart_again (cs : List Char) (hdigit : digitNext rest = false)
    (hpoint : rest.head? ≠ some '.') :
    fractionPart (fractionPart cs ++ rest) = fractionPart cs := by
  obtain h | ⟨ds, hds, h⟩ := fractionPart_cases cs
  · rw [h, List.nil_append]
    unfold fractionPart
    split
    · simp at hpoint
    · rfl
  · rw [h, List.cons_append, fractionPart, if_pos (digitNext_append hds rest),
      takeWhile_again ds hdigit]

theorem exponentPart_cases (cs : List Char) :
    exponentPart cs = [] ∨ ∃ e ds, (e = 'e' ∨ e = 'E') ∧ digitNext ds ∧
      (exponentPart cs = e :: ds.takeWhile Char.isDigit ∨
        ∃ s, (s = '+' ∨ s = '-') ∧ exponentPart cs = e :: s :: ds.takeWhile Char.isDigit) := by
  unfold exponentPart
  split
  · exact .inl rfl
  · rename_i e cs
    split
    · rename_i he
      split
      · exact .inr ⟨e, cs, he, ‹_›, .inl rfl⟩
      · split
        · rename_i s ds _
          split
          · rename_i hs
            exact .inr ⟨e, ds, he, hs.2, .inr ⟨s, hs.1, rfl⟩⟩
          · exact .inl rfl
        · exact .inl rfl
    · exact .inl rfl

theorem exponentPart_digits (he : e = 'e' ∨ e = 'E') (h : digitNext ds) :
    exponentPart (e :: ds) = e :: ds.takeWhile Char.isDigit := by
  simp [exponentPart, he, h]

theorem exponentPart_signed (he : e = 'e' ∨ e = 'E') (hs : s = '+' ∨ s = '-') (h : digitNext ds) :
    exponentPart (e :: s :: ds) = e :: s :: ds.takeWhile Char.isDigit := by
  have hsign : digitNext (s :: ds) = false := by
    obtain rfl | rfl := hs <;> rfl
  simp [exponentPart, he, hs, h, hsign]

theorem exponentPart_eq_nil (h : cs.head? ≠ some 'e' ∧ cs.head? ≠ some 'E') :
    exponentPart cs = [] := by
  cases cs with
  | nil => rfl
  | cons c cs =>
    have hc : ¬ (c = 'e' ∨ c = 'E') := by simpa using h
    simp [exponentPart, hc]

theorem exponentPart_again (cs : List Char) (hdigit : digitNext rest = false)
    (hmark : rest.head? ≠ some 'e' ∧ rest.head? ≠ some 'E') :
    exponentPart (exponentPart cs ++ rest) = exponentPart cs := by
  obtain h | ⟨e, ds, he, hds, h | ⟨s, hs, h⟩⟩ := exponentPart_cases cs <;> rw [h]
  · exact exponentPart_eq_nil hmark
  · rw [List.cons_append, exponentPart_digits he (digitNext_append hds rest),
      takeWhile_again ds hdigit]
  · rw [List.cons_append, List.cons_append, exponentPart_signed he hs (digitNext_append hds rest),
      takeWhile_again ds hdigit]

/-- Neither a fraction nor an exponent starts with what a whole number goes on with. -/
theorem digitNext_exponentPart (cs : List Char) (h : digitNext rest = false) :
    digitNext (exponentPart cs ++ rest) = false := by
  obtain hcs | ⟨e, ds, he, -, hcs | ⟨s, -, hcs⟩⟩ := exponentPart_cases cs
  · rwa [hcs]
  · obtain rfl | rfl := he <;> rw [hcs] <;> rfl
  · obtain rfl | rfl := he <;> rw [hcs] <;> rfl

theorem digitNext_fractionPart (cs : List Char) (h : digitNext rest = false) :
    digitNext (fractionPart cs ++ rest) = false := by
  obtain hcs | ⟨ds, -, hcs⟩ := fractionPart_cases cs
  · rwa [hcs]
  · rw [hcs]
    rfl

theorem head_exponentPart_ne (cs : List Char) (h : rest.head? ≠ some '.') :
    (exponentPart cs ++ rest).head? ≠ some '.' := by
  obtain hcs | ⟨e, ds, he, -, hcs | ⟨s, -, hcs⟩⟩ := exponentPart_cases cs
  · rwa [hcs]
  · obtain rfl | rfl := he <;> simp [hcs]
  · obtain rfl | rfl := he <;> simp [hcs]

theorem numeralTail_eq (c : Char) (cs : List Char) : ∃ fs es,
    numeralTail c cs = cs.takeWhile Char.isDigit ++
      ((if c = '.' then [] else fractionPart fs) ++ exponentPart es) := by
  exact ⟨_, _, List.append_assoc _ _ _⟩

theorem numeralTail_of_parts (c : Char) (ds fs es : List Char) (hrest : EndsToken rest) :
    numeralTail c (ds.takeWhile Char.isDigit ++
      ((if c = '.' then [] else fractionPart fs) ++ exponentPart es) ++ rest) =
    ds.takeWhile Char.isDigit ++
      ((if c = '.' then [] else fractionPart fs) ++ exponentPart es) := by
  have hdigit : digitNext rest = false := hrest.head_any rfl
  have hmark : rest.head? ≠ some 'e' ∧ rest.head? ≠ some 'E' :=
    ⟨hrest.head_ne (by decide), hrest.head_ne (by decide)⟩
  have hpoint : rest.head? ≠ some '.' := hrest.head_ne (by decide)
  -- a part is read again up to its end, since the part behind it does not go on with it
  have hexponent := digitNext_exponentPart es hdigit
  unfold numeralTail
  split
  · simp only [List.nil_append, List.append_assoc, takeWhile_again ds hexponent,
      List.drop_left, List.length_nil, List.drop_zero, exponentPart_again es hdigit hmark]
  · have hfraction := digitNext_fractionPart fs hexponent
    simp only [List.append_assoc, takeWhile_again ds hfraction, List.drop_left,
      fractionPart_again fs hexponent (head_exponentPart_ne es hpoint),
      exponentPart_again es hdigit hmark]

theorem numeralTail_again (c : Char) (cs : List Char) (hrest : EndsToken rest) :
    numeralTail c (numeralTail c cs ++ rest) = numeralTail c cs := by
  obtain ⟨fs, es, h⟩ := numeralTail_eq c cs
  rw [h]
  exact numeralTail_of_parts c cs fs es hrest

theorem fractionPart_isPrefix (cs : List Char) : fractionPart cs <+: cs := by
  unfold fractionPart
  split
  · split
    · exact List.cons_prefix_cons.mpr ⟨rfl, List.takeWhile_prefix _⟩
    · exact List.nil_prefix
  · exact List.nil_prefix

theorem exponentPart_isPrefix (cs : List Char) : exponentPart cs <+: cs := by
  unfold exponentPart
  repeat' split
  · exact List.nil_prefix
  · exact List.cons_prefix_cons.mpr ⟨rfl, List.takeWhile_prefix _⟩
  · exact List.cons_prefix_cons.mpr ⟨rfl, List.cons_prefix_cons.mpr ⟨rfl, List.takeWhile_prefix _⟩⟩
  all_goals exact List.nil_prefix

theorem append_isPrefix {xs ys cs : List Char} (hxs : xs <+: cs) (hys : ys <+: cs.drop xs.length) :
    xs ++ ys <+: cs := by
  obtain ⟨more, rfl⟩ := hxs
  rw [List.drop_left] at hys
  exact (List.prefix_append_right_inj xs).mpr hys

theorem numeralTail_isPrefix (c : Char) (cs : List Char) : numeralTail c cs <+: cs := by
  unfold numeralTail
  dsimp only
  rw [List.append_assoc]
  refine append_isPrefix (List.takeWhile_prefix _) (append_isPrefix ?_ (exponentPart_isPrefix _))
  split
  · exact List.nil_prefix
  · exact fractionPart_isPrefix _

/-! ## Tokens -/

theorem numeralTail_of_numeral (h : numeral c (tail ++ rest) = (.token kind, tail.length)) :
    numeralTail c (tail ++ rest) = tail := by
  have hlength : (numeralTail c (tail ++ rest)).length = tail.length := by
    unfold numeral at h
    dsimp only at h
    repeat' split at h
    · cases h
    · exact (Prod.mk.inj h).2
    · cases h
  exact (List.prefix_of_prefix_length_le (numeralTail_isPrefix _ _) (List.prefix_append tail rest)
    hlength.le).eq_of_length hlength

theorem numeral_ne_nil (h : numeral c (tail ++ rest) = (.token kind, tail.length))
    (hdigit : digitNext (tail ++ rest)) : tail ≠ [] := by
  rintro rfl
  obtain ⟨fs, es, hparts⟩ := numeralTail_eq c rest
  rw [← List.nil_append rest, numeralTail_of_numeral h] at hparts
  cases rest with
  | nil => cases hdigit
  | cons d rest =>
    have hd : d.isDigit := by simpa [digitNext] using hdigit
    simp [hd] at hparts

theorem numeral_again (h : numeral c (tail ++ rest) = (.token kind, tail.length))
    (hmore : EndsToken more) :
    numeral c (tail ++ more) = (.token kind, tail.length) := by
  have htail := numeralTail_of_numeral h
  have hagain := numeralTail_again c (tail ++ rest) hmore
  have hletter : more.head?.any isLetter = false := hmore.head_any rfl
  rw [htail] at hagain
  -- with the same characters taken, only the letter that must not follow could make a difference
  unfold numeral at h ⊢
  simp only [htail, hagain, List.drop_left] at h ⊢
  split at h
  · cases h
  · rw [hletter]
    exact h

theorem quoted_token (h : quoted cs = (.token kind, n)) : ∃ body rest, cs = body ++ '"' :: rest ∧
    (∀ c ∈ body, (c != '"' && c != '\n') = true) ∧ kind = .text (String.ofList body) ∧
      n = body.length + 1 := by
  obtain ⟨left, hleft⟩ := List.takeWhile_prefix (l := cs) fun c => c != '"' && c != '\n'
  have hall :=
    List.all_eq_true.mp (List.all_takeWhile (p := fun c => c != '"' && c != '\n') (l := cs))
  unfold quoted at h
  dsimp only at h
  generalize (cs.takeWhile fun c => c != '"' && c != '\n') = body at *
  subst hleft
  rw [List.drop_left] at h
  split at h
  · rename_i hquote
    obtain ⟨rest, rfl⟩ := List.head?_eq_some_iff.mp hquote
    obtain ⟨hkind, rfl⟩ := Prod.mk.inj h
    exact ⟨body, rest, rfl, hall, (Lexeme.token.inj hkind).symm, rfl⟩
  · cases h

theorem quoted_append {body : List Char} (h : ∀ c ∈ body, (c != '"' && c != '\n') = true)
    (rest : List Char) :
    quoted (body ++ '"' :: rest) = (.token (.text (String.ofList body)), body.length + 1) := by
  have hbody : (body ++ '"' :: rest).takeWhile (fun c => c != '"' && c != '\n') = body := by
    rw [List.takeWhile_append_of_pos h]
    simp
  simp [quoted, hbody]

theorem quoted_again (h : quoted (tail ++ rest) = (.token kind, tail.length)) (more : List Char) :
    quoted (tail ++ more) = (.token kind, tail.length) := by
  obtain ⟨body, left, htext, hbody, rfl, hlength⟩ := quoted_token h
  have hsplit : tail ++ rest = body ++ ['"'] ++ left := by simp [htext]
  obtain rfl : tail = body ++ ['"'] := List.append_inj_left hsplit (by simpa using hlength)
  simpa using quoted_append hbody more

theorem word_again (h : word c (tail ++ rest) = (.token kind, tail.length))
    (hmore : EndsToken more) :
    word c (tail ++ more) = (.token kind, tail.length) := by
  obtain ⟨hkind, hlength⟩ := Prod.mk.inj h
  obtain ⟨htail, -⟩ := takeWhile_length_eq hlength
  have hagain := takeWhile_again (p := isWordChar) (tail ++ rest) (hmore.head_any rfl)
  rw [htail] at hagain hkind
  rw [word, hagain, hkind]

theorem not_isDigit_of_isLetter (h : isLetter c) : ¬ c.isDigit := by
  rcases Bool.or_eq_true_iff.mp h with halpha | hscore
  · simp [Text.isDigit_eq_false_of_isAlpha halpha]
  · rw [beq_iff_eq.mp hscore]
    decide

/-- What a token at the start of `c :: cs` can be, and how many characters of `cs` belong to it. -/
inductive IsToken (c : Char) (cs : List Char) : TokenKind → Nat → Prop
  | symbol : symbol? c = some kind → ¬ (c = '/' ∧ cs.head? = some '/') → IsToken c cs kind 0
  | minus : c = '-' → cs.head? ≠ some '>' → IsToken c cs .minus 0
  | arrow : c = '-' → cs.head? = some '>' → IsToken c cs .arrow 1
  | pipe : c = '|' → cs.head? = some '>' → IsToken c cs .pipe 1
  | quoted : c = '"' → Lexeme.quoted cs = (.token kind, n) → IsToken c cs kind n
  | numeral : c.isDigit ∨ c = '.' ∧ digitNext cs →
      Lexeme.numeral c cs = (.token kind, n) → IsToken c cs kind n
  | word : isLetter c → Lexeme.word c cs = (.token kind, n) → IsToken c cs kind n

theorem first_isToken (h : first c cs = (.token kind, n)) : IsToken c cs kind n := by
  unfold first at h
  split at h
  · cases h
  split at h
  · cases h
  rename_i hcomment
  split at h
  · cases h
    exact .symbol ‹_› hcomment
  split at h
  · split at h <;> cases h
    · exact .arrow ‹_› ‹_›
    · exact .minus ‹_› ‹_›
  split at h
  · split at h <;> cases h
    exact .pipe ‹_› ‹_›
  split at h
  · exact .quoted ‹_› h
  split at h
  · exact .numeral ‹_› h
  split at h
  · exact .word ‹_› h
  · cases h

/-- The characters that decide alone which lexeme they start, or with the one behind them. -/
def marks : List Char := " \t\r\n;(),:+*/^=%-|\"".toList

theorem first_of_not_mem_marks (h : c ∉ marks) (cs : List Char) :
    first c cs = if c.isDigit ∨ c = '.' ∧ digitNext cs then numeral c cs
      else if isLetter c then word c cs else (.fault (.unexpectedCharacter c), 0) := by
  have hsymbol : symbol? c = none := by
    unfold symbol?
    split <;> first | rfl | exact absurd (by decide) h
  have hne : ∀ d ∈ marks, c ≠ d := fun d hd hc => h (hc ▸ hd)
  simp only [first, hsymbol, hne ' ' (by decide), hne '\t' (by decide), hne '\r' (by decide),
    hne '/' (by decide), hne '-' (by decide), hne '|' (by decide), hne '"' (by decide),
    false_or, false_and,
    if_false]

theorem not_mem_marks {p : Char → Bool} (hc : p c) (h : marks.all (fun d => !p d)) : c ∉ marks := by
  intro hmem
  simpa [hc] using List.all_eq_true.mp h c hmem

theorem first_of_isToken (h : IsToken c cs kind n) : first c cs = (.token kind, n) := by
  cases h with
  | symbol hsymbol hcomment =>
    have hblank : ¬ (c = ' ' ∨ c = '\t' ∨ c = '\r') := by
      rintro (rfl | rfl | rfl) <;> cases hsymbol
    simp [first, hblank, hcomment, hsymbol]
  | minus hc hhead | arrow hc hhead | pipe hc hhead =>
    subst hc
    simp [first, symbol?, hhead]
  | quoted hc h =>
    subst hc
    simp [first, symbol?, h]
  | numeral hc h =>
    have hmarks : c ∉ marks := by
      obtain hdigit | ⟨rfl, -⟩ := hc
      · exact not_mem_marks hdigit (by decide)
      · decide
    rw [first_of_not_mem_marks hmarks, if_pos hc, h]
  | word hc h =>
    -- words are tried last, so nothing before them may apply
    have hnumeral : ¬ (c.isDigit ∨ c = '.' ∧ digitNext cs) := by
      rintro (hdigit | ⟨rfl, -⟩)
      · exact not_isDigit_of_isLetter hc hdigit
      · cases hc
    rw [first_of_not_mem_marks (not_mem_marks hc (by decide)), if_neg hnumeral, if_pos hc, h]

/-- A token is read again from its own characters, at the end of a text or in front of a space. -/
theorem first_again (h : first c (tail ++ rest) = (.token kind, tail.length))
    (hmore : EndsToken more) :
    first c (tail ++ more) = (.token kind, tail.length) := by
  -- what is looked at behind `c` is a part of the token, or must not be what would go on with it
  have hsame : tail ≠ [] → (tail ++ more).head? = (tail ++ rest).head? := by
    intro htail
    rw [List.head?_append_of_ne_nil _ htail, List.head?_append_of_ne_nil _ htail]
  have htoken := first_isToken h
  generalize hlength : tail.length = n at htoken
  apply first_of_isToken
  cases htoken with
  | symbol hsymbol =>
    obtain rfl := List.length_eq_zero_iff.mp hlength
    exact .symbol hsymbol fun hc => hmore.head_ne (by decide) hc.2
  | minus hc =>
    obtain rfl := List.length_eq_zero_iff.mp hlength
    exact .minus hc (hmore.head_ne (by decide))
  | arrow hc hhead => exact .arrow hc (by rwa [hsame (List.ne_nil_of_length_eq_add_one hlength)])
  | pipe hc hhead => exact .pipe hc (by rwa [hsame (List.ne_nil_of_length_eq_add_one hlength)])
  | quoted hc hquoted =>
    subst hlength
    exact .quoted hc (quoted_again hquoted more)
  | numeral hc hnumeral =>
    subst hlength
    refine .numeral (hc.imp_right fun ⟨hpoint, hdigit⟩ => ⟨hpoint, ?_⟩)
      (numeral_again hnumeral hmore)
    rwa [digitNext, hsame (numeral_ne_nil hnumeral hdigit)]
  | word hc hword =>
    subst hlength
    exact .word hc (word_again hword hmore)

end Lexeme

/-! ## Texts -/

def Span.text (s : Span) (source : String) : String := textBetween source s.offset s.stop

/-- The tokens of a text, written again with single spaces between them. -/
def respaced (source : String) : String :=
  " ".intercalate (((scan source).tokens.filter (·.kind ≠ .finish)).map (·.span.text source))

/-- The characters are those of one token, at the end of a text and in front of a space. -/
def IsSpelling (kind : TokenKind) (text : List Char) : Prop :=
  ∃ c tail, text = c :: tail ∧
    ∀ more, EndsToken more → Lexeme.first c (tail ++ more) = (.token kind, tail.length)

theorem Cut.isSpelling (h : Cut before rest found) (hsource : source.toList = before ++ rest)
    (hpiece : ⟨.token kind, span⟩ ∈ found) : IsSpelling kind (span.text source).toList := by
  induction h with
  | nil => cases hpiece
  | @cons c tail rest lexeme before found hfirst _ ih =>
    rcases List.mem_cons.mp hpiece with hpiece | hpiece
    · cases hpiece
      have htext : source.toList = before ++ c :: tail ++ rest := by simp [hsource]
      rw [Span.text, spanBehind_offset, spanBehind_stop, textBetween_eq htext, String.toList_ofList]
      exact ⟨c, tail, rfl, fun more hmore => Lexeme.first_again hfirst hmore⟩
    · exact ih (by simp [hsource]) hpiece

theorem IsSpelling.pieces (h : IsSpelling kind text) (hmore : EndsToken more) (p : Position) :
    ∃ span, pieces p (text ++ more) = ⟨.token kind, span⟩ :: pieces (p.after text) more := by
  obtain ⟨c, tail, rfl, hfirst⟩ := h
  have hpieces := pieces_cons p c (tail ++ more)
  rw [hfirst more hmore, List.take_left, List.drop_left] at hpieces
  exact ⟨_, hpieces⟩

theorem pieces_space (p : Position) (more : List Char) :
    ∃ span, pieces p (' ' :: more) = ⟨.blank, span⟩ :: pieces (p.advance ' ') more := by
  have hpieces := pieces_cons p ' ' more
  rw [show Lexeme.first ' ' more = (.blank, 0) from rfl, List.take_zero, List.drop_zero] at hpieces
  exact ⟨_, hpieces⟩

theorem pieces_intercalate {ts : List Token} {text : Token → List Char}
    (h : ∀ t ∈ ts, IsSpelling t.kind (text t)) (p : Position) :
    ((pieces p ([' '].intercalate (ts.map text))).filterMap Piece.token?).map Token.kind =
      ts.map Token.kind ∧
      (pieces p ([' '].intercalate (ts.map text))).filterMap Piece.finding? = [] := by
  induction ts generalizing p with
  | nil => simp [pieces_nil]
  | cons t ts ih =>
    obtain ⟨ht, hts⟩ := List.forall_mem_cons.mp h
    -- the last token is at the end of the text, every other in front of a space
    cases ts with
    | nil =>
      obtain ⟨span, hpieces⟩ := ht.pieces (.inl rfl) p
      rw [List.append_nil] at hpieces
      simp [hpieces, pieces_nil, Piece.token?, Piece.finding?]
    | cons u us =>
      have htext : [' '].intercalate ((t :: u :: us).map text) =
          text t ++ ' ' :: [' '].intercalate ((u :: us).map text) := by
        simp [List.intercalate]
      obtain ⟨span, hpieces⟩ := ht.pieces (.inr ⟨_, rfl⟩) p
      obtain ⟨gap, hspace⟩ := pieces_space (p.after (text t))
        ([' '].intercalate ((u :: us).map text))
      have hmore := ih hts ((p.after (text t)).advance ' ')
      rw [htext, hpieces, hspace]
      exact ⟨congrArg (t.kind :: ·) hmore.1, hmore.2⟩

theorem scan_tokens_filter (source : String) :
    (scan source).tokens.filter (·.kind ≠ .finish) = tokensOf source := by
  rw [scan_tokens, List.filter_append, List.filter_eq_self.mpr]
  · simp
  · intro t ht
    simpa using tokensOf_ne_finish source t ht

theorem respaced_toList (source : String) : (respaced source).toList =
    [' '].intercalate ((tokensOf source).map fun t => (t.span.text source).toList) := by
  rw [respaced, scan_tokens_filter, String.toList_intercalate, List.map_map]
  rfl

theorem scan_respaced (source : String) : (scan (respaced source)).findings = [] ∧
    (scan (respaced source)).tokens.map Token.kind = (scan source).tokens.map Token.kind := by
  have hspelled : ∀ t ∈ tokensOf source, IsSpelling t.kind (t.span.text source).toList :=
    fun t ht => (pieces_cut [] source.toList).isSpelling rfl (mem_tokensOf ht)
  obtain ⟨hkinds, hfindings⟩ := pieces_intercalate hspelled .origin
  rw [← respaced_toList] at hkinds hfindings
  refine ⟨hfindings, ?_⟩
  rw [scan_tokens, scan_tokens, List.map_append, List.map_append]
  exact congrArg (· ++ [TokenKind.finish]) hkinds

end SignalPatch
