import SignalPatch.Proofs.JoinedText
import SignalPatch.Proofs.LikePatches
import SignalPatch.Proofs.NumberOrder
import SignalPatch.Proofs.SingleAssignment

/-!
# Linking a preamble

A statement that was read completely is read the same if a new line follows it, unless that goes on
with a pipe. So a program behind a preamble is the preamble and then the program, if the program
does not start with a pipe. If it does, it becomes part of the last function of the preamble.
-/

namespace SignalPatch

/-! ## Reading on past a stop -/

def Likeness.same : Likeness where
  span := Eq
  text _ := Eq
  cover := by
    rintro _ _ _ _ rfl rfl
    rfl
  span_of_text h := h

theorem Token.Like.same (t : Token) : t.Like .same t :=
  ⟨rfl, rfl, fun _ => rfl, fun _ => trivial, fun _ => trivial, fun _ => trivial⟩

mutual

theorem Expr.Like.eq : Expr.Like .same e e' → e = e'
  | .number rfl _ => rfl
  | .bool rfl => rfl
  | .text rfl => rfl
  | .ident rfl => rfl
  | .hole rfl => rfl
  | .binary ha hb rfl => by rw [ha.eq, hb.eq]
  | .call hargs rfl _ => by rw [hargs.eq]
  | .pipe ha hb rfl => by rw [ha.eq, hb.eq]

theorem ArgsLike.eq : ArgsLike .same args args' → args = args'
  | .nil => rfl
  | .cons he rfl hargs => by rw [he.eq, hargs.eq]

end

theorem Parameter.Like.eq (h : Parameter.Like .same p p') : p = p' := by
  obtain ⟨hname, hdefault, hspan⟩ := h
  cases p
  cases p'
  simp_all [Likeness.same]

theorem Arg.Like.eq (h : Arg.Like .same a a') : a = a' := by
  obtain ⟨hname, hvalue, hspan⟩ := h
  have hvalue := hvalue.eq
  cases a
  cases a'
  simp_all [Likeness.same]

theorem parameters_eq (h : List.Forall₂ (Parameter.Like .same) params params') :
    params = params' := by
  have heq := h.imp fun _ _ hp => Parameter.Like.eq hp
  rwa [List.forall₂_eq_eq_eq] at heq

theorem Statement.Like.eq (h : Statement.Like .same s s') : s = s' := by
  cases h with
  | define _ hparams hbody hspan =>
    cases hspan
    rw [hbody.eq, parameters_eq hparams]
  | assign _ hvalue hspan =>
    cases hspan
    rw [hvalue.eq]
  | expr hvalue => rw [hvalue.eq]

namespace Grammar

/-- Tokens before which every statement ends. -/
structure Stops (more : List Token) : Prop where
  head : ∀ t ∈ more.head?, isSeparator t
  pipe : pipe? more = none

theorem skipNewlines_append (ts more : List Token) : skipNewlines (ts ++ more) =
    if skipNewlines ts = [] then skipNewlines more else skipNewlines ts ++ more := by
  unfold skipNewlines
  rw [List.dropWhile_append]
  simp only [List.isEmpty_iff]

theorem stopsReading_of_separator (h : isSeparator t) : stopsReading t.kind := by
  rw [isSeparator, Bool.or_eq_true, beq_iff_eq, beq_iff_eq] at h
  rcases h with h | h <;> rw [h] <;> rfl

/-- What follows a stop is not read. -/
def Simulation.ofStop (more : List Token) (h : Stops more) : Simulation .same where
  strong ts ts' := ts' = ts ++ more
  weak ts ts' := ts' = ts ++ more ∨ ts = []
  lost := True
  fault _ _ := True
  weak_of_strong := .inl
  cons := by
    rintro t ts ts' (rfl | hnil)
    · exact ⟨t, ts ++ more, rfl, .same t, rfl⟩
    · cases hnil
  stops := by
    rintro _ rfl t ht
    exact stopsReading_of_separator (h.head t ht)
  ends hlost := absurd trivial hlost
  here hlost := absurd trivial hlost
  past hlost := absurd trivial hlost
  missing hlost := absurd trivial hlost
  keep _ _ := trivial
  skip := by
    rintro ts ts' (rfl | rfl)
    · rw [skipNewlines_append]
      split
      · rename_i hnil
        exact .inr hnil
      · exact .inl rfl
    · exact .inr rfl
  order _ _ _ := trivial
  pipe := by
    rintro ts _ rfl
    rw [pipe?_eq, pipe?_eq, skipNewlines_append]
    split
    · rename_i hnil
      rw [hnil, ← pipe?_eq, h.pipe]
      exact .inl ⟨rfl, rfl⟩
    · rename_i hne
      obtain ⟨t, rest, hskip⟩ := List.exists_cons_of_ne_nil hne
      rw [hskip]
      simp only [List.cons_append, after]
      split
      · exact .inr ⟨_, _, rfl, rfl, rfl⟩
      · exact .inl ⟨rfl, rfl⟩

theorem statement_append (hstop : Stops more) (h : plain (statement (t :: ts)) = .ok (s, rest)) :
    plain (statement (t :: ts ++ more)) = .ok (s, rest ++ more) := by
  have hstrong : (Simulation.ofStop more hstop).strong (t :: ts) (t :: ts ++ more) := rfl
  have hlike := Simulation.statement_like hstrong
  rw [h] at hlike
  generalize plain (statement (t :: ts ++ more)) = x at hlike ⊢
  cases hlike with
  | ok hs hrest => rw [hs.eq, hrest]
  | ended _ hend => exact hend.elim

def Turn.isComplete : Turn → Bool
  | .complete _ => true
  | _ => false

theorem skipStatement_of_isComplete (h : (finished s rest).isComplete) :
    skipStatement rest = rest := by
  cases rest with
  | nil => rfl
  | cons t rest =>
    simp only [finished] at h
    split at h
    · exact skipStatement_separator ‹_› rest
    · cases h

theorem finished_append (s : Statement) (rest : List Token) (hsep : isSeparator sep)
    (more : List Token) : finished s (rest ++ sep :: more) = finished s rest := by
  cases rest with
  | nil => simp [finished, hsep]
  | cons t rest => rfl

theorem turns_congr (h : ts.dropWhile isSeparator = ts'.dropWhile isSeparator) :
    turns ts = turns ts' := by
  cases hts : ts.dropWhile isSeparator with
  | nil => rw [turns_done hts, turns_done (h ▸ hts)]
  | cons t rest =>
    have hts' := h ▸ hts
    cases hs : plain (statement (t :: rest)) with
    | ok p => rw [turns_read hts hs, turns_read hts' hs]
    | error f => rw [turns_fault hts hs, turns_fault hts' hs]

theorem turns_append (hcomplete : (turns ts).all Turn.isComplete) (hsep : isSeparator sep)
    (hstop : Stops (sep :: more)) : turns (ts ++ sep :: more) = turns ts ++ turns more := by
  cases hts : ts.dropWhile isSeparator with
  | nil =>
    rw [turns_done hts, List.nil_append]
    apply turns_congr
    rw [List.dropWhile_append, hts]
    simp [hsep]
  | cons t rest =>
    have hle : (t :: rest).length ≤ ts.length := hts ▸ (List.dropWhile_sublist _).length_le
    have hdrop : (ts ++ sep :: more).dropWhile isSeparator = t :: (rest ++ sep :: more) := by
      rw [List.dropWhile_append, hts]
      rfl
    cases hs : plain (statement (t :: rest)) with
    | error f => simp [turns_fault hts hs, Turn.isComplete] at hcomplete
    | ok p =>
      obtain ⟨s, rest'⟩ := p
      have hlt := plain_length hs
      have hread := turns_read hts hs
      rw [hread, List.all_cons, Bool.and_eq_true] at hcomplete
      -- A complete statement is followed by a separator, so nothing is skipped after it, alone or
      -- not.
      have hskip := skipStatement_of_isComplete hcomplete.1
      rw [hskip] at hread hcomplete
      have hread' := turns_read hdrop (statement_append hstop hs)
      have hfinished := finished_append s rest' hsep more
      rw [skipStatement_of_isComplete (hfinished ▸ hcomplete.1), hfinished] at hread'
      rw [hread, hread', turns_append hcomplete.2 hsep hstop, List.cons_append]
termination_by ts.length

theorem pipe?_newline (span : Span) (ts : List Token) :
    pipe? (⟨.newline, span⟩ :: ts) = pipe? ts := by
  simp [pipe?_eq, skipNewlines]

end Grammar

/-! ## Moved programs -/

def Likeness.moved (b : Boundary) : Likeness where
  span s s' := s' = b.move s
  text _ s s' := s' = b.move s
  cover := by
    rintro _ _ _ _ rfl rfl
    exact (b.move_cover _ _).symm
  span_of_text h := h

theorem Token.Like.moved (b : Boundary) (ts : List Token) :
    List.Forall₂ (Token.Like (.moved b)) ts (ts.map (.move b)) := by
  induction ts with
  | nil => exact .nil
  | cons t ts ih =>
    exact .cons ⟨rfl, rfl, fun _ => rfl, fun _ => trivial, fun _ => trivial, fun _ => trivial⟩ ih

def Parameter.move (b : Boundary) (p : Parameter) : Parameter := { p with span := b.move p.span }

def Arg.move (b : Boundary) (k : Nat) (a : Arg NodeId) : Arg NodeId :=
  ⟨a.name, a.value + k, b.move a.span⟩

/-- The node at its place in the joined text, `k` nodes further on in the arena. -/
def Node.move (b : Boundary) (k : Nat) (node : Node) : Node :=
  { span := b.move node.span
    kind := match node.kind with
      | .binary op lhs rhs => .binary op (lhs + k) (rhs + k)
      | .call callee args => .call callee (args.map (.move b k))
      | .pipe source target => .pipe (source + k) (target + k)
      | .assign name value => .assign name (value + k)
      | .define name params body => .define name (params.map (.move b)) (body + k)
      | kind => kind }

theorem eq_map_of_forall₂ {f : α → β} (h : List.Forall₂ R xs ys) (hR : ∀ x y, R x y → y = f x) :
    ys = xs.map f := by
  induction h with
  | nil => rfl
  | cons hxy _ ih => rw [List.map_cons, ← hR _ _ hxy, ih]

theorem Node.Like.eq_move (h : Node.Like (.moved b) k node node') : node' = node.move b k := by
  cases h with
  | call hargs hs =>
    have hargs := eq_map_of_forall₂ (f := Arg.move b k) hargs ?_
    · cases hs
      rw [hargs]
      rfl
    · rintro ⟨name, value, span⟩ ⟨name', value', span'⟩ ⟨hname, hvalue, hspan⟩
      cases hname
      cases hvalue
      cases hspan
      rfl
  | define hparams hs =>
    have hparams := eq_map_of_forall₂ (f := Parameter.move b) hparams ?_
    · cases hs
      rw [hparams]
      rfl
    · rintro ⟨name, default, span⟩ ⟨name', default', span'⟩ ⟨hname, hdefault, hspan⟩
      cases hname
      cases hdefault
      cases hspan
      rfl
  | number hs | bool hs | text hs | ident hs | hole hs | binary hs | pipe hs | assign hs =>
    cases hs
    rfl

def Patch.join (p q : Patch) (b : Boundary) : Patch :=
  ⟨p.nodes ++ q.nodes.map (.move b p.nodes.size),
    p.statements ++ q.statements.map (· + p.nodes.size)⟩

theorem Patch.Like.eq_join (h : Patch.Like (.moved b) p q r) : r = p.join q b := by
  obtain ⟨⟨tail, htail, hlike⟩, hstatements⟩ := h
  have htail' := eq_map_of_forall₂ (f := Node.move b p.nodes.toList.length) hlike
    fun _ _ h => h.eq_move
  obtain ⟨nodes, statements⟩ := r
  simp only [Patch.join, Patch.mk.injEq]
  refine ⟨?_, hstatements⟩
  apply Array.toList_inj.mp
  rw [htail, htail']
  simp

/-! ## Findings of scanning and parsing -/

structure Issue.IsSyntactic (issue : Issue) : Prop where
  severity : issue.severity = .error
  notes : ∀ filename, issue.notes filename = []

/-- What the lexeme at the start of `c :: cs` can be: never an end mark, a text only between quotes
on one line, a name of letters and digits, a numeral with a value, and if it is no token, an
error. -/
def Lexeme.IsProper (c : Char) (cs : List Char) : Lexeme → Prop
  | .blank => True
  | .token .finish => False
  | .token (.text value) =>
    c = '"' ∧ (∃ rest, cs = value.toList ++ '"' :: rest) ∧ '\n' ∉ value.toList
  | .token (.ident name) => ∀ d ∈ name.toList, Lexeme.isWordChar d
  | .token (.number v) => Decimal.IsNumber v
  | .token _ => True
  | .fault issue => issue.IsSyntactic

namespace Lexeme

theorem symbol?_isProper (cs : List Char) (h : symbol? c = some kind) :
    IsProper c cs (.token kind) := by
  unfold symbol? at h
  split at h <;> cases h <;> exact trivial

theorem quoted_isProper (cs : List Char) : IsProper '"' cs (quoted cs).1 := by
  have hall :=
    List.all_eq_true.mp (List.all_takeWhile (p := fun c => c != '"' && c != '\n') (l := cs))
  obtain ⟨rest, hrest⟩ := List.takeWhile_prefix (l := cs) fun c => c != '"' && c != '\n'
  unfold quoted
  dsimp only
  generalize (cs.takeWhile fun c => c != '"' && c != '\n') = body at *
  subst hrest
  rw [List.drop_left]
  split
  · rename_i hquote
    obtain ⟨rest, rfl⟩ := List.head?_eq_some_iff.mp hquote
    refine ⟨rfl, ⟨rest, by rw [String.toList_ofList]⟩, fun hmem => ?_⟩
    rw [String.toList_ofList] at hmem
    cases hall _ hmem
  · exact ⟨rfl, fun _ => rfl⟩

theorem numeral_isProper (c : Char) (cs : List Char) : IsProper c cs (numeral c cs).1 := by
  unfold numeral
  dsimp only
  split
  · exact ⟨rfl, fun _ => rfl⟩
  · split
    · exact Decimal.Numeral.toFloat_isNumber _
    · exact ⟨rfl, fun _ => rfl⟩

theorem isWordChar_of_isLetter (h : isLetter c) : isWordChar c := by
  simp only [isLetter, Bool.or_eq_true] at h
  simp only [isWordChar, Char.isAlphanum, Bool.or_eq_true]
  exact h.imp_left .inl

theorem word_isProper (h : isLetter c) (cs : List Char) : IsProper c cs (word c cs).1 := by
  have hall : ∀ d ∈ (String.ofList (c :: cs.takeWhile isWordChar)).toList, isWordChar d := by
    rw [String.toList_ofList]
    exact List.forall_mem_cons.mpr
      ⟨isWordChar_of_isLetter h, List.all_eq_true.mp List.all_takeWhile⟩
  unfold word keywordOrName
  dsimp only
  split
  · exact trivial
  · exact trivial
  · exact trivial
  · exact hall

theorem first_isProper (c : Char) (cs : List Char) : IsProper c cs (first c cs).1 := by
  unfold first
  repeat' split
  · exact trivial
  · exact trivial
  · exact symbol?_isProper cs ‹_›
  · exact trivial
  · exact trivial
  · exact trivial
  · exact ⟨rfl, fun _ => rfl⟩
  · rename_i hquote
    exact hquote ▸ quoted_isProper cs
  · exact numeral_isProper c cs
  · exact word_isProper ‹_› cs
  · exact ⟨rfl, fun _ => rfl⟩

end Lexeme

theorem pieces_isProper (p : Position) (cs : List Char) :
    ∀ piece ∈ pieces p cs, ∃ c rest, piece.lexeme.IsProper c rest := by
  cases cs with
  | nil => simp [pieces_nil]
  | cons c cs =>
    rw [pieces_cons]
    rintro piece (_ | ⟨_, hmem⟩)
    · exact ⟨c, cs, Lexeme.first_isProper c cs⟩
    · exact pieces_isProper _ _ piece hmem
termination_by cs.length
decreasing_by exact drop_length_lt _ c cs

theorem tokensOf_ne_finish (source : String) : ∀ t ∈ tokensOf source, t.kind ≠ .finish := by
  rintro ⟨kind, span⟩ ht rfl
  obtain ⟨c, rest, hproper⟩ := pieces_isProper _ _ _ (mem_tokensOf ht)
  exact hproper

theorem scan_isSyntactic (source : String) : ∀ f ∈ (scan source).findings, f.issue.IsSyntactic := by
  intro f hf
  obtain ⟨c, rest, hproper⟩ := pieces_isProper _ _ _ (mem_scan_findings hf)
  exact hproper

theorem parse_isSyntactic (tokens : List Token) :
    ∀ f ∈ (parse tokens).findings, f.issue.IsSyntactic := by
  simp only [parse, List.mem_filterMap]
  rintro f ⟨turn, -, hfinding⟩
  cases turn with
  | complete => cases hfinding
  | trailing =>
    cases hfinding
    exact ⟨rfl, fun _ => rfl⟩
  | abandoned fault =>
    cases hfinding
    obtain ⟨reason, found, left, built⟩ := fault
    cases reason <;> exact ⟨rfl, fun _ => rfl⟩

theorem any_isError {fs : List Finding} (h : ∀ f ∈ fs, f.issue.IsSyntactic) (hne : fs ≠ []) :
    fs.any Finding.isError := by
  obtain ⟨f, fs, rfl⟩ := List.exists_cons_of_ne_nil hne
  simp [Finding.isError, (h f (.head _)).severity]

theorem Finding.relocate_move (b : Boundary) (filename : String) {f : Finding}
    (h : f.issue.IsSyntactic) :
    b.relocateDiagnostic filename ((f.move b).diagnostic filename) = f.diagnostic filename := by
  simp only [Boundary.relocateDiagnostic, Finding.diagnostic, Finding.move, b.relocate_move,
    b.filename_move, h.notes]
  rfl

theorem relocated_move (b : Boundary) (filename : String) {fs : List Finding}
    (h : ∀ f ∈ fs, f.issue.IsSyntactic) :
    relocated b filename (fs.map (.move b)) = fs.map (Finding.diagnostic filename) := by
  rw [relocated, List.map_map]
  exact List.map_congr_left fun f hf => Finding.relocate_move b filename (h f hf)

/-! ## Linked programs -/

open Grammar

def endOf (source : String) : Span :=
  (Position.origin.after source.toList).spanTo (.after .origin source.toList)

theorem beforeFinish_scan (source : String) :
    beforeFinish (scan source).tokens = tokensOf source := by
  have hall : ∀ t ∈ tokensOf source, (t.kind != .finish) = true := by
    intro t ht
    simpa using tokensOf_ne_finish source t ht
  rw [scan_tokens, beforeFinish, List.takeWhile_append_of_pos hall]
  simp

theorem stopSpan_scan (source : String) : stopSpan (scan source).tokens = endOf source := by
  have hnone : (tokensOf source).find? (·.kind == .finish) = none := by
    rw [List.find?_eq_none]
    intro t ht
    simpa using tokensOf_ne_finish source t ht
  rw [scan_tokens, stopSpan, List.find?_append, hnone]
  rfl

theorem parse_scan (source : String) : parse (scan source).tokens =
    { patch := (turns (tokensOf source)).foldl Patch.addTurn .empty
      findings := (turns (tokensOf source)).filterMap (Turn.finding? (endOf source)) } := by
  rw [parse, beforeFinish_scan, stopSpan_scan]

theorem LinkedSource.endOf_text (linked : LinkedSource) :
    endOf linked.text = linked.boundary.move (endOf linked.user) := by
  rw [endOf, endOf, linked.after_text, Boundary.spanTo_movePosition]

theorem filterMap_finding?_isComplete {read : List Turn} (h : read.all Turn.isComplete)
    (stop : Span) :
    read.filterMap (Turn.finding? stop) = [] := by
  rw [List.filterMap_eq_nil_iff]
  intro turn hturn
  have hcomplete := List.all_eq_true.mp h turn hturn
  cases turn <;> first | rfl | cases hcomplete

/-- A program stands behind its preamble as it would alone: the nodes are those of the preamble and
then those of the program, in their places, and the messages are those about the program. -/
structure LinkedSource.Transparent (linked : LinkedSource) : Prop where
  patch : linked.patch = (parse (scan linked.preamble).tokens).patch.join
    (parse (scan linked.user).tokens).patch linked.boundary
  messages : ∀ filename, relocated linked.boundary filename
    (parse (scan linked.text).tokens).findings =
    (parse (scan linked.user).tokens).findings.map (Finding.diagnostic filename)

variable {linked : LinkedSource}

theorem LinkedSource.turns_text (hcomplete : (turns (tokensOf linked.preamble)).all Turn.isComplete)
    (hpipe : pipe? (tokensOf linked.user) = none) : turns (tokensOf linked.text) =
      turns (tokensOf linked.preamble) ++
        turns ((tokensOf linked.user).map (.move linked.boundary)) := by
  have hsep : isSeparator linked.joint := rfl
  rw [linked.tokensOf_text]
  refine turns_append hcomplete hsep ⟨?_, ?_⟩
  · rintro _ ⟨⟩
    exact hsep
  · -- Moving tokens does not make a pipe of them.
    rw [LinkedSource.joint, pipe?_newline]
    rcases pipe_like (Token.Like.moved linked.boundary (tokensOf linked.user))
      with h | ⟨rest, _, h, -, -⟩
    · exact h.2
    · rw [hpipe] at h
      cases h

theorem LinkedSource.transparent
    (hcomplete : (turns (tokensOf linked.preamble)).all Turn.isComplete)
    (hpipe : pipe? (tokensOf linked.user) = none) : linked.Transparent := by
  have hturns := linked.turns_text hcomplete hpipe
  have hlike := turns_like (Token.Like.moved linked.boundary (tokensOf linked.user))
  refine ⟨?_, fun filename => ?_⟩
  · rw [LinkedSource.patch, parse_scan, parse_scan, parse_scan]
    dsimp only
    rw [hturns, List.foldl_append]
    exact ((Patch.Like.empty _ _).foldl hlike).eq_join
  · have hfindings : (parse (scan linked.text).tokens).findings =
        (parse (scan linked.user).tokens).findings.map (.move linked.boundary) := by
      rw [parse_scan, parse_scan]
      dsimp only
      rw [hturns, List.filterMap_append, filterMap_finding?_isComplete hcomplete, List.nil_append]
      apply eq_map_of_forall₂ (findings_like linked.endOf_text hlike)
      rintro ⟨issue, span⟩ ⟨issue', span'⟩ ⟨hissue, hspan⟩
      cases hissue
      cases hspan
      rfl
    rw [hfindings]
    exact relocated_move _ _ (parse_isSyntactic _)

def HasSyntaxErrors (source : String) : Prop :=
  (scan source).findings ≠ [] ∨ (parse (scan source).tokens).findings ≠ []

theorem compileLinked_clean (h : (compileLinked linked filename bank).success) :
    (scan linked.text).findings = [] ∧ (parse (scan linked.text).tokens).findings = [] := by
  unfold compileLinked at h
  dsimp only at h
  split at h
  · cases h
  rename_i hscan
  split at h
  · cases h
  rename_i hparse
  rw [hasErrors_append, Bool.or_eq_true, not_or, hasErrors_relocated, hasErrors_relocated] at hparse
  exact ⟨Decidable.byContradiction fun hne => hparse.1 (any_isError (scan_isSyntactic _) hne),
    Decidable.byContradiction fun hne => hparse.2 (any_isError (parse_isSyntactic _) hne)⟩

theorem LinkedSource.Transparent.fails (h : (standard source).Transparent)
    (herrors : HasSyntaxErrors source) (filename : String) (bank : SampleRegistry) :
    (compile source filename bank).success = false := by
  unfold compile
  split
  · rfl
  rw [Bool.eq_false_iff]
  intro hsuccess
  obtain ⟨hscan, hparse⟩ := compileLinked_clean hsuccess
  rw [LinkedSource.scan_findings, List.append_eq_nil_iff, List.map_eq_nil_iff] at hscan
  have hmessages := h.messages filename
  rw [hparse] at hmessages
  rcases herrors with herrors | herrors
  · exact herrors hscan.2
  · exact herrors (List.map_eq_nil_iff.mp hmessages.symm)

theorem turns_standard : (turns (tokensOf Preamble.standard)).all Turn.isComplete := by
  rw [tokensOf, Preamble.characters.2]
  decide +kernel

def StartsWithPipe (source : String) : Prop := pipe? (tokensOf source) ≠ none

theorem standard_transparent (source : String) (h : ¬ StartsWithPipe source) :
    (LinkedSource.standard source).Transparent ∧
      ∀ filename bank, HasSyntaxErrors source → (compile source filename bank).success = false := by
  have htransparent : (LinkedSource.standard source).Transparent :=
    LinkedSource.transparent turns_standard (Decidable.not_not.mp h)
  exact ⟨htransparent, fun filename bank herrors => htransparent.fails herrors filename bank⟩

def unclosedCall : String := "lead = saw(220\nlead |> out(%)\n"

theorem unclosedCall_transparent : ¬ StartsWithPipe unclosedCall ∧ HasSyntaxErrors unclosedCall ∧
    (LinkedSource.standard unclosedCall).Transparent ∧
      (compile unclosedCall "lead" .drums).success = false := by
  have hchars : unclosedCall.toList = _ := String.toList_ofList
  have hpipe : ¬ StartsWithPipe unclosedCall := by
    rw [StartsWithPipe, tokensOf, hchars]
    decide +kernel
  have herrors : HasSyntaxErrors unclosedCall := by
    rw [HasSyntaxErrors, scan_of_toList hchars]
    decide +kernel
  obtain ⟨htransparent, hfails⟩ := standard_transparent unclosedCall hpipe
  exact ⟨hpipe, herrors, htransparent, hfails "lead" .drums herrors⟩

/-- A pipe without a source. Behind the preamble its source is the body of the last function
there. -/
def sourcelessPipe : String := "|> abs(%)"

theorem sourcelessPipe_not_transparent : HasSyntaxErrors sourcelessPipe ∧
    (compile sourcelessPipe "test.akk" .drums).success ∧
      ¬ (LinkedSource.standard sourcelessPipe).Transparent := by
  have hchars : sourcelessPipe.toList = _ := String.toList_ofList
  have herrors : HasSyntaxErrors sourcelessPipe := by
    rw [HasSyntaxErrors, scan_of_toList hchars]
    decide +kernel
  have hsuccess : (compile sourcelessPipe "test.akk" .drums).success :=
    compile_success hchars (by simp) (by decide +kernel)
  refine ⟨herrors, hsuccess, fun htransparent => ?_⟩
  rw [htransparent.fails herrors] at hsuccess
  cases hsuccess

end SignalPatch
