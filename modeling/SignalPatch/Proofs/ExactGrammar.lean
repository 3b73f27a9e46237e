import SignalPatch.Proofs.Reading
import SignalPatch.Proofs.Recovery
import SignalPatch.Proofs.Storage

/-!
# Exactly the grammar is read

On one line, what is read has a derivation; with `Derives.reads` the readers take exactly what the
grammar derives. Semicolons separate statements, so a program is read without a finding if and only
if each of its segments is empty or derives a statement, and these are the statements of the patch.
-/

namespace SignalPatch

namespace Grammar

/-! ## What is read is derived -/

def OnOneLine (ts : List Token) : Prop := ∀ t ∈ ts, t.kind ≠ .newline

theorem OnOneLine.skip (h : OnOneLine ts) : skipNewlines ts = ts :=
  skipNewlines_eq fun t ht => h t (List.mem_of_mem_head? ht)

theorem OnOneLine.suffix {ts rest : List Token} (h : OnOneLine ts) (hrest : rest <:+ ts) :
    OnOneLine rest :=
  fun t ht => h t (hrest.subset ht)

theorem OnOneLine.after (h : OnOneLine ts) (hafter : after mark ts = some rest) :
    OnOneLine rest := by
  obtain ⟨span, rfl⟩ := after_eq_some hafter
  exact h.suffix (List.suffix_cons _ _)

/-- The tokens before `rest` are taken, and their kinds are as said. -/
def Takes (P : List TokenKind → Prop) (ts rest : List Token) : Prop :=
  ∃ taken, ts = taken ++ rest ∧ P (taken.map Token.kind)

namespace Takes

variable {P Q : List TokenKind → Prop}

theorem nil (h : P []) : Takes P ts ts := ⟨[], rfl, h⟩

theorem cons (h : Takes (fun ks => P (t.kind :: ks)) ts rest) : Takes P (t :: ts) rest := by
  obtain ⟨taken, rfl, hv⟩ := h
  exact ⟨t :: taken, rfl, hv⟩

theorem trans (h : Takes P ts rest)
    (hmore : ∀ ks, P ks → Takes (fun ks' => Q (ks ++ ks')) rest rest') :
    Takes Q ts rest' := by
  obtain ⟨taken, rfl, hv⟩ := h
  obtain ⟨taken', rfl, hw⟩ := hmore _ hv
  exact ⟨taken ++ taken', (List.append_assoc ..).symm, by rwa [List.map_append]⟩

theorem imp (h : Takes P ts rest) (hPQ : ∀ ks, P ks → Q ks) : Takes Q ts rest := by
  obtain ⟨taken, hts, hv⟩ := h
  exact ⟨taken, hts, hPQ _ hv⟩

theorem onOneLine (h : Takes P ts rest) (hline : OnOneLine ts) : OnOneLine rest := by
  obtain ⟨taken, rfl, -⟩ := h
  exact hline.suffix (List.suffix_append _ _)

end Takes

theorem Derives.of_operand {l : Level} (hl : l.isLoop) (h : Derives l.operand ks e) :
    Derives l ks e := by
  cases l with
  | expr => exact .sum h
  | sum => exact .product h
  | product => exact .power h
  | power | unary | primary => cases hl

theorem Derives.join {l : Level} {a b : Expr} (hmark : l.mark? kind = some op)
    (ha : Derives l ks a.shape) (hb : Derives l.operand ks' b.shape) :
    Derives l (ks ++ kind :: ks') (op.join a b).shape := by
  cases l with
  | expr =>
    cases kind <;> cases hmark
    exact .pipe ha hb
  | sum =>
    obtain ⟨op, hop, rfl⟩ := Option.map_eq_some_iff.mp hmark
    exact .sumOp hop ha hb
  | product =>
    obtain ⟨op, hop, rfl⟩ := Option.map_eq_some_iff.mp hmark
    exact .productOp hop ha hb
  | power | unary | primary => cases hmark

theorem OnOneLine.next {l : Level} (hline : OnOneLine ts) (h : l.next? ts = some (op, rest)) :
    ∃ t, ts = t :: rest ∧ l.mark? t.kind = some op := by
  obtain ⟨t, hts, hmark⟩ := Level.next?_eq_some h
  rw [hline.skip, or_self] at hts
  exact ⟨t, hts, hmark⟩

theorem Derives.of_literal (h : literal? t = some e) : Derives .primary [t.kind] e.shape := by
  obtain ⟨kind, span⟩ := t
  cases kind <;> cases h
  · exact .true
  · exact .false
  · exact .number
  · exact .text
  · exact .hole

theorem OnOneLine.tail (h : OnOneLine (t :: ts)) : OnOneLine ts := h.suffix (List.suffix_cons _ _)

mutual

/-- On one line, the tokens that are taken for an expression derive it. -/
theorem Reads.derived : Reads l ts e rest → OnOneLine ts → Takes (Derives l · e.shape) ts rest
  | .loop hl h hmore, hline => by
    have hfirst := h.derived hline
    exact hfirst.trans fun ks hks => hmore.derived (hfirst.onOneLine hline) (hks.of_operand hl)
  | .base h _, hline => (h.derived hline).imp fun _ => .unary
  | .power h hcaret hmore, hline => by
    have hbase := h.derived hline
    -- on one line there is no newline to skip
    have hrest := (hbase.onOneLine hline).after hcaret
    have hexponent := hmore.derived (hrest.skip.symm ▸ hrest)
    rw [hrest.skip] at hexponent
    obtain ⟨span, rfl⟩ := after_eq_some hcaret
    exact hbase.trans fun ks hks => (hexponent.imp fun _ => .powerOp hks).cons
  | .negative, _ => .cons (.cons (.nil .negative))
  | .negated hnumber h, hline => by
    obtain ⟨taken, rfl, he⟩ := h.derived hline.tail
    refine ⟨_ :: taken, rfl, .negated he fun value hvalue => ?_⟩
    obtain ⟨span, rfl⟩ := only_kind hvalue
    cases hnumber
  | .primary _ h, hline => (h.derived hline).imp fun _ => .primary
  | .literal h, _ => .cons (.nil (.of_literal h))
  | .ident _, _ => .cons (.nil .ident)
  | .call₀ hclose, hline => by
    rw [hline.tail.tail.skip] at hclose
    rw [hclose]
    exact .cons (.cons (.cons (.nil .call₀)))
  | .call _ hargs hclose, hline => by
    have hinner := hline.tail.tail
    have htaken := hargs.derived (hinner.skip.symm ▸ hinner)
    rw [hinner.skip] at htaken
    rw [(htaken.onOneLine hinner).skip] at hclose
    subst hclose
    exact .cons (.cons (htaken.trans fun ks hks => .cons (.nil (.call hks))))
  | .paren h hclose, hline => by
    have hinner := hline.tail
    have htaken := h.derived (hinner.skip.symm ▸ hinner)
    rw [hinner.skip] at htaken
    rw [(htaken.onOneLine hinner).skip] at hclose
    subst hclose
    exact .cons (htaken.trans fun ks hks => .cons (.nil (.paren hks)))

theorem Continues.derived : Continues l a ts e rest → OnOneLine ts → ∀ {ks}, Derives l ks a.shape →
    Takes (fun ks' => Derives l (ks ++ ks') e.shape) ts rest
  | .stop _, _, _, ha => .nil (by rwa [List.append_nil])
  | .step hnext h hmore, hline, ks, ha => by
    obtain ⟨t, rfl, hmark⟩ := hline.next hnext
    have hrest := hline.tail
    have hoperand := h.derived (hrest.skip.symm ▸ hrest)
    rw [hrest.skip] at hoperand
    refine .cons (hoperand.trans fun ks' hb => ?_)
    have hall := hmore.derived (hoperand.onOneLine hrest) (.join hmark ha hb)
    simpa only [List.append_assoc, List.cons_append] using hall

theorem ReadsArgs.derived :
    ReadsArgs ts args rest → OnOneLine ts → Takes (DerivesArgs · (argShapes args)) ts rest
  | .one (a := ⟨_, _, _⟩) h _, hline => by
    have harg := h.derived hline
    rw [(harg.onOneLine hline).skip]
    refine harg.imp ?_
    rintro _ ⟨ks, rfl, he⟩
    exact .one he
  | .cons (a := ⟨_, _, _⟩) h hcomma hmore, hline => by
    have harg := h.derived hline
    have hrest := harg.onOneLine hline
    rw [hrest.skip] at hcomma
    have hrest' := hrest.after hcomma
    have hargs := hmore.derived (hrest'.skip.symm ▸ hrest')
    rw [hrest'.skip] at hargs
    obtain ⟨span, rfl⟩ := after_eq_some hcomma
    refine harg.trans ?_
    rintro _ ⟨ks, rfl, he⟩
    exact (hargs.imp fun _ => .cons he).cons

theorem ReadsArg.derived : ReadsArg ts a rest → OnOneLine ts →
    Takes (fun ks => ∃ ks', ks = label a.name ++ ks' ∧ Derives .expr ks' a.value.shape) ts rest
  | .named hlabel h, hline => by
    obtain ⟨at_, rfl⟩ := label?_eq_some hlabel
    have hrest := hline.tail.tail
    have hvalue := h.derived (hrest.skip.symm ▸ hrest)
    rw [hrest.skip] at hvalue
    exact .cons (.cons (hvalue.imp fun ks hks => ⟨ks, rfl, hks⟩))
  | .positional _ h, hline => (h.derived hline).imp fun ks hks => ⟨ks, rfl, hks⟩

end

/-! ## Statements -/

theorem ReadsParam.derived (h : ReadsParam ts p rest) : Takes (DerivesParam · p.shape) ts rest := by
  cases h with
  | bare => exact .cons (.nil .bare)
  | default => exact .cons (.cons (.cons (.nil .default)))
  | negative => exact .cons (.cons (.cons (.cons (.nil .negative))))

theorem ReadsParams.derived (h : ReadsParams ts ps rest) (hline : OnOneLine ts) :
    Takes (DerivesParams · (ps.map Parameter.shape)) ts rest := by
  induction h with
  | one h _ =>
    have hparam := h.derived
    rw [(hparam.onOneLine hline).skip]
    exact hparam.imp fun _ => .one
  | cons h hcomma _ ih =>
    have hparam := h.derived
    have hrest := hparam.onOneLine hline
    rw [hrest.skip] at hcomma
    have hrest' := hrest.after hcomma
    rw [hrest'.skip] at ih
    obtain ⟨span, rfl⟩ := after_eq_some hcomma
    exact hparam.trans fun ks hks => ((ih hrest').imp fun _ => .cons hks).cons

theorem ReadsHeader.derived (h : ReadsHeader ts ps (⟨.arrow, arrow⟩ :: rest))
    (hline : OnOneLine ts) :
    Takes (fun ks => ∀ {name ks' body}, Derives .expr ks' body →
      DerivesStatement (.keywordFn :: .ident name :: .openParen :: (ks ++ ks'))
        (.define name (ps.map Parameter.shape) body)) ts rest := by
  cases h with
  | none hclose =>
    rw [hline.skip] at hclose
    subst hclose
    exact .cons (.cons (.nil .define₀))
  | some _ hparams hclose =>
    rw [hline.skip] at hparams
    have htaken := hparams.derived hline
    rw [(htaken.onOneLine hline).skip] at hclose
    subst hclose
    refine htaken.trans fun ks hks => .cons (.cons (.nil fun hbody => ?_))
    simpa using DerivesStatement.define hks hbody

theorem ReadsStatement.derived (h : ReadsStatement ts s rest) (hline : OnOneLine ts) :
    Takes (DerivesStatement · s.shape) ts rest := by
  cases h with
  | define hheader hbody =>
    have hinner := hline.tail.tail.tail
    have htaken := hheader.derived hinner
    have hrest := htaken.onOneLine hinner
    rw [hrest.skip] at hbody
    exact .cons (.cons (.cons (htaken.trans fun ks hks => (hbody.derived hrest).imp fun _ => hks)))
  | assign hvalue =>
    have hrest := hline.tail.tail
    rw [hrest.skip] at hvalue
    exact .cons (.cons ((hvalue.derived hrest).imp fun _ => .assign))
  | expr _ _ hvalue => exact (hvalue.derived hline).imp fun _ => .expr

/-! ## Segments -/

def segments (ts : List Token) : List (List TokenKind) := (ts.map Token.kind).splitOn .semicolon

theorem segments_one (h : ∀ t ∈ ts, t.kind ≠ .semicolon) : segments ts = [ts.map Token.kind] := by
  refine List.splitOn_eq_singleton ?_
  rintro hmem
  obtain ⟨t, ht, hkind⟩ := List.mem_map.mp hmem
  exact h t ht hkind

theorem segments_semicolon (hmark : mark.kind = .semicolon) (ts ts' : List Token) :
    segments (ts ++ mark :: ts') = segments ts ++ segments ts' := by
  rw [segments, List.map_append, List.map_cons]
  exact List.splitOnP_append_cons _ _ (by simp [hmark])

/-- The segments that are not empty derive the statements. -/
def Derived (segments : List (List TokenKind)) (ss : List Statement) : Prop :=
  List.Forall₂ (fun seg s => DerivesStatement seg s.shape) (segments.filter (· ≠ [])) ss

def Derivable (segments : List (List TokenKind)) : Prop :=
  ∀ seg ∈ segments, seg = [] ∨ ∃ s, DerivesStatement seg s

theorem Derived.derivable (h : Derived segs ss) : Derivable segs := by
  intro seg hseg
  by_cases hnil : seg = []
  · exact .inl hnil
  · have hmem : seg ∈ segs.filter (· ≠ []) := List.mem_filter.mpr ⟨hseg, by simpa using hnil⟩
    have hall := (List.forall₂_and_left _ _).mp (h.imp fun _ s hs => ⟨Exists.intro s.shape hs, hs⟩)
    exact .inr (hall.1 seg hmem)

theorem turns_of_derives (h : DerivesStatement (ts.map Token.kind) s)
    (hsep : ∀ t ∈ ts, isSeparator t = false) : ∃ s', s'.shape = s ∧ turns ts = [.complete s'] := by
  have hend : Ends .expr [] := nofun
  obtain ⟨s', hshape, hread⟩ := h.reads rfl hend
  rw [List.append_nil] at hread
  refine ⟨s', hshape, ?_⟩
  cases ts with
  | nil => exact absurd (plain_length hread) (Nat.not_lt_zero _)
  | cons t ts =>
    have hhead : (t :: ts).dropWhile isSeparator = t :: ts :=
      List.dropWhile_cons_of_neg (by simp [hsep t List.mem_cons_self])
    rw [turns_read hhead hread]
    exact congrArg _ turns_nil

theorem derives_of_turns (hline : OnOneLine ts) (hsep : ∀ t ∈ ts, isSeparator t = false)
    (hne : ts ≠ []) (h : (turns ts).all Turn.isComplete) :
    ∃ s, turns ts = [.complete s] ∧ DerivesStatement (ts.map Token.kind) s.shape := by
  cases ts with
  | nil => exact absurd rfl hne
  | cons t ts =>
    have hhead : (t :: ts).dropWhile isSeparator = t :: ts :=
      List.dropWhile_cons_of_neg (by simp [hsep t List.mem_cons_self])
    cases hread : plain (statement (t :: ts)) with
    | error f =>
      rw [turns_fault hhead hread] at h
      cases h
    | ok p =>
      obtain ⟨s, rest⟩ := p
      obtain ⟨taken, hts, hs⟩ := (readsStatement_of_read hread).derived hline
      have hturns := turns_read hhead hread
      cases rest with
      | nil =>
        rw [List.append_nil] at hts
        exact ⟨s, hturns.trans (congrArg _ turns_nil), hts ▸ hs⟩
      | cons next rest =>
        have hnext := hsep next (hts ▸ List.mem_append_right _ List.mem_cons_self)
        rw [hturns, finished, if_neg (by simp [hnext])] at h
        cases h

theorem exists_semicolon (ts : List Token) : (∀ t ∈ ts, t.kind ≠ .semicolon) ∨
    ∃ seg mark more, ts = seg ++ mark :: more ∧ mark.kind = .semicolon ∧
      ∀ t ∈ seg, t.kind ≠ .semicolon := by
  cases hmore : ts.dropWhile (·.kind ≠ .semicolon) with
  | nil =>
    left
    simpa using hmore
  | cons mark more =>
    right
    refine ⟨ts.takeWhile (·.kind ≠ .semicolon), mark, more, ?_, ?_, fun t ht => ?_⟩
    · rw [← hmore, List.takeWhile_append_dropWhile]
    · have hne : ts.dropWhile (·.kind ≠ .semicolon) ≠ [] := by
        rw [hmore]
        exact List.cons_ne_nil _ _
      have hhead := List.head_dropWhile_not _ hne
      simp only [hmore, List.head_cons] at hhead
      simpa using hhead
    · simpa using List.mem_takeWhile_imp ht

theorem turns_segment (hline : OnOneLine ts) (hnone : ∀ t ∈ ts, t.kind ≠ .semicolon)
    (h : (turns ts).all Turn.isComplete ∨ Derivable (segments ts)) :
    ∃ ss, turns ts = ss.map .complete ∧ Derived (segments ts) ss := by
  rw [segments_one hnone] at h ⊢
  have hsep : ∀ t ∈ ts, isSeparator t = false := fun t ht => by
    simp [isSeparator, hline t ht, hnone t ht]
  by_cases hnil : ts = []
  · subst hnil
    exact ⟨[], turns_nil, .nil⟩
  · have hfilter : [ts.map Token.kind].filter (· ≠ []) = [ts.map Token.kind] := by
      simp [hnil]
    simp only [Derived, hfilter]
    rcases h with h | h
    · obtain ⟨s, hturns, hs⟩ := derives_of_turns hline hsep hnil h
      exact ⟨[s], hturns, .cons hs .nil⟩
    · rcases h _ List.mem_cons_self with hempty | ⟨shape, hs⟩
      · exact absurd (List.map_eq_nil_iff.mp hempty) hnil
      · obtain ⟨s, rfl, hturns⟩ := turns_of_derives hs hsep
        exact ⟨[s], hturns, .cons hs .nil⟩

theorem Turn.Agrees.complete (h : Turn.Agrees t t') (hcomplete : t'.isComplete) :
    t.isComplete ∧ t.lacksDefault = false := by
  cases h with
  | refl =>
    refine ⟨hcomplete, ?_⟩
    cases t <;> first | rfl | cases hcomplete
  | abandoned => cases hcomplete

theorem complete_of_agrees (h : List.Forall₂ Turn.Agrees us us')
    (hcomplete : ∀ t ∈ us', t.isComplete) :
    ∀ t ∈ us, t.isComplete ∧ t.lacksDefault = false := by
  induction h with
  | nil => exact nofun
  | cons ht _ ih =>
    simp only [List.forall_mem_cons] at hcomplete ⊢
    exact ⟨ht.complete hcomplete.1, ih hcomplete.2⟩

theorem complete_semicolon (hmark : mark.kind = .semicolon)
    (h : (turns (ts ++ mark :: more)).all Turn.isComplete) :
    (turns ts).all Turn.isComplete ∧ (turns more).all Turn.isComplete := by
  obtain ⟨read, hagrees, hturns⟩ := turns_semicolon hmark ts more
  rw [hturns, List.all_append, Bool.and_eq_true] at h
  have hall := complete_of_agrees hagrees (List.all_eq_true.mp h.1)
  have hkept : stillRead ts more = more := by
    refine if_neg fun hlacks => ?_
    obtain ⟨t, ht, hlack⟩ := List.any_eq_true.mp hlacks
    simp [(hall t ht).2] at hlack
  exact ⟨List.all_eq_true.mpr fun t ht => (hall t ht).1, hkept ▸ h.2⟩

theorem Stops.semicolon (hmark : mark.kind = .semicolon) (more : List Token) :
    Stops (mark :: more) := by
  refine ⟨?_, ?_⟩
  · rintro _ ⟨⟩
    simp [isSeparator, hmark]
  · rw [pipe?_eq, skipNewlines_eq (by rintro _ ⟨⟩; simp [hmark])]
    exact if_neg (by simp [hmark])

theorem turns_exact (hline : OnOneLine ts)
    (h : (turns ts).all Turn.isComplete ∨ Derivable (segments ts)) :
    ∃ ss, turns ts = ss.map .complete ∧ Derived (segments ts) ss := by
  rcases exists_semicolon ts with hnone | ⟨seg, mark, more, rfl, hmark, hseg⟩
  · exact turns_segment hline hnone h
  · rw [segments_semicolon hmark] at h ⊢
    have hboth : ((turns seg).all Turn.isComplete ∨ Derivable (segments seg)) ∧
        ((turns more).all Turn.isComplete ∨ Derivable (segments more)) := by
      rcases h with h | h
      · exact ⟨.inl (complete_semicolon hmark h).1, .inl (complete_semicolon hmark h).2⟩
      · exact ⟨.inr fun s hs => h s (List.mem_append_left _ hs),
          .inr fun s hs => h s (List.mem_append_right _ hs)⟩
    obtain ⟨ss, hturns, hderived⟩ := turns_segment
      (fun t ht => hline t (List.mem_append_left _ ht)) hseg hboth.1
    obtain ⟨ss', hturns', hderived'⟩ := turns_exact
      (hline.suffix ((List.suffix_cons mark more).trans (List.suffix_append seg _))) hboth.2
    refine ⟨ss ++ ss', ?_, ?_⟩
    · have hcomplete : (turns seg).all Turn.isComplete := by
        rw [hturns]
        simp [Turn.isComplete]
      have hsep : isSeparator mark := by simp [isSeparator, hmark]
      rw [turns_append hcomplete hsep (.semicolon hmark more), hturns, hturns', List.map_append]
    · rw [Derived, List.filter_append]
      exact List.rel_append hderived hderived'
termination_by ts.length

end Grammar

/-! ## Programs -/

open Grammar

def Arena.Holds (nodes : Arena) (i : NodeId) (shape : StatementShape) : Prop :=
  ∃ a s, StoredStatement nodes a s i ∧ s.shape = shape

theorem Grammar.DerivesStatement.unique (h : DerivesStatement ks s) (h' : DerivesStatement ks s') :
    s = s' := by
  have hks : (unplaced ks).map Token.kind = ks := by simp [unplaced, Function.comp_def]
  have hend : Ends .expr [] := nofun
  obtain ⟨t, rfl, hread⟩ := h.reads hks hend
  obtain ⟨t', rfl, hread'⟩ := h'.reads hks hend
  rw [hread] at hread'
  cases hread'
  rfl

theorem StoredList.derived (h : StoredList nodes a ss ids)
    (hderived : List.Forall₂ (fun seg s => DerivesStatement seg s.shape) segs ss) :
    List.Forall₂
      (fun seg i => ∃ tree, nodes.Holds i tree ∧ ∀ tree', DerivesStatement seg tree' ↔ tree' = tree)
      segs ids := by
  induction h generalizing segs with
  | nil =>
    cases hderived
    exact .nil
  | @cons a b s i ss ids _ hs _ ih =>
    cases hderived with
    | cons hseg hmore =>
      refine .cons ⟨s.shape, ⟨b, s, hs, rfl⟩, fun tree' => ⟨fun h => h.unique hseg, ?_⟩⟩ (ih hmore)
      rintro rfl
      exact hseg

theorem findings_eq_nil_iff (tokens : List Token) :
    (parse tokens).findings = [] ↔ (turns (beforeFinish tokens)).all Turn.isComplete := by
  refine ⟨fun h => List.all_eq_true.mpr fun turn hturn => ?_, fun h =>
    filterMap_finding?_isComplete h _⟩
  have hnone := List.filterMap_eq_nil_iff.mp h turn hturn
  cases turn <;> first | rfl | cases hnone

/-- On one line, a program is read without a finding if and only if each segment between semicolons
is empty or derives a statement. Then there is one statement for each segment that is not empty, in
order, and its tree is the only one that the segment derives. -/
theorem parse_exact (tokens : List Token) (hline : OnOneLine (beforeFinish tokens)) :
    ((parse tokens).findings = [] ↔
        ∀ seg ∈ segments (beforeFinish tokens), seg = [] ∨ ∃ tree, DerivesStatement seg tree) ∧
      ((parse tokens).findings = [] →
        List.Forall₂ (fun seg i => ∃ tree, (parse tokens).patch.nodes.Holds i tree ∧
            ∀ tree', DerivesStatement seg tree' ↔ tree' = tree)
          ((segments (beforeFinish tokens)).filter (· ≠ [])) (parse tokens).patch.statements) := by
  rw [findings_eq_nil_iff]
  refine ⟨⟨fun h => ?_, fun h => ?_⟩, fun h => ?_⟩
  · obtain ⟨ss, _, hderived⟩ := turns_exact hline (.inl h)
    exact hderived.derivable
  · obtain ⟨ss, hturns, _⟩ := turns_exact hline (.inr h)
    rw [hturns]
    simp [Turn.isComplete]
  · obtain ⟨ss, hturns, hderived⟩ := turns_exact hline (.inl h)
    have hstatements : statements tokens = ss := by
      simp [statements, hturns, List.filterMap_map, Function.comp_def, Turn.statement?]
    exact (hstatements ▸ parse_stored tokens).derived hderived

/-- A definition with a negative default value, an empty segment, and a pipe into a call behind a
power of a negated call. -/
def powerChain : List Token :=
  unplaced [.keywordFn, .ident "g", .openParen, .ident "x", .comma, .ident "k",
    .equals, .minus, .number 1,
    .closeParen, .arrow, .ident "x", .star, .ident "k", .semicolon, .semicolon,
    .ident "y", .equals, .minus, .ident "g", .openParen, .number 2, .closeParen,
    .caret, .number 3, .caret,
    .hole, .pipe, .ident "g", .openParen, .hole, .comma, .ident "k", .colon, .minus,
    .number 3, .closeParen]

theorem powerChain_exact :
    OnOneLine (beforeFinish powerChain) ∧ (parse powerChain).findings = [] ∧
      (∀ seg ∈ segments (beforeFinish powerChain), seg = [] ∨ ∃ tree, DerivesStatement seg tree) ∧
      List.Forall₂ (fun seg i => ∃ tree, (parse powerChain).patch.nodes.Holds i tree ∧
          ∀ tree', DerivesStatement seg tree' ↔ tree' = tree)
        ((segments (beforeFinish powerChain)).filter (· ≠ []))
          (parse powerChain).patch.statements := by
  have hline : OnOneLine (beforeFinish powerChain) := by
    unfold OnOneLine
    decide +kernel
  have hfindings : (parse powerChain).findings = [] := by decide +kernel
  obtain ⟨hiff, htrees⟩ := parse_exact powerChain hline
  exact ⟨hline, hfindings, hiff.mp hfindings, htrees hfindings⟩

end SignalPatch
