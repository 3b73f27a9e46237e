import SignalPatch.Proofs.ExactGrammar
import SignalPatch.Proofs.Spacing

/-!
# Newlines in parentheses

In a program that is read without a finding, a newline may be put between any two tokens in
parentheses that do not cling together, and the program is read to the same patch. Between two that
do, the newline makes the program unreadable.
-/

namespace SignalPatch

namespace Grammar

/-! ## A newline ahead -/

/-- A place in a list of tokens, for a newline that parts nothing. -/
structure Gap where
  front : List Token
  back : List Token
  nl : Token
  newline : nl.kind = .newline
  loose : Clings front back = false

namespace Gap

variable {g : Gap}

/-- When the tokens `used` are read: what is left without the newline and with it, not right at the
gap. -/
inductive Near (g : Gap) (used : List Token) : List Token → List Token → Prop
  | ahead : g.front = used ++ t :: ts → Near g used (t :: ts ++ g.back) (t :: ts ++ g.nl :: g.back)
  | past : Near g used ts ts

/-- What is left without the newline and with it. -/
inductive Meets (g : Gap) (used : List Token) : List Token → List Token → Prop
  | near : Near g used ts ts' → Meets g used ts ts'
  | there : g.front = used → Meets g used g.back (g.nl :: g.back)

theorem Near.cons (h : g.Near used (t :: ts) ts') :
    ∃ rest, ts' = t :: rest ∧ g.Meets (used ++ [t]) ts rest := by
  generalize hts : t :: ts = all at h
  cases h with
  | past => exact ⟨ts, hts.symm, .near .past⟩
  | @ahead u us heq =>
    obtain ⟨rfl, rfl⟩ := List.cons.inj hts
    rw [List.append_cons] at heq
    cases us with
    | nil => exact ⟨_, rfl, .there (by simpa using heq)⟩
    | cons v vs => exact ⟨_, rfl, .near (.ahead heq)⟩

theorem Near.nil (h : g.Near used [] ts') : ts' = [] := by
  generalize hts : [] = all at h
  cases h with
  | past => rfl
  | ahead => cases hts

theorem Meets.near_of_clings (h : g.Meets used ts ts') (hclings : Clings used ts) :
    g.Near used ts ts' := by
  cases h with
  | near h => exact h
  | there heq =>
    rw [← heq, g.loose] at hclings
    cases hclings

theorem Meets.cons (h : g.Meets used (t :: ts) ts') (hclings : Clings used (t :: ts)) :
    ∃ rest, ts' = t :: rest ∧ g.Meets (used ++ [t]) ts rest :=
  (h.near_of_clings hclings).cons

theorem Meets.near_or_there (h : g.Meets used ts ts') :
    g.Near used ts ts' ∨ skipNewlines ts' = skipNewlines ts := by
  cases h with
  | near h => exact .inl h
  | there => exact .inr (by simp [skipNewlines, g.newline])

theorem Meets.after_none (h : g.Meets used ts ts') (hkind : kind ≠ .newline)
    (hnone : after kind ts = none) :
    after kind ts' = none := by
  cases h with
  | there => exact if_neg (by rw [g.newline]; exact hkind.symm)
  | near h =>
    cases ts with
    | nil => rw [h.nil, hnone]
    | cons t ts =>
      obtain ⟨rest, rfl, -⟩ := h.cons
      simpa [after] using hnone

theorem Meets.firstOp_none {op? : TokenKind → Option BinaryOp} (h : g.Meets used ts ts')
    (hop : op? .newline = none) (hnone : firstOp op? ts = none) : firstOp op? ts' = none := by
  cases h with
  | there => rw [firstOp, g.newline, hop]; rfl
  | near h =>
    cases ts with
    | nil => rw [h.nil, hnone]
    | cons t ts =>
      obtain ⟨rest, rfl, -⟩ := h.cons
      simpa [firstOp] using hnone

theorem Meets.skip (h : g.Meets used ts ts') : ∃ used', (Ended used = false → Ended used' = false) ∧
    g.Near used' (skipNewlines ts) (skipNewlines ts') := by
  induction ts generalizing used ts' with
  | nil =>
    cases h.near_or_there with
    | inl h => exact ⟨used, id, h.nil ▸ .past⟩
    | inr h => exact ⟨used, id, h ▸ .past⟩
  | cons t ts ih =>
    cases h.near_or_there with
    | inr h => exact ⟨used, id, h ▸ .past⟩
    | inl h =>
      obtain ⟨rest, rfl, hrest⟩ := h.cons
      by_cases ht : t.kind = .newline
      · have hskip : ∀ us, skipNewlines (t :: us) = skipNewlines us := by simp [skipNewlines, ht]
        obtain ⟨used', hused', hnear⟩ := ih hrest
        rw [hskip, hskip]
        exact ⟨used', fun _ => hused' (by rw [ended_concat, ht]; rfl), hnear⟩
      · have hskip : ∀ us, skipNewlines (t :: us) = t :: us := fun us =>
          skipNewlines_eq (by simpa using ht)
        rw [hskip, hskip]
        exact ⟨used, id, h⟩

theorem Meets.enter (h : g.Meets (used ++ [t]) ts ts') (ht : endsOperand t.kind = false) :
    ∃ used', Ended used' = false ∧ g.Near used' (skipNewlines ts) (skipNewlines ts') := by
  obtain ⟨used', hused', hnear⟩ := h.skip
  exact ⟨used', hused' (by rw [ended_concat, ht]), hnear⟩

theorem Meets.leave (h : g.Meets used ts ts') (hskip : skipNewlines ts = t :: rest) :
    ∃ used' rest', skipNewlines ts' = t :: rest' ∧ g.Meets (used' ++ [t]) rest rest' := by
  obtain ⟨used', -, hnear⟩ := h.skip
  rw [hskip] at hnear
  obtain ⟨rest', heq, hrest⟩ := hnear.cons
  exact ⟨used', rest', heq, hrest⟩

/-- Reading goes on behind an operand, on both sides. -/
def Rejoins (g : Gap) (rest : List Token) (read : List Token → Prop) : Prop :=
  ∃ used rest', Ended used ∧ g.Meets used rest rest' ∧ read rest'

theorem Meets.token (h : g.Meets used ts ts') (hused : Ended used) (ht : after kind ts = some rest)
    (hbelongs : ∀ last, endsOperand last → belongsTo last kind) :
    ∃ rest', after kind ts' = some rest' ∧ ∃ t, t.kind = kind ∧
      g.Meets (used ++ [t]) rest rest' := by
  obtain ⟨span, rfl⟩ := after_eq_some ht
  have hclings : Clings used (⟨kind, span⟩ :: rest) := by
    have hne : used ≠ [] := by
      rintro rfl
      cases hused
    obtain ⟨init, last, rfl⟩ := exists_last hne
    rw [ended_concat] at hused
    simp [clings_concat, clings, hbelongs last.kind hused]
  obtain ⟨rest', rfl, hrest⟩ := h.cons hclings
  exact ⟨rest', if_pos rfl, _, rfl, hrest⟩

theorem Meets.next_some {l : Level} (h : g.Meets used ts ts') (hused : Ended used)
    (hnext : l.next? ts = some (op, rest)) : ∃ rest', l.next? ts' = some (op, rest') ∧
      ∃ used', Ended used' = false ∧ g.Near used' (skipNewlines rest) (skipNewlines rest') := by
  -- Operators of sums and products are found in the same way; only a pipe may stand behind
  -- newlines.
  have hbinary : ∀ op? : TokenKind → Option BinaryOp, (op? = sumOf? ∨ op? = productOf?) → ∀ p,
      firstOp op? ts = some p → ∃ rest', firstOp op? ts' = some (p.1, rest') ∧
        ∃ used', Ended used' = false ∧ g.Near used' (skipNewlines p.2) (skipNewlines rest') := by
    intro op? hop p hfirst
    cases ts with
    | nil => cases hfirst
    | cons t ts =>
      obtain ⟨op, hkind, rfl⟩ := Option.map_eq_some_iff.mp hfirst
      have hbelongs : ∀ last, endsOperand last → belongsTo last t.kind := by
        intro last hlast
        rcases hop with rfl | rfl <;> cases ht : t.kind <;> rw [ht] at hkind <;> cases hkind <;>
          first | rfl | exact hlast
      have hend : endsOperand t.kind = false := by
        rcases hop with rfl | rfl <;> cases ht : t.kind <;> rw [ht]
          at hkind <;> first | rfl | cases hkind
      obtain ⟨rest', hrest', u, hu, hmeets⟩ := h.token hused (if_pos rfl) hbelongs
      obtain ⟨span, rfl⟩ := after_eq_some hrest'
      refine ⟨rest', ?_, hmeets.enter (hu ▸ hend)⟩
      rw [firstOp, hkind]
      rfl
  cases l with
  | expr =>
    obtain ⟨rest₁, hpipe, heq⟩ := Option.map_eq_some_iff.mp hnext
    cases heq
    rw [pipe?_eq] at hpipe
    obtain ⟨span, hskip⟩ := after_eq_some hpipe
    obtain ⟨used', rest', hskip', hmeets⟩ := h.leave hskip
    refine ⟨rest', ?_, hmeets.enter rfl⟩
    rw [Level.next?, pipe?_eq, hskip']
    rfl
  | sum =>
    obtain ⟨p, hop, heq⟩ := Option.map_eq_some_iff.mp hnext
    cases heq
    obtain ⟨rest', hrest', hmore⟩ := hbinary sumOf? (.inl rfl) p hop
    exact ⟨rest', by rw [Level.next?, hrest']; rfl, hmore⟩
  | product =>
    obtain ⟨p, hop, heq⟩ := Option.map_eq_some_iff.mp hnext
    cases heq
    obtain ⟨rest', hrest', hmore⟩ := hbinary productOf? (.inr rfl) p hop
    exact ⟨rest', by rw [Level.next?, hrest']; rfl, hmore⟩
  | power | unary | primary => cases hnext

theorem Meets.next_none {l : Level} (h : g.Meets used ts ts') (hnone : l.next? ts = none) :
    l.next? ts' = none := by
  cases l with
  | expr =>
    simp only [Level.next?, Option.map_eq_none_iff, pipe?_eq] at hnone ⊢
    obtain ⟨used', -, hnear⟩ := h.skip
    exact (Meets.near hnear).after_none (by simp) hnone
  | sum | product =>
    simp only [Level.next?, Option.map_eq_none_iff] at hnone ⊢
    exact h.firstOp_none rfl hnone
  | power | unary | primary => rfl

theorem Near.sign {sign : Span} (h : g.Near used (⟨.minus, sign⟩ :: ts) ts')
    (hused : Ended used = false) :
    ∃ rest, ts' = ⟨.minus, sign⟩ :: rest ∧ g.Near (used ++ [⟨.minus, sign⟩]) ts rest := by
  obtain ⟨rest, rfl, hrest⟩ := h.cons
  refine ⟨rest, rfl, hrest.near_of_clings ?_⟩
  rw [clings_concat, hused]
  rfl

theorem Near.numeral_none (h : g.Near used ts ts') (hnone : numeral? ts = none) :
    numeral? ts' = none := by
  cases ts with
  | nil => rw [h.nil, hnone]
  | cons t ts =>
    obtain ⟨rest, rfl, -⟩ := h.cons
    obtain ⟨kind, span⟩ := t
    cases kind <;> first | rfl | cases hnone

theorem Near.label_none (h : g.Near used ts ts') (hmark : mark ≠ .newline)
    (hnone : label? mark ts = none) :
    label? mark ts' = none := by
  cases ts with
  | nil => rw [h.nil, hnone]
  | cons t ts =>
    obtain ⟨rest, rfl, hrest⟩ := h.cons
    obtain ⟨kind, span⟩ := t
    cases kind with
    | ident name =>
      exact Option.map_eq_none_iff.mpr (hrest.after_none hmark (Option.map_eq_none_iff.mp hnone))
    | _ => rfl

theorem Near.label (h : g.Near used (⟨.ident name, span⟩ :: ⟨mark, at_⟩ :: ts) ts')
    (hmark : mark = .colon ∨ mark = .equals ∨ mark = .openParen) :
    ∃ rest, ts' = ⟨.ident name, span⟩ :: ⟨mark, at_⟩ :: rest ∧
      g.Meets (used ++ [⟨.ident name, span⟩] ++ [⟨mark, at_⟩]) ts rest := by
  obtain ⟨rest, rfl, hrest⟩ := h.cons
  have hclings : Clings (used ++ [⟨.ident name, span⟩]) (⟨mark, at_⟩ :: ts) := by
    rcases hmark with rfl | rfl | rfl <;> simp [clings_concat, clings, belongsTo]
  obtain ⟨rest', rfl, hrest'⟩ := hrest.cons hclings
  exact ⟨rest', rfl, hrest'⟩

end Gap

/-! ## Expressions -/

theorem endsOperand_of_literal (h : literal? t = some e) : endsOperand t.kind := by
  obtain ⟨kind, span⟩ := t
  cases kind <;> first | rfl | cases h

section

variable {g : Gap}

mutual

/-- An expression is read with the newline as without it. -/
theorem Reads.across : Reads l ts e rest → g.Near used ts ts' → Ended used = false →
    g.Rejoins rest (Reads l ts' e)
  | .loop hl h hmore, hnear, hused => by
    obtain ⟨used₁, rest₁, hused₁, hrest₁, hread⟩ := h.across hnear hused
    obtain ⟨used₂, rest₂, hused₂, hrest₂, hcontinues⟩ := hmore.across hrest₁ hused₁
    exact ⟨used₂, rest₂, hused₂, hrest₂, .loop hl hread hcontinues⟩
  | .base h hcaret, hnear, hused => by
    obtain ⟨used₁, rest₁, hused₁, hrest₁, hread⟩ := h.across hnear hused
    exact ⟨used₁, rest₁, hused₁, hrest₁, .base hread (hrest₁.after_none (by simp) hcaret)⟩
  | .power h hcaret hmore, hnear, hused => by
    obtain ⟨used₁, rest₁, hused₁, hrest₁, hread⟩ := h.across hnear hused
    obtain ⟨rest₂, hcaret', t, ht, hrest₂⟩ := hrest₁.token hused₁ hcaret fun _ _ => rfl
    obtain ⟨used₂, hused₂, hnear₂⟩ := hrest₂.enter (ht ▸ rfl)
    obtain ⟨used₃, rest₃, hused₃, hrest₃, hexponent⟩ := hmore.across hnear₂ hused₂
    exact ⟨used₃, rest₃, hused₃, hrest₃, .power hread hcaret' hexponent⟩
  | .negative, hnear, hused => by
    obtain ⟨_, rfl, hnear₁⟩ := hnear.sign hused
    obtain ⟨rest', rfl, hrest⟩ := hnear₁.cons
    exact ⟨_, rest', by rw [ended_concat]; rfl, hrest, .negative⟩
  | .negated hnumber h, hnear, hused => by
    obtain ⟨ts₁, hts₁, hnear₁⟩ := hnear.sign hused
    obtain ⟨used₁, rest₁, hused₁, hrest₁, hread⟩ := h.across hnear₁ (by rw [ended_concat]; rfl)
    subst hts₁
    exact ⟨used₁, rest₁, hused₁, hrest₁, .negated (hnear₁.numeral_none hnumber) hread⟩
  | .primary hminus h, hnear, hused => by
    obtain ⟨used₁, rest₁, hused₁, hrest₁, hread⟩ := h.across hnear hused
    exact ⟨used₁, rest₁, hused₁, hrest₁,
      .primary ((Gap.Meets.near hnear).after_none (by simp) hminus) hread⟩
  | .literal h, hnear, _ => by
    obtain ⟨rest', rfl, hrest⟩ := hnear.cons
    exact ⟨_, rest', by rw [ended_concat]; exact endsOperand_of_literal h, hrest, .literal h⟩
  | .ident hopen, hnear, _ => by
    obtain ⟨rest', rfl, hrest⟩ := hnear.cons
    exact ⟨_, rest', by rw [ended_concat]; rfl, hrest, .ident (hrest.after_none (by simp) hopen)⟩
  | .call₀ hclose, hnear, _ => by
    obtain ⟨ts₁, rfl, hts₁⟩ := hnear.label (.inr (.inr rfl))
    obtain ⟨used₁, rest', hclose', hrest⟩ := hts₁.leave hclose
    exact ⟨_, rest', by rw [ended_concat]; rfl, hrest, .call₀ hclose'⟩
  | .call hnone hargs hclose, hnear, _ => by
    obtain ⟨ts₁, hts₁, hmeets₁⟩ := hnear.label (.inr (.inr rfl))
    -- behind the opening parenthesis newlines are skipped, so the gap may lie there as well
    obtain ⟨used₁, hused₁, hnear₁⟩ := hmeets₁.enter rfl
    obtain ⟨used₂, rest₂, hnear₂, hread⟩ := hargs.across hnear₁ hused₁
    obtain ⟨used₃, rest₃, hclose', hrest⟩ := (Gap.Meets.near hnear₂).leave hclose
    subst hts₁
    have hnone' := (Gap.Meets.near hnear₁).after_none (by simp) hnone
    exact ⟨_, rest₃, by rw [ended_concat]; rfl, hrest, .call hnone' hread hclose'⟩
  | .paren h hclose, hnear, _ => by
    obtain ⟨ts₁, hts₁, hmeets₁⟩ := hnear.cons
    obtain ⟨used₁, hused₁, hnear₁⟩ := hmeets₁.enter rfl
    obtain ⟨used₂, rest₂, hused₂, hrest₂, hread⟩ := h.across hnear₁ hused₁
    obtain ⟨used₃, rest₃, hclose', hrest⟩ := hrest₂.leave hclose
    subst hts₁
    exact ⟨_, rest₃, by rw [ended_concat]; rfl, hrest, .paren hread hclose'⟩

theorem Continues.across : Continues l a ts e rest → g.Meets used ts ts' → Ended used →
    g.Rejoins rest (Continues l a ts' e)
  | .stop hnone, hmeets, hused => ⟨_, _, hused, hmeets, .stop (hmeets.next_none hnone)⟩
  | .step hnext hread hmore, hmeets, hused => by
    obtain ⟨rest₁, hnext', used₁, hused₁, hnear₁⟩ := hmeets.next_some hused hnext
    obtain ⟨used₂, rest₂, hused₂, hrest₂, hread'⟩ := hread.across hnear₁ hused₁
    obtain ⟨used₃, rest₃, hused₃, hrest₃, hmore'⟩ := hmore.across hrest₂ hused₂
    exact ⟨used₃, rest₃, hused₃, hrest₃, .step hnext' hread' hmore'⟩

theorem ReadsArgs.across : ReadsArgs ts args rest → g.Near used ts ts' → Ended used = false →
    ∃ used' rest', g.Near used' rest rest' ∧ ReadsArgs ts' args rest'
  | .one h hcomma, hnear, hused => by
    obtain ⟨used₁, rest₁, _, hrest₁, hread⟩ := h.across hnear hused
    obtain ⟨used₂, -, hnear₂⟩ := hrest₁.skip
    exact ⟨used₂, _, hnear₂, .one hread ((Gap.Meets.near hnear₂).after_none (by simp) hcomma)⟩
  | .cons h hcomma hmore, hnear, hused => by
    obtain ⟨used₁, rest₁, _, hrest₁, hread⟩ := h.across hnear hused
    obtain ⟨span, hskip⟩ := after_eq_some hcomma
    obtain ⟨used₂, rest₂, hskip', hrest₂⟩ := hrest₁.leave hskip
    obtain ⟨used₃, hused₃, hnear₃⟩ := hrest₂.enter rfl
    obtain ⟨used₄, rest₄, hnear₄, hmore'⟩ := hmore.across hnear₃ hused₃
    exact ⟨used₄, rest₄, hnear₄, .cons hread (by rw [hskip', after, if_pos rfl]) hmore'⟩

theorem ReadsArg.across : ReadsArg ts a rest → g.Near used ts ts' → Ended used = false →
    g.Rejoins rest (ReadsArg ts' a)
  | .named hlabel h, hnear, _ => by
    obtain ⟨at_, hts⟩ := label?_eq_some hlabel
    obtain ⟨ts₁, hts₁, hmeets₁⟩ := (hts ▸ hnear).label (.inl rfl)
    obtain ⟨used₁, hused₁, hnear₁⟩ := hmeets₁.enter rfl
    obtain ⟨used₂, rest₂, hused₂, hrest₂, hread⟩ := h.across hnear₁ hused₁
    subst hts₁
    exact ⟨used₂, rest₂, hused₂, hrest₂, .named rfl hread⟩
  | .positional hlabel h, hnear, hused => by
    obtain ⟨used₁, rest₁, hused₁, hrest₁, hread⟩ := h.across hnear hused
    obtain ⟨ts₁, rfl, -⟩ := hnear.cons
    exact ⟨used₁, rest₁, hused₁, hrest₁, .positional (hnear.label_none (by simp) hlabel) hread⟩

end

end

/-! ## Statements -/

section

variable {g : Gap}

theorem ReadsParam.across (h : ReadsParam ts p rest) (hnear : g.Near used ts ts') :
    g.Rejoins rest (ReadsParam ts' p) := by
  cases h with
  | bare hequals =>
    obtain ⟨rest', rfl, hrest⟩ := hnear.cons
    exact ⟨_, rest', by rw [ended_concat]; rfl, hrest, .bare (hrest.after_none (by simp) hequals)⟩
  | default =>
    obtain ⟨ts₁, rfl, hmeets₁⟩ := hnear.label (.inr (.inl rfl))
    obtain ⟨rest', rfl, hrest⟩ := hmeets₁.cons (by rw [clings_concat]; rfl)
    exact ⟨_, rest', by rw [ended_concat]; rfl, hrest, .default⟩
  | negative =>
    obtain ⟨ts₁, rfl, hmeets₁⟩ := hnear.label (.inr (.inl rfl))
    have hnear₁ := hmeets₁.near_of_clings (by rw [clings_concat]; rfl)
    obtain ⟨ts₂, rfl, hnear₂⟩ := hnear₁.sign (by rw [ended_concat]; rfl)
    obtain ⟨rest', rfl, hrest⟩ := hnear₂.cons
    exact ⟨_, rest', by rw [ended_concat]; rfl, hrest, .negative⟩

theorem ReadsParams.across (h : ReadsParams ts ps rest) (hnear : g.Near used ts ts') :
    ∃ used' rest', g.Near used' rest rest' ∧ ReadsParams ts' ps rest' := by
  induction h generalizing used ts' with
  | one h hcomma =>
    obtain ⟨used₁, rest₁, _, hrest₁, hread⟩ := h.across hnear
    obtain ⟨used₂, -, hnear₂⟩ := hrest₁.skip
    exact ⟨used₂, _, hnear₂, .one hread ((Gap.Meets.near hnear₂).after_none (by simp) hcomma)⟩
  | cons h hcomma _ ih =>
    obtain ⟨used₁, rest₁, _, hrest₁, hread⟩ := h.across hnear
    obtain ⟨span, hskip⟩ := after_eq_some hcomma
    obtain ⟨used₂, rest₂, hskip', hrest₂⟩ := hrest₁.leave hskip
    obtain ⟨used₃, -, hnear₃⟩ := hrest₂.enter rfl
    obtain ⟨used₄, rest₄, hnear₄, hmore⟩ := ih hnear₃
    exact ⟨used₄, rest₄, hnear₄, .cons hread (by rw [hskip', after, if_pos rfl]) hmore⟩

theorem ReadsHeader.across (h : ReadsHeader ts params rest) (hmeets : g.Meets used ts ts') :
    ∃ used' rest', g.Meets used' rest rest' ∧ ReadsHeader ts' params rest' := by
  cases h with
  | none hclose =>
    obtain ⟨used₁, rest', hclose', hrest⟩ := hmeets.leave hclose
    exact ⟨_, rest', hrest, .none hclose'⟩
  | some hnone hparams hclose =>
    obtain ⟨used₁, -, hnear₁⟩ := hmeets.skip
    obtain ⟨used₂, rest₂, hnear₂, hread⟩ := hparams.across hnear₁
    obtain ⟨used₃, rest₃, hclose', hrest⟩ := (Gap.Meets.near hnear₂).leave hclose
    exact ⟨_, rest₃, hrest,
      .some ((Gap.Meets.near hnear₁).after_none (by simp) hnone) hread hclose'⟩

theorem Gap.Meets.near_of_settled (h : g.Meets used rest rest')
    (hts : left ++ g.back = taken ++ rest) (hopen : Unclosed left) (htaken : Settled taken) :
    g.Near used rest rest' := by
  cases h with
  | near h => exact h
  | there =>
    rw [List.append_cancel_right hts] at hopen
    exact absurd hopen htaken.not_unclosed

theorem ReadsStatement.across (h : ReadsStatement ts s rest) (hts : left ++ g.back = ts)
    (hfront : g.front = used ++ left) (hopen : Unclosed left) (hused : Ended used = false) :
    g.Rejoins rest (ReadsStatement (left ++ g.nl :: g.back) s) := by
  have hnear : g.Near used ts (left ++ g.nl :: g.back) := by
    subst hts
    cases left with
    | nil => exact absurd rfl hopen.ne_nil
    | cons t left => exact .ahead hfront
  -- The newline lies ahead of all that is read; `Near` follows it through the parts of a statement.
  generalize left ++ g.nl :: g.back = ts' at hnear ⊢
  cases h with
  | @define _ _ _ _ _ _ start name span open_ hheader hbody =>
    obtain ⟨header, rfl, hformed⟩ := hheader.formed name span open_
    obtain ⟨ts₁, rfl, hmeets₁⟩ := hnear.cons
    have hfn : Settled [⟨.keywordFn, start⟩] := .cons rfl .nil
    obtain ⟨ts₂, rfl, hmeets₂⟩ := (hmeets₁.near_of_settled hts hopen hfn).label (.inr (.inr rfl))
    obtain ⟨used₃, rest₃, hmeets₃, hheader'⟩ := hheader.across hmeets₂
    obtain ⟨rest₄, rfl, hmeets₄⟩ :=
      (hmeets₃.near_of_settled hts hopen (hfn.append hformed.settled)).cons
    obtain ⟨used₅, hused₅, hnear₅⟩ := hmeets₄.enter rfl
    obtain ⟨used₆, rest₆, hused₆, hrest₆, hbody'⟩ := hbody.across hnear₅ hused₅
    exact ⟨used₆, rest₆, hused₆, hrest₆, .define hheader' hbody'⟩
  | assign hvalue =>
    obtain ⟨ts₁, rfl, hmeets₁⟩ := hnear.label (.inr (.inl rfl))
    obtain ⟨used₂, hused₂, hnear₂⟩ := hmeets₁.enter rfl
    obtain ⟨used₃, rest₃, hused₃, hrest₃, hvalue'⟩ := hvalue.across hnear₂ hused₂
    exact ⟨used₃, rest₃, hused₃, hrest₃, .assign hvalue'⟩
  | expr hfn hlabel hvalue =>
    obtain ⟨used₁, rest₁, hused₁, hrest₁, hvalue'⟩ := hvalue.across hnear hused
    have hfn' := (Gap.Meets.near hnear).after_none (by simp) hfn
    exact ⟨used₁, rest₁, hused₁, hrest₁, .expr hfn' (hnear.label_none (by simp) hlabel) hvalue'⟩

end

/-! ## Programs -/

theorem ended_separator (h : isSeparator t) (ts : List Token) : Ended (ts ++ [t]) = false := by
  rw [ended_concat]
  cases hkind : t.kind <;> simp_all [isSeparator, endsOperand]

theorem turns_across (g : Gap) (used left : List Token) (hfront : g.front = used ++ left)
    (hopen : Unclosed left) (hused : Ended used = false ∨ ∃ t ∈ left.head?, isSeparator t)
    (hcomplete : (turns (left ++ g.back)).all Turn.isComplete) :
    turns (left ++ g.nl :: g.back) = turns (left ++ g.back) := by
  obtain ⟨seps, hseps, hsep⟩ := split_separators left
  cases hdrop : left.dropWhile isSeparator with
  | nil =>
    rw [hdrop, List.append_nil] at hseps
    exact absurd hopen (hseps ▸ hsep.spaced.settled).not_unclosed
  | cons t left' =>
    have hdrops : ∀ us, (left ++ us).dropWhile isSeparator = t :: (left' ++ us) := by
      intro us
      rw [List.dropWhile_append, hdrop]
      rfl
    rw [hdrop] at hseps
    have hopen' : Unclosed (t :: left') := (hseps ▸ hopen).of_append hsep.spaced.settled
    have hused' : Ended (used ++ seps) = false := by
      by_cases hnil : seps = []
      · subst hnil
        rw [List.append_nil]
        refine hused.resolve_right ?_
        rintro ⟨u, hu, hseparator⟩
        rw [hseps, List.nil_append, List.head?_cons, Option.mem_some_iff] at hu
        rw [← hu, head_dropWhile_separator hdrop] at hseparator
        cases hseparator
      · obtain ⟨init, last, rfl⟩ := exists_last hnil
        rw [← List.append_assoc]
        exact ended_separator (hsep last (by simp)) _
    have hfront' : g.front = used ++ seps ++ t :: left' := by
      rw [hfront, hseps, List.append_assoc]
    cases hread : plain (statement (t :: (left' ++ g.back))) with
    | error f =>
      rw [turns_fault (hdrops _) hread] at hcomplete
      cases hcomplete
    | ok p =>
      obtain ⟨s, rest⟩ := p
      have hreads := readsStatement_of_read hread
      obtain ⟨taken, htaken, hspaced⟩ := hreads.spaced
      obtain ⟨used', rest', -, hmeets, hreads'⟩ :=
        hreads.across (List.cons_append) hfront' hopen' hused'
      rw [turns_read (hdrops _) hread] at hcomplete ⊢
      rw [turns_read (hdrops _) hreads'.read]
      rw [List.all_cons, Bool.and_eq_true] at hcomplete
      cases hmeets.near_of_settled htaken hopen' hspaced.settled with
      | past => rfl
      | @ahead u us heq =>
        -- The gap is behind this statement, and its end is a separator.
        have hsplit : t :: left' = taken ++ u :: us := by
          refine (List.append_left_inj g.back).mp ?_
          rw [List.append_assoc]
          exact htaken
        have hu : isSeparator u := by
          cases hu : isSeparator u with
          | true => rfl
          | false =>
            rw [List.cons_append, finished, hu] at hcomplete
            cases hcomplete.1
        have hrest : ∀ vs, skipStatement (u :: us ++ vs) = u :: us ++ vs :=
          fun vs => skipStatement_separator hu _
        have hlt : (u :: us).length < left.length := by
          have := plain_length hread
          have := congrArg List.length hseps
          simp only [List.length_append, List.length_cons] at *
          omega
        rw [hrest] at hcomplete
        rw [hrest, hrest,
          turns_across g used' (u :: us) heq ((hsplit ▸ hopen').of_append hspaced.settled)
          (.inr ⟨u, rfl, hu⟩) hcomplete.2]
        rfl
termination_by left.length

/-! ## Matching parentheses -/

inductive Matched : List Token → Prop
  | nil : Matched []
  | cons : isParen t = false → Matched ts → Matched (t :: ts)
  | paren : o.kind = .openParen → c.kind = .closeParen → Matched us → Matched ts →
      Matched (o :: us ++ c :: ts)

/-- A matching pair of parentheses stands around the place between the first tokens and the second
ones. -/
inductive Enclosed : List Token → List Token → Prop
  | intro (before : List Token) (o : Token) (ts us : List Token) (c : Token) (after : List Token) :
      o.kind = .openParen → c.kind = .closeParen → Matched (ts ++ us) →
      Enclosed (before ++ o :: ts) (us ++ c :: after)

theorem Matched.depth_eq (h : Matched ts) : depth ts = 0 := by
  induction h with
  | nil => rfl
  | cons ht _ ih => rw [depth_cons, depth_of_isParen ht, ih, Int.zero_add]
  | @paren inner ts o c ho hc _ _ ihinner ih =>
    rw [depth_append, depth_cons o, depth_cons c, ihinner, ih, depth_open ho, depth_close hc]
    rfl

theorem Matched.depth_nonneg (h : Matched ts) (hus : us <+: ts) : 0 ≤ depth us := by
  have hnil : 0 ≤ depth [] := by decide
  induction h generalizing us with
  | nil => rwa [List.prefix_nil.mp hus]
  | cons ht _ ih =>
    rcases List.prefix_cons_iff.mp hus with rfl | ⟨vs, rfl, hvs⟩
    · exact hnil
    · have := ih hvs
      rw [depth_cons, depth_of_isParen ht]
      omega
  | @paren inner ts o c ho hc hinner _ ihinner ih =>
    have hopen := depth_open ho
    have hclose := depth_close hc
    have hdepth := hinner.depth_eq
    rcases List.prefix_cons_iff.mp hus with rfl | ⟨vs, rfl, ws, hws⟩
    · exact hnil
    rw [depth_cons]
    -- The prefix ends in the parentheses, or it goes on behind them.
    rcases List.append_eq_append_iff.mp hws with ⟨mid, hmid, -⟩ | ⟨mid, rfl, hmid⟩
    · have := ihinner ⟨mid, hmid.symm⟩
      omega
    · rw [depth_append]
      rcases List.prefix_cons_iff.mp ⟨ws, hmid.symm⟩ with rfl | ⟨vs, rfl, hvs⟩
      · omega
      · have := ih hvs
        rw [depth_cons c]
        omega

theorem Enclosed.unclosed (h : Enclosed front back) : Unclosed front := by
  obtain ⟨before, o, ts, us, c, after, ho, -, hmatched⟩ := h
  refine ⟨o :: ts, List.suffix_append _ _, by simp, fun ws hws hne => ?_⟩
  rcases List.prefix_cons_iff.mp hws with rfl | ⟨vs, rfl, hvs⟩
  · exact absurd rfl hne
  · have := hmatched.depth_nonneg (hvs.trans (List.prefix_append _ _))
    rw [depth_cons, depth_open ho]
    omega

end Grammar

open Grammar

/-- A newline between the first tokens and the second ones is read, and parts what clings
together. -/
def Grammar.Parts (front back : List Token) : Prop :=
  (∀ t ∈ front, t.kind ≠ .finish) ∧ Clings front back

theorem Grammar.beforeFinish_append (h : ∀ t ∈ front, t.kind ≠ .finish) (back : List Token) :
    beforeFinish (front ++ back) = front ++ beforeFinish back :=
  List.takeWhile_append_of_pos fun t ht => by simpa using h t ht

theorem Grammar.beforeFinish_append_of_mem (ht : t ∈ front) (hfinish : t.kind = .finish)
    (back : List Token) :
    beforeFinish (front ++ back) = beforeFinish front := by
  have hall : ¬(front.takeWhile (·.kind != .finish)).length = front.length := by
    intro hlength
    have hsame := (List.takeWhile_sublist _).eq_of_length hlength
    rw [← hsame] at ht
    have hread := List.all_eq_true.mp List.all_takeWhile t ht
    simp [hfinish] at hread
  rw [beforeFinish, List.takeWhile_append, if_neg hall, beforeFinish]

theorem Grammar.beforeFinish_eq_nil_or (back : List Token) :
    beforeFinish back = [] ∨ ∀ front, Clings front (beforeFinish back) = Clings front back := by
  cases back with
  | nil => exact .inl rfl
  | cons t back =>
    by_cases hfinish : t.kind = .finish
    · exact .inl (List.takeWhile_cons_of_neg (by simp [hfinish]))
    · refine .inr fun front => ?_
      rw [beforeFinish, List.takeWhile_cons_of_pos (by simpa using hfinish)]
      rfl

/-- In a program that is read without a finding, a newline between two tokens in a matching pair of
parentheses changes nothing, if they do not cling together. If they do, the program is not read
without a finding. -/
theorem parse_newline (front back : List Token) (nl : Token) (hnewline : nl.kind = .newline)
    (henclosed : Enclosed front back) (hread : (parse (front ++ back)).findings = []) :
    ((parse (front ++ nl :: back)).findings = [] ↔ ¬Parts front back) ∧
      (¬Parts front back → (parse (front ++ nl :: back)).patch =
        (parse (front ++ back)).patch) := by
  have hopen := henclosed.unclosed
  rw [findings_eq_nil_iff] at hread
  suffices h : (¬Parts front back → turns (beforeFinish (front ++ nl :: back)) =
      turns (beforeFinish (front ++ back))) ∧
        (Parts front back → ¬(turns (beforeFinish (front ++ nl :: back))).all Turn.isComplete) by
    rw [findings_eq_nil_iff]
    refine ⟨⟨fun hall hparts => h.2 hparts hall, fun hparts => h.1 hparts ▸ hread⟩,
      fun hparts => ?_⟩
    rw [parse, parse, h.1 hparts]
  -- If an end mark stands in front, neither the newline nor what follows it is read.
  by_cases hnone : ∀ t ∈ front, t.kind ≠ .finish
  · have hparts : Parts front back ↔ Clings front back := and_iff_right hnone
    have hnl : beforeFinish (nl :: back) = nl :: beforeFinish back :=
      List.takeWhile_cons_of_pos (by simp [hnewline])
    rw [beforeFinish_append hnone] at hread ⊢
    rw [beforeFinish_append hnone, hnl, hparts]
    constructor
    · intro hclings
      have hloose : Clings front (beforeFinish back) = false := by
        rcases beforeFinish_eq_nil_or back with hnil | hsame
        · rw [Bool.not_eq_true, Clings, Bool.or_eq_false_iff] at hclings
          simp [hnil, Clings, hclings.1]
        · simpa [hsame] using hclings
      exact turns_across ⟨front, beforeFinish back, nl, hnewline, hloose⟩
        [] front rfl hopen (.inl rfl) hread
    · intro hclings hall
      obtain ⟨hne, hloose⟩ := (turns_spaced _ hall).loose front nl
        (beforeFinish back) rfl hnewline hopen
      rcases beforeFinish_eq_nil_or back with hnil | hsame
      · exact hne hnil
      · rw [hsame, hclings] at hloose
        cases hloose
  · refine ⟨fun _ => ?_, fun hparts => absurd hparts.1 hnone⟩
    obtain ⟨t, hnone⟩ := not_forall.mp hnone
    obtain ⟨ht, hfinish⟩ := Classical.not_imp.mp hnone
    rw [beforeFinish_append_of_mem ht (not_not.mp hfinish),
      beforeFinish_append_of_mem ht (not_not.mp hfinish)]

def newlineMark : Token := ⟨.newline, .origin⟩

def callFront : List Token :=
  unplaced [.ident "y", .equals, .ident "f", .openParen, .ident "a", .minus]

def callBack : List Token :=
  unplaced [.openParen, .ident "b", .closeParen, .comma, .ident "k", .colon, .minus,
    .number 1, .closeParen]

theorem callFront_newline :
    Enclosed callFront callBack ∧ (parse (callFront ++ callBack)).findings = [] ∧
      (parse (callFront ++ newlineMark :: callBack)).findings = [] ∧
      (parse (callFront ++ newlineMark :: callBack)).patch =
        (parse (callFront ++ callBack)).patch := by
  have hinner :
    Matched (unplaced [.ident "a", .minus, .openParen, .ident "b", .closeParen, .comma, .ident "k",
      .colon, .minus, .number 1]) :=
    .cons rfl (.cons rfl (.paren rfl rfl (.cons rfl .nil)
      (.cons rfl (.cons rfl (.cons rfl (.cons rfl (.cons rfl .nil)))))))
  have henclosed : Enclosed callFront callBack :=
    .intro (unplaced [.ident "y", .equals, .ident "f"])
    ⟨.openParen, .origin⟩ (unplaced [.ident "a", .minus])
      (unplaced [.openParen, .ident "b", .closeParen,
      .comma, .ident "k", .colon, .minus, .number 1]) ⟨.closeParen, .origin⟩ [] rfl rfl hinner
  have hread : (parse (callFront ++ callBack)).findings = [] := by decide +kernel
  have hfree : ¬Parts callFront callBack := fun hparts => absurd hparts.2 (by decide +kernel)
  obtain ⟨hiff, hpatch⟩ := parse_newline callFront callBack newlineMark rfl henclosed hread
  exact ⟨henclosed, hread, hiff.mpr hfree, hpatch hfree⟩

def sumFront : List Token := unplaced [.openParen, .ident "a"]

def sumBack : List Token := unplaced [.plus, .ident "b", .closeParen]

theorem sumFront_not_newline :
    Enclosed sumFront sumBack ∧ (parse (sumFront ++ sumBack)).findings = [] ∧
      (parse (sumFront ++ newlineMark :: sumBack)).findings ≠ [] := by
  refine ⟨?_, by decide +kernel, by decide +kernel⟩
  exact .intro [] ⟨.openParen, .origin⟩ (unplaced [.ident "a"]) (unplaced [.plus, .ident "b"])
    ⟨.closeParen, .origin⟩ [] rfl rfl (.cons rfl (.cons rfl (.cons rfl .nil)))

end SignalPatch
