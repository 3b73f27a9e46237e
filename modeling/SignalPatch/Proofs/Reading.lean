import SignalPatch.Proofs.Derivation

/-!
# What is read, as a relation

`Reads` has one rule for each way in which a reader of expressions goes on, with the newlines that
it skips and with what it asks of the tokens before it. It holds exactly of what the readers give:
`Reads.read` and `reads_of_read`. What is true of every expression that is read is proved by
induction on it.
-/

namespace SignalPatch.Grammar

/-! ## Expressions -/

mutual

/-- An expression of the level is read from the first tokens, and the second ones are left. -/
inductive Reads : Level → List Token → Expr → List Token → Prop
  | loop : l.isLoop → Reads l.operand ts a rest → Continues l a rest e rest' → Reads l ts e rest'
  | base : Reads .unary ts e rest → after .caret rest = none → Reads .power ts e rest
  | power : Reads .unary ts a rest → after .caret rest = some rest' →
      Reads .power (skipNewlines rest') b rest'' → Reads .power ts (.operation .pow a b) rest''
  | negative : Reads .unary (⟨.minus, sign⟩ :: ⟨.number value, span⟩ :: rest)
      (.number (-value) (sign.cover span)) rest
  | negated : numeral? ts = none → Reads .unary ts e rest →
      Reads .unary (⟨.minus, sign⟩ :: ts) (.negated sign e) rest
  | primary : after .minus ts = none → Reads .primary ts e rest → Reads .unary ts e rest
  | literal : literal? t = some e → Reads .primary (t :: rest) e rest
  | ident : after .openParen rest = none →
      Reads .primary (⟨.ident name, span⟩ :: rest) (.ident name span) rest
  | call₀ : skipNewlines ts = ⟨.closeParen, close⟩ :: rest →
      Reads .primary (⟨.ident callee, span⟩ :: ⟨.openParen, open_⟩ :: ts)
        (.call callee [] (span.cover close)) rest
  | call : after .closeParen (skipNewlines ts) = none → ReadsArgs (skipNewlines ts) args rest →
      skipNewlines rest = ⟨.closeParen, close⟩ :: rest' →
      Reads .primary (⟨.ident callee, span⟩ :: ⟨.openParen, open_⟩ :: ts)
        (.call callee args (span.cover close)) rest'
  | paren : Reads .expr (skipNewlines ts) e rest →
      skipNewlines rest = ⟨.closeParen, close⟩ :: rest' →
      Reads .primary (⟨.openParen, open_⟩ :: ts) e rest'

/-- Behind the first operands, the rest of an expression of the level is read. -/
inductive Continues : Level → Expr → List Token → Expr → List Token → Prop
  | stop : l.next? ts = none → Continues l e ts e ts
  | step : l.next? ts = some (op, rest) → Reads l.operand (skipNewlines rest) b rest' →
      Continues l (op.join a b) rest' e rest'' → Continues l a ts e rest''

inductive ReadsArgs : List Token → List (Arg Expr) → List Token → Prop
  | one : ReadsArg ts a rest → after .comma (skipNewlines rest) = none →
      ReadsArgs ts [a] (skipNewlines rest)
  | cons : ReadsArg ts a rest → after .comma (skipNewlines rest) = some rest' →
      ReadsArgs (skipNewlines rest') args rest'' → ReadsArgs ts (a :: args) rest''

inductive ReadsArg : List Token → Arg Expr → List Token → Prop
  | named : label? .colon ts = some (name, start, rest) → Reads .expr (skipNewlines rest) e rest' →
      ReadsArg ts ⟨some name, e, start.cover e.span⟩ rest'
  | positional : label? .colon (t :: ts) = none → Reads .expr (t :: ts) e rest →
      ReadsArg (t :: ts) ⟨none, e, t.span.cover e.span⟩ rest

end

theorem expect_skip (h : skipNewlines ts = ⟨.closeParen, close⟩ :: rest) (what : Expectation) :
    plain (expect .closeParen what (skipNewlines ts)) = .ok (close, rest) := by
  rw [h, expect_token]

mutual

theorem Reads.read : Reads l ts e rest → l.read ts = .ok (e, rest)
  | .loop hl h hmore => by
    rw [Level.read_loop hl, h.read]
    exact hmore.continued
  | .base h hcaret => read_power_end h.read hcaret
  | .power h hcaret hmore => by
    have hread := h.read
    obtain ⟨span, heq⟩ := after_eq_some hcaret
    exact read_power_caret (heq ▸ hread) hmore.read
  | .negative => by
    rw [Level.read, plain_unary_minus]
    rfl
  | .negated hnumber h => read_unary_negated h.read hnumber _
  | .primary hminus h => (plain_unary_other hminus).trans h.read
  | .literal h => plain_primary_literal h _
  | .ident hopen => by
    rw [Level.read, plain_primary_ident, hopen]
  | .call₀ hclose => by
    refine read_call ?_ _ _ _
    rw [plain_arguments, hclose, after, if_pos rfl]
  | .call hnone hargs hclose => by
    have hlist := hargs.read
    rw [Level.read, plain_primary_ident, after, if_pos rfl]
    dsimp only
    rw [plain_arguments, hnone]
    dsimp only
    rw [hlist]
    dsimp only [bind, Except.bind]
    rw [expect_skip hclose]
    rfl
  | .paren h hclose => by
    rw [Level.read, plain_primary_paren]
    change Level.read .expr _ >>= _ = _
    rw [h.read]
    dsimp only [bind, Except.bind]
    rw [expect_skip hclose]
    rfl

theorem Continues.continued : Continues l a ts e rest → l.continued a ts = .ok (e, rest)
  | .stop h => Level.continued_none h _
  | .step h hread hmore => by
    rw [Level.continued_some h, hread.read]
    exact hmore.continued

theorem ReadsArgs.read : ReadsArgs ts args rest → plain (argumentList ts) = .ok (args, rest)
  | .one h hcomma => by
    rw [plain_argumentList, h.read]
    dsimp only [bind, Except.bind]
    rw [hcomma]
  | .cons h hcomma hmore => by
    rw [plain_argumentList, h.read]
    dsimp only [bind, Except.bind]
    rw [hcomma]
    dsimp only
    rw [hmore.read]
    rfl

theorem ReadsArg.read : ReadsArg ts a rest → plain (argument ts) = .ok (a, rest)
  | .named hlabel h => by
    have hread := h.read
    obtain ⟨at_, rfl⟩ := label?_eq_some hlabel
    rw [plain_argument_cons, hlabel]
    change Level.read .expr _ >>= _ = _
    rw [hread]
    rfl
  | .positional hlabel h => by
    rw [plain_argument_cons, hlabel]
    change Level.read .expr _ >>= _ = _
    rw [h.read]
    rfl

end

theorem close_of_expect {what : Expectation}
    (h : keeping before (plain (expect .closeParen what (skipNewlines ts))) = .ok (close, rest)) :
    skipNewlines ts = ⟨.closeParen, close⟩ :: rest :=
  expect_eq_ok (keeping_eq_ok h)

mutual

theorem reads_of_read (l : Level) (ts : List Token) (h : l.read ts = .ok (e, rest)) :
    Reads l ts e rest := by
  -- The recursion is on the tokens and, where none is taken, on the height of the level.
  by_cases hl : l.isLoop
  · rw [Level.read_loop hl] at h
    obtain ⟨⟨a, rest'⟩, hfirst, hmore⟩ := bind_eq_ok h
    have := Level.read_length hfirst
    have := Level.height_operand hl
    exact .loop hl (reads_of_read l.operand ts hfirst) (continues_of_continued l a rest' hmore)
  cases l with
  | expr | sum | product => exact absurd rfl hl
  | power =>
    rw [Level.read, plain_power] at h
    obtain ⟨⟨a, rest'⟩, hfirst, hmore⟩ := bind_eq_ok h
    have := plain_length hfirst
    have hbase := reads_of_read .unary ts hfirst
    dsimp only at hmore
    split at hmore
    · rename_i hcaret
      cases hmore
      exact .base hbase hcaret
    · rename_i rest'' hcaret
      have := after_length hcaret
      have := skipNewlines_length_le rest''
      obtain ⟨⟨b, rest₃⟩, hexponent, heq⟩ := bind_eq_ok hmore
      cases heq
      exact .power hbase hcaret (reads_of_read .power _ (keeping_eq_ok hexponent))
  | unary =>
    cases hminus : after .minus ts with
    | none =>
      have hprimary : Level.read .primary ts = .ok (e, rest) :=
        (plain_unary_other hminus).symm.trans h
      exact .primary hminus (reads_of_read .primary ts hprimary)
    | some ts' =>
      obtain ⟨sign, rfl⟩ := after_eq_some hminus
      rw [Level.read, plain_unary_minus] at h
      split at h
      · rename_i hnumber
        cases h
        rw [numeral?_eq_some hnumber]
        exact .negative
      · rename_i hnumber
        obtain ⟨⟨operand, rest'⟩, hread, heq⟩ := bind_eq_ok h
        cases heq
        exact .negated hnumber (reads_of_read .unary ts' hread)
  | primary =>
    cases ts with
    | nil =>
      rw [Level.read, plain_primary_nil] at h
      cases h
    | cons t ts =>
      obtain ⟨kind, span⟩ := t
      cases hliteral : literal? ⟨kind, span⟩ with
      | some e' =>
        rw [Level.read, plain_primary_literal hliteral] at h
        cases h
        exact .literal hliteral
      | none =>
        cases kind with
        | ident name =>
          rw [Level.read, plain_primary_ident] at h
          split at h
          · rename_i hopen
            cases h
            exact .ident hopen
          · rename_i rest₁ hopen
            have := after_length hopen
            have := skipNewlines_length_le rest₁
            obtain ⟨open_, rfl⟩ := after_eq_some hopen
            obtain ⟨⟨args, rest₂⟩, hargs, hend⟩ := bind_eq_ok h
            obtain ⟨⟨close, rest₃⟩, hclose, heq⟩ := bind_eq_ok hend
            cases heq
            have hskip := close_of_expect hclose
            rw [plain_arguments] at hargs
            split at hargs
            · rename_i hnone
              cases hargs
              obtain ⟨_, heq⟩ := after_eq_some hnone
              rw [heq] at hskip
              exact .call₀ (heq.trans hskip)
            · rename_i hnone
              exact .call hnone (readsArgs_of_read _ hargs) hskip
        | openParen =>
          have := skipNewlines_length_le ts
          rw [Level.read, plain_primary_paren] at h
          obtain ⟨⟨inner, rest₁⟩, hinner, hend⟩ := bind_eq_ok h
          obtain ⟨⟨close, rest₂⟩, hclose, heq⟩ := bind_eq_ok hend
          cases heq
          exact .paren (reads_of_read .expr _ hinner) (close_of_expect hclose)
        | number | text | keywordTrue | keywordFalse | hole => cases hliteral
        | _ =>
          rw [Level.read, plain_primary_fault rfl] at h
          cases h
termination_by 9 * ts.length + l.height
decreasing_by
  all_goals
    subst_vars
    simp only [Level.height, List.length_cons] at *
    omega

theorem continues_of_continued (l : Level) (a : Expr) (ts : List Token)
    (h : l.continued a ts = .ok (e, rest)) : Continues l a ts e rest := by
  cases hnext : l.next? ts with
  | none =>
    rw [Level.continued_none hnext] at h
    cases h
    exact .stop hnext
  | some p =>
    obtain ⟨op, rest₁⟩ := p
    have := Level.next?_length hnext
    have := skipNewlines_length_le rest₁
    rw [Level.continued_some hnext] at h
    obtain ⟨⟨b, rest₂⟩, hread, hmore⟩ := bind_eq_ok h
    have hread := keeping_eq_ok hread
    have := Level.read_length hread
    have : l.operand.height < 9 := by cases l <;> decide
    exact .step hnext (reads_of_read l.operand _ hread) (continues_of_continued l _ rest₂ hmore)
termination_by 9 * ts.length

theorem readsArgs_of_read (ts : List Token) (h : plain (argumentList ts) = .ok (args, rest)) :
    ReadsArgs ts args rest := by
  rw [plain_argumentList] at h
  obtain ⟨⟨a, rest₁⟩, hfirst, hmore⟩ := bind_eq_ok h
  have := plain_length hfirst
  have := skipNewlines_length_le rest₁
  have harg := readsArg_of_read ts hfirst
  dsimp only at hmore
  split at hmore
  · rename_i hcomma
    cases hmore
    exact .one harg hcomma
  · rename_i rest₂ hcomma
    have := after_length hcomma
    have := skipNewlines_length_le rest₂
    obtain ⟨⟨args', rest₃⟩, hargs, heq⟩ := bind_eq_ok hmore
    cases heq
    exact .cons harg hcomma (readsArgs_of_read _ (keeping_eq_ok hargs))
termination_by 9 * ts.length + 7

theorem readsArg_of_read (ts : List Token) (h : plain (argument ts) = .ok (a, rest)) :
    ReadsArg ts a rest := by
  cases ts with
  | nil =>
    rw [plain_argument_nil] at h
    cases h
  | cons t ts =>
    rw [plain_argument_cons] at h
    split at h
    · rename_i name start rest₁ hlabel
      have := label?_length hlabel
      have := skipNewlines_length_le rest₁
      obtain ⟨⟨e, rest₂⟩, hread, heq⟩ := bind_eq_ok h
      cases heq
      exact .named hlabel (reads_of_read .expr _ hread)
    · rename_i hlabel
      obtain ⟨⟨e, rest₂⟩, hread, heq⟩ := bind_eq_ok h
      cases heq
      exact .positional hlabel (reads_of_read .expr _ hread)
termination_by 9 * ts.length + 6
decreasing_by
  all_goals
    subst_vars
    simp only [Level.height, List.length_cons] at *
    omega

end

/-! ## Statements -/

inductive ReadsParam : List Token → Parameter → List Token → Prop
  | bare : after .equals rest = none →
      ReadsParam (⟨.ident name, span⟩ :: rest) ⟨name, none, span⟩ rest
  | default : ReadsParam (⟨.ident name, span⟩ :: ⟨.equals, at_⟩ :: ⟨.number value, stop⟩ :: rest)
      ⟨name, some value, span.cover stop⟩ rest
  | negative : ReadsParam
      (⟨.ident name, span⟩ :: ⟨.equals, at_⟩ :: ⟨.minus, sign⟩ :: ⟨.number value, stop⟩ :: rest)
      ⟨name, some (-value), span.cover stop⟩ rest

inductive ReadsParams : List Token → List Parameter → List Token → Prop
  | one : ReadsParam ts p rest → after .comma (skipNewlines rest) = none →
      ReadsParams ts [p] (skipNewlines rest)
  | cons : ReadsParam ts p rest → after .comma (skipNewlines rest) = some rest' →
      ReadsParams (skipNewlines rest') ps rest'' → ReadsParams ts (p :: ps) rest''

/-- The parameters behind an opening parenthesis, and the closing one. -/
inductive ReadsHeader : List Token → List Parameter → List Token → Prop
  | none : skipNewlines ts = ⟨.closeParen, close⟩ :: rest → ReadsHeader ts [] rest
  | some : after .closeParen (skipNewlines ts) = none → ReadsParams (skipNewlines ts) params rest →
      skipNewlines rest = ⟨.closeParen, close⟩ :: rest' → ReadsHeader ts params rest'

inductive ReadsStatement : List Token → Statement → List Token → Prop
  | define : ReadsHeader ts params (⟨.arrow, arrow⟩ :: rest) →
      Reads .expr (skipNewlines rest) body rest' →
      ReadsStatement (⟨.keywordFn, start⟩ :: ⟨.ident name, span⟩ :: ⟨.openParen, open_⟩ :: ts)
        (.define name params body (start.cover body.span)) rest'
  | assign : Reads .expr (skipNewlines ts) value rest →
      ReadsStatement (⟨.ident name, span⟩ :: ⟨.equals, at_⟩ :: ts)
        (.assign name value (span.cover value.span)) rest
  | expr : after .keywordFn ts = none → label? .equals ts = none → Reads .expr ts value rest →
      ReadsStatement ts (.expr value) rest

theorem ReadsParam.read (h : ReadsParam ts p rest) : plain (parameter ts) = .ok (p, rest) := by
  have hname : ∀ name span rest,
      plain (expectName .parameterName (⟨.ident name, span⟩ :: rest)) = .ok ((name, span), rest) :=
    fun _ _ _ => rfl
  rw [plain_parameter]
  cases h with
  | bare hequals =>
    rw [hname]
    dsimp only [bind, Except.bind]
    rw [hequals]
  | default => rfl
  | negative => rfl

theorem ReadsParams.read (h : ReadsParams ts ps rest) :
    plain (parameterList ts) = .ok (ps, rest) := by
  induction h with
  | one h hcomma =>
    rw [plain_parameterList, h.read]
    dsimp only [bind, Except.bind]
    rw [hcomma]
  | cons h hcomma _ ih =>
    rw [plain_parameterList, h.read]
    dsimp only [bind, Except.bind]
    rw [hcomma]
    dsimp only
    rw [ih]

theorem ReadsHeader.read (h : ReadsHeader ts params rest) : ∃ left close,
    plain (parameters (skipNewlines ts)) = .ok (params, left) ∧
      plain (expect .closeParen .closeAfterParameters (skipNewlines left)) = .ok (close, rest) := by
  cases h with
  | none hclose =>
    rw [hclose]
    exact ⟨_, _, plain_parameters _, expect_close _ _ _⟩
  | some hnone hparams hclose =>
    refine ⟨_, _, ?_, expect_skip hclose _⟩
    rw [plain_parameters, hnone]
    exact hparams.read

theorem ReadsStatement.read (h : ReadsStatement ts s rest) :
    plain (statement ts) = .ok (s, rest) := by
  cases h with
  | define hheader hbody =>
    obtain ⟨left, close, hparams, hclose⟩ := hheader.read
    rw [plain_statement_define, plain_definition]
    change plain (parameters _) >>= _ = _
    rw [hparams]
    dsimp only [bind, Except.bind]
    rw [hclose]
    dsimp only
    rw [expect_token]
    change Level.read .expr _ >>= _ = _
    rw [hbody.read]
    rfl
  | assign hvalue =>
    rw [plain_statement_other rfl]
    change Level.read .expr _ >>= _ = _
    rw [hvalue.read]
    rfl
  | expr hfn hlabel hvalue =>
    rw [plain_statement_other hfn, hlabel]
    change Level.read .expr _ >>= _ = _
    rw [hvalue.read]
    rfl

theorem readsParam_of_read (h : plain (parameter ts) = .ok (p, rest)) : ReadsParam ts p rest := by
  rw [plain_parameter] at h
  obtain ⟨⟨⟨name, span⟩, rest₁⟩, hname, hmore⟩ := bind_eq_ok h
  obtain ⟨rfl⟩ : ts = ⟨.ident name, span⟩ :: rest₁ := by
    rw [expectName.eq_def] at hname
    split at hname
    · cases hname
      rfl
    · cases hname
  dsimp only at hmore
  split at hmore
  · rename_i hequals
    cases hmore
    exact .bare hequals
  · rename_i rest₂ hequals
    obtain ⟨at_, rfl⟩ := after_eq_some hequals
    obtain ⟨⟨⟨value, stop⟩, rest₃⟩, hvalue, heq⟩ := bind_eq_ok hmore
    cases heq
    rw [defaultValue.eq_def] at hvalue
    split at hvalue <;> cases hvalue
    · exact .default
    · exact .negative

theorem readsParams_of_read (ts : List Token) (h : plain (parameterList ts) = .ok (ps, rest)) :
    ReadsParams ts ps rest := by
  rw [plain_parameterList] at h
  obtain ⟨⟨p, rest₁⟩, hfirst, hmore⟩ := bind_eq_ok h
  have := plain_length hfirst
  have := skipNewlines_length_le rest₁
  have hparam := readsParam_of_read hfirst
  dsimp only at hmore
  split at hmore
  · rename_i hcomma
    cases hmore
    exact .one hparam hcomma
  · rename_i rest₂ hcomma
    have := after_length hcomma
    have := skipNewlines_length_le rest₂
    obtain ⟨⟨ps', rest₃⟩, hparams, heq⟩ := bind_eq_ok hmore
    cases heq
    exact .cons hparam hcomma (readsParams_of_read _ hparams)
termination_by ts.length

theorem readsHeader_of_read (h : plain (parameters (skipNewlines ts)) = .ok (params, left))
    (hclose : plain (expect .closeParen .closeAfterParameters (skipNewlines left)) =
      .ok (close, rest)) :
    ReadsHeader ts params rest := by
  have hskip := expect_eq_ok hclose
  rw [plain_parameters] at h
  split at h
  · rename_i hnone
    cases h
    obtain ⟨_, heq⟩ := after_eq_some hnone
    rw [heq] at hskip
    exact .none (heq.trans hskip)
  · rename_i hnone
    exact .some hnone (readsParams_of_read _ h) hskip

theorem readsStatement_of_read (h : plain (statement ts) = .ok (s, rest)) :
    ReadsStatement ts s rest := by
  cases hfn : after .keywordFn ts with
  | some ts' =>
    obtain ⟨start, rfl⟩ := after_eq_some hfn
    rw [plain_statement_define, plain_definition] at h
    obtain ⟨⟨⟨name, span⟩, r₁⟩, hname, h⟩ := bind_eq_ok h
    obtain ⟨⟨open_, r₂⟩, hopen, h⟩ := bind_eq_ok h
    obtain ⟨⟨params, r₃⟩, hparams, h⟩ := bind_eq_ok h
    obtain ⟨⟨close, r₄⟩, hclose, h⟩ := bind_eq_ok h
    obtain ⟨⟨arrow, r₅⟩, harrow, h⟩ := bind_eq_ok h
    obtain ⟨⟨body, r₆⟩, hbody, heq⟩ := bind_eq_ok h
    cases heq
    have hheader := readsHeader_of_read hparams hclose
    rw [expectName.eq_def] at hname
    split at hname
    · cases hname
      dsimp only at hopen harrow hheader
      obtain rfl := expect_eq_ok hopen
      obtain rfl := expect_eq_ok harrow
      exact .define hheader (reads_of_read .expr _ hbody)
    · cases hname
  | none =>
    rw [plain_statement_other hfn] at h
    split at h
    · rename_i hlabel
      obtain ⟨at_, rfl⟩ := label?_eq_some hlabel
      obtain ⟨⟨value, rest'⟩, hvalue, heq⟩ := bind_eq_ok h
      cases heq
      exact .assign (reads_of_read .expr _ hvalue)
    · rename_i hlabel
      obtain ⟨⟨value, rest'⟩, hvalue, heq⟩ := bind_eq_ok h
      cases heq
      exact .expr hfn hlabel (reads_of_read .expr _ hvalue)

end SignalPatch.Grammar
