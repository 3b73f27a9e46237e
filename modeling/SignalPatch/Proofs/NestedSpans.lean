import SignalPatch.Proofs.LexedSpans
import SignalPatch.Proofs.ParserProgress

/-!
# Spans of trees

The tokens of a text stand one behind the other (`InLine`). Reading puts one span, or several in
line, in the place of the tokens that it takes, and each span covers those that it was made of. So
the parts of every tree that is read stand in line inside of its span, and the same is true of the
fragments that are kept when a statement is given up.
-/

namespace SignalPatch

/-- The spans are not empty and stand one behind the other from `lo` to `hi`. -/
def InLine : Nat → List Span → Nat → Prop
  | lo, [], hi => lo ≤ hi
  | lo, s :: ss, hi => lo ≤ s.offset ∧ 0 < s.length ∧ InLine s.stop ss hi

namespace Span

theorem cover_of_offset_le {a b : Span} (h : a.offset ≤ b.offset) :
    (a.cover b).offset = a.offset ∧ (a.cover b).stop = max a.stop b.stop := by
  rw [cover, if_pos h]
  refine ⟨rfl, ?_⟩
  simp only [stop]
  omega

end Span

namespace InLine

variable {lo lo' hi : Nat} {a b : Span} {ss tt : List Span}

theorem le (h : InLine lo ss hi) : lo ≤ hi := by
  induction ss generalizing lo with
  | nil => exact h
  | cons s ss ih =>
    obtain ⟨hlo, -, hmore⟩ := h
    have := ih hmore
    rw [Span.stop] at this
    omega

theorem mono (hlo : lo' ≤ lo) (h : InLine lo ss hi) : InLine lo' ss hi := by
  cases ss with
  | nil => exact Nat.le_trans hlo h
  | cons s ss => exact ⟨Nat.le_trans hlo h.1, h.2⟩

theorem tail (h : InLine lo (a :: ss) hi) : InLine lo ss hi := by
  obtain ⟨hlo, -, hmore⟩ := h
  exact hmore.mono (Nat.le_trans hlo (Nat.le_add_right _ _))

theorem sublist (h : InLine lo ss hi) (hsub : tt.Sublist ss) : InLine lo tt hi := by
  induction hsub generalizing lo with
  | slnil => exact h
  | cons s _ ih => exact ih h.tail
  | cons_cons s _ ih => exact ⟨h.1, h.2.1, ih h.2.2⟩

theorem mem (h : InLine lo ss hi) (hs : a ∈ ss) : lo ≤ a.offset ∧ 0 < a.length ∧ a.stop ≤ hi := by
  induction ss generalizing lo with
  | nil => cases hs
  | cons s ss ih =>
    rcases List.mem_cons.mp hs with rfl | hs
    · exact ⟨h.1, h.2.1, h.2.2.le⟩
    · exact ih h.tail hs

theorem pairwise (h : InLine lo ss hi) : ss.Pairwise fun a b => a.stop ≤ b.offset := by
  induction ss generalizing lo with
  | nil => exact .nil
  | cons s ss ih => exact .cons (fun _ hb => (h.2.2.mem hb).1) (ih h.2.2)

theorem append : InLine lo (ss ++ tt) hi ↔ ∃ mid, InLine lo ss mid ∧ InLine mid tt hi := by
  induction ss generalizing lo with
  | nil => exact ⟨fun h => ⟨lo, Nat.le_refl _, h⟩, fun ⟨_, hlo, h⟩ => h.mono hlo⟩
  | cons s ss ih =>
    constructor
    · rintro ⟨hlo, hs, h⟩
      obtain ⟨mid, hmid, h⟩ := ih.mp h
      exact ⟨mid, ⟨hlo, hs, hmid⟩, h⟩
    · rintro ⟨mid, ⟨hlo, hs, hmid⟩, h⟩
      exact ⟨hlo, hs, ih.mpr ⟨mid, hmid, h⟩⟩

/-- One span may take the place of those from `a` to `b`, which then are inside of it. -/
theorem cover (h : InLine lo (a :: (ss ++ b :: tt)) hi) :
    InLine lo (a.cover b :: tt) hi ∧ InLine (a.cover b).offset (a :: (ss ++ [b]))
      (a.cover b).stop := by
  obtain ⟨hlo, ha, h⟩ := h
  obtain ⟨mid, hss, hmid, hb, htt⟩ := append.mp h
  have hle := hss.le
  simp only [Span.stop] at *
  obtain ⟨hoffset, hstop⟩ := Span.cover_of_offset_le (a := a) (b := b) (by omega)
  simp only [Span.stop] at hstop
  refine ⟨⟨by omega, by omega, htt.mono (by simp only [Span.stop]; omega)⟩, by omega, ha, ?_⟩
  refine append.mpr ⟨mid, hss, hmid, hb, ?_⟩
  simp only [InLine, Span.stop]
  omega

theorem cover_pair (h : InLine lo (a :: b :: tt) hi) :
    InLine lo (a.cover b :: tt) hi ∧ InLine (a.cover b).offset [a, b] (a.cover b).stop := by
  rw [← List.nil_append (b :: tt)] at h
  exact h.cover

theorem cover_first (hlo : lo ≤ a.offset) (ha : 0 < a.length) (h : InLine a.offset (b :: tt) hi)
    (hmore : InLine a.stop tt hi) :
    InLine lo (a.cover b :: tt) hi ∧ InLine (a.cover b).offset [b] (a.cover b).stop := by
  obtain ⟨hb, hpos, htt⟩ := h
  obtain ⟨hoffset, hstop⟩ := Span.cover_of_offset_le hb
  have hrest : InLine (a.cover b).stop tt hi := by
    rw [hstop]
    rcases Nat.le_total a.stop b.stop with hle | hle
    · rwa [Nat.max_eq_right hle]
    · rwa [Nat.max_eq_left hle]
  simp only [Span.stop] at hstop
  exact ⟨⟨by omega, by omega, hrest⟩, by omega, hpos, by simp only [InLine, Span.stop]; omega⟩

theorem self (h : 0 < a.length) : InLine a.offset [a] a.stop := ⟨Nat.le_refl _, h, Nat.le_refl _⟩

end InLine

/-! ## Trees -/

mutual

/-- The spans of the parts of a tree are in line inside of its span. -/
inductive Expr.Nested : Expr → Prop
  | number : 0 < s.length → Expr.Nested (.number v s)
  | bool : 0 < s.length → Expr.Nested (.bool v s)
  | text : 0 < s.length → Expr.Nested (.text v s)
  | ident : 0 < s.length → Expr.Nested (.ident name s)
  | hole : 0 < s.length → Expr.Nested (.hole s)
  | binary : a.Nested → b.Nested → InLine s.offset [a.span, b.span] s.stop →
      Expr.Nested (.binary op a b s)
  | call : ArgsNested args → InLine s.offset (args.map Arg.span) s.stop → 0 < s.length →
      Expr.Nested (.call callee args s)
  | pipe : a.Nested → b.Nested → InLine s.offset [a.span, b.span] s.stop → Expr.Nested (.pipe a b s)

inductive ArgsNested : List (Arg Expr) → Prop
  | nil : ArgsNested []
  | cons : e.Nested → InLine s.offset [e.span] s.stop → ArgsNested args →
      ArgsNested (⟨name, e, s⟩ :: args)

end

def Statement.span : Statement → Span
  | .define _ _ _ span | .assign _ _ span => span
  | .expr value => value.span

inductive Statement.Nested : Statement → Prop
  | define : body.Nested → InLine s.offset (params.map Parameter.span ++ [body.span]) s.stop →
      Statement.Nested (.define name params body s)
  | assign : value.Nested → InLine s.offset [value.span] s.stop →
      Statement.Nested (.assign name value s)
  | expr : value.Nested → Statement.Nested (.expr value)

theorem ArgsNested.value (h : ArgsNested args) (ha : a ∈ args) : a.value.Nested := by
  induction args with
  | nil => cases ha
  | cons a' args ih =>
    cases h with
    | cons he _ hargs =>
      rcases List.mem_cons.mp ha with rfl | ha
      · exact he
      · exact ih hargs ha

theorem ArgsNested.values (h : ArgsNested args) (hline : InLine lo (args.map Arg.span) hi) :
    InLine lo (args.map (·.value.span)) hi := by
  induction args generalizing lo with
  | nil => exact hline
  | cons a args ih =>
    cases h with
    | cons he hs hargs =>
      obtain ⟨hlo, -, hmore⟩ := hline
      obtain ⟨hstart, hpos, hstop⟩ := hs
      exact ⟨Nat.le_trans hlo hstart, hpos, ih hargs (hmore.mono hstop)⟩

namespace Grammar

variable {hi : Nat} {α β : Type}

abbrev spans (ts : List Token) : List Span := ts.map Token.span

theorem inLine_of_sublist (h : InLine lo (spans ts) hi) (hsub : rest.Sublist ts) :
    InLine lo (spans rest) hi :=
  h.sublist (hsub.map _)

theorem Operator.join_nested (op : Operator) (ha : a.Nested) (hb : b.Nested)
    (h : InLine lo (a.span :: b.span :: ss) hi) :
    (op.join a b).Nested ∧ InLine lo ((op.join a b).span :: ss) hi := by
  obtain ⟨hline, hinner⟩ := InLine.cover_pair h
  cases op with
  | pipe => exact ⟨.pipe ha hb hinner, hline⟩
  | binary op => exact ⟨.binary ha hb hinner, hline⟩

/-! ## Readers -/

/-- What was read is as it should be, and its spans are in line with the tokens that are left; or
there was a fault, and the fragments that are kept are nested. -/
inductive Lined (lo hi : Nat) (V : α → Prop) (place : α → List Span) :
    Except Fault (α × List Token) → Prop
  | ok {v : α} {rest : List Token} : V v → InLine lo (place v ++ spans rest) hi →
      Lined lo hi V place (.ok (v, rest))
  | fault {f : Fault} : (∀ e ∈ f.built, e.Nested) → Lined lo hi V place (.error f)

namespace Lined

variable {V : α → Prop} {W : β → Prop} {place : α → List Span} {place' : β → List Span}
  {x : Except Fault (α × List Token)} {k : α × List Token → Except Fault (β × List Token)}

theorem bind (h : Lined lo hi V place x)
    (hk : ∀ v rest, x = .ok (v, rest) → V v → InLine lo (place v ++ spans rest) hi →
      Lined lo' hi W place' (k (v, rest))) : Lined lo' hi W place' (x >>= k) := by
  cases h with
  | ok hv hline => exact hk _ _ rfl hv hline
  | fault hf => exact .fault hf

theorem keeping (h : Lined lo hi V place x) (hbefore : ∀ e ∈ before, e.Nested) :
    Lined lo hi V place (Grammar.keeping before x) := by
  cases h with
  | ok hv hline => exact .ok hv hline
  | fault hf => exact .fault fun e he => (List.mem_append.mp he).elim (hbefore e) (hf e)

theorem here (reason : FaultReason) (ts : List Token) :
    Lined lo hi V place (.error (.here reason ts)) :=
  .fault fun _ he => by cases he

end Lined

abbrev LinedExpr (lo hi : Nat) := Lined lo hi Expr.Nested fun e => [e.span]

theorem expect_lined (kind : TokenKind) (what : Expectation) (h : InLine lo (spans ts) hi) :
    Lined lo hi (fun _ => True) (fun s => [s]) (plain (expect kind what ts)) := by
  cases ts with
  | nil => exact .here _ _
  | cons t ts =>
    rw [expect]
    split
    · exact .ok trivial h
    · exact .here _ _

theorem expectName_lined (what : Expectation) (h : InLine lo (spans ts) hi) :
    Lined lo hi (fun _ => True) (fun p => [p.2]) (plain (expectName what ts)) := by
  unfold expectName
  split
  · exact .ok trivial h
  · exact .here _ _

theorem literal_nested (h : literal? t = some e) (ht : 0 < t.span.length) :
    e.Nested ∧ e.span = t.span := by
  obtain ⟨kind, span⟩ := t
  cases kind <;> cases h
  · exact ⟨.bool ht, rfl⟩
  · exact ⟨.bool ht, rfl⟩
  · exact ⟨.number ht, rfl⟩
  · exact ⟨.text ht, rfl⟩
  · exact ⟨.hole ht, rfl⟩

theorem Level.read_suffix {l : Level} (h : l.read (t :: ts) = .ok (e, rest)) : rest <:+ ts := by
  have hinside := l.read_inside (t :: ts)
  rw [h] at hinside
  cases hinside with
  | ok hrest =>
    rcases List.suffix_cons_iff.mp hrest with rfl | hrest
    · exact absurd (Level.read_length h) (Nat.lt_irrefl _)
    · exact hrest

mutual

theorem read_lined (l : Level) (ts : List Token) (h : InLine lo (spans ts) hi) :
    LinedExpr lo hi (l.read ts) := by
  by_cases hl : l.isLoop
  · rw [Level.read_loop hl]
    have := Level.height_operand hl
    refine (read_lined l.operand ts h).bind fun a rest heq ha hline => ?_
    have := Level.read_length heq
    exact continued_lined l rest ha hline
  cases l with
  | expr | sum | product => exact absurd rfl hl
  | power =>
    rw [Level.read, plain_power]
    refine (read_lined .unary ts h).bind fun a rest heq ha hline => ?_
    have := plain_length heq
    dsimp only
    cases hcaret : after .caret rest with
    | none => exact .ok ha hline
    | some rest' =>
      have := after_length hcaret
      have := skipNewlines_length_le rest'
      have hmore := inLine_of_sublist hline.2.2 (after_sublist hcaret)
      refine ((read_lined .power _ hmore).keeping (by simpa using ha)).bind
        fun b rest'' _ hb hline' => ?_
      obtain ⟨hnested, hjoined⟩ := Operator.join_nested (.binary .pow) ha hb
        ⟨hline.1, hline.2.1, hline'⟩
      exact .ok hnested hjoined
  | unary =>
    cases hminus : after .minus ts with
    | none =>
      rw [Level.read, plain_unary_other hminus]
      exact read_lined .primary ts h
    | some ts' =>
      obtain ⟨sign, rfl⟩ := after_eq_some hminus
      rw [Level.read, plain_unary_minus]
      split
      · rename_i hnumber
        rw [numeral?_eq_some hnumber] at h
        obtain ⟨hline, -⟩ := InLine.cover_pair h
        exact .ok (.number hline.2.1) hline
      · refine (read_lined .unary ts' h.2.2).bind fun e rest _ he hline => ?_
        obtain ⟨hcover, hinner⟩ := InLine.cover_pair ⟨h.1, h.2.1, hline⟩
        exact .ok (.call (.cons he (.self hline.2.1) .nil) hinner.tail hcover.2.1) hcover
  | primary =>
    cases ts with
    | nil =>
      rw [Level.read, plain_primary_nil]
      exact .here _ _
    | cons t ts =>
      obtain ⟨kind, span⟩ := t
      cases hliteral : literal? ⟨kind, span⟩ with
      | some e =>
        obtain ⟨he, hspan⟩ := literal_nested hliteral h.2.1
        rw [Level.read, plain_primary_literal hliteral]
        exact .ok he (by rwa [hspan])
      | none =>
        cases kind with
        | ident name =>
          rw [Level.read, plain_primary_ident]
          cases hopen : after .openParen ts with
          | none => exact .ok (.ident h.2.1) h
          | some rest =>
            have := after_length hopen
            have := skipNewlines_length_le rest
            have hinner := inLine_of_sublist h.2.2 (after_sublist hopen)
            refine (arguments_lined _ hinner).bind fun args rest' _ hargs hline => ?_
            obtain ⟨mid, hfront, hback⟩ := InLine.append.mp hline
            have hclose := expect_lined .closeParen .closeAfterArguments
              (inLine_of_sublist hback (skipNewlines_sublist rest'))
            refine (hclose.keeping ?_).bind fun close rest'' _ _ hend => ?_
            · intro e he
              obtain ⟨a, ha, rfl⟩ := List.mem_map.mp he
              exact hargs.value ha
            -- name, arguments and parenthesis are in line, and the span of the call covers the
            -- first and the last
            obtain ⟨hcover, hall⟩ := InLine.cover
              ⟨h.1, h.2.1, InLine.append.mpr ⟨mid, hfront, hend⟩⟩
            exact .ok (.call hargs (hall.tail.sublist (List.sublist_append_left _ _)) hcover.2.1)
              hcover
        | openParen =>
          have := skipNewlines_length_le ts
          rw [Level.read, plain_primary_paren]
          have hinner := inLine_of_sublist h.tail (skipNewlines_sublist ts)
          refine (read_lined .expr _ hinner).bind fun e rest _ he hline => ?_
          have hclose := expect_lined .closeParen .closeParen
            (inLine_of_sublist hline.2.2 (skipNewlines_sublist rest))
          refine (hclose.keeping (by simpa using he)).bind fun close rest' _ _ hend => ?_
          -- the parentheses belong to no span: the expression keeps its own
          exact .ok he ⟨hline.1, hline.2.1, hend.tail⟩
        | number | text | keywordTrue | keywordFalse | hole => cases hliteral
        | _ =>
          rw [Level.read, plain_primary_fault rfl]
          exact .here _ _
termination_by 9 * ts.length + l.height
decreasing_by
  all_goals
    subst_vars
    simp only [Level.height, List.length_cons] at *
    omega

theorem continued_lined (l : Level) (ts : List Token) (ha : a.Nested)
    (h : InLine lo (a.span :: spans ts) hi) :
    LinedExpr lo hi (l.continued a ts) := by
  cases hnext : l.next? ts with
  | none =>
    rw [Level.continued_none hnext]
    exact .ok ha h
  | some p =>
    obtain ⟨op, rest⟩ := p
    have := Level.next?_length hnext
    have := skipNewlines_length_le rest
    have : l.operand.height < 9 := by cases l <;> decide
    rw [Level.continued_some hnext]
    have hmore := inLine_of_sublist h.2.2 (Level.next?_sublist hnext)
    refine ((read_lined l.operand _ hmore).keeping (by simpa using ha)).bind
      fun b rest' heq hb hline => ?_
    have := Level.read_length (keeping_eq_ok heq)
    obtain ⟨hnested, hjoined⟩ := op.join_nested ha hb ⟨h.1, h.2.1, hline⟩
    exact continued_lined l rest' hnested hjoined
termination_by 9 * ts.length

theorem arguments_lined (ts : List Token) (h : InLine lo (spans ts) hi) :
    Lined lo hi ArgsNested (·.map Arg.span) (plain (arguments ts)) := by
  rw [plain_arguments]
  cases after .closeParen ts with
  | some _ => exact .ok .nil h
  | none => exact argumentList_lined ts h
termination_by 9 * ts.length + 8

theorem argumentList_lined (ts : List Token) (h : InLine lo (spans ts) hi) :
    Lined lo hi ArgsNested (·.map Arg.span) (plain (argumentList ts)) := by
  rw [plain_argumentList]
  refine (argument_lined ts h).bind fun a rest heq ha hline => ?_
  have := plain_length heq
  have := skipNewlines_length_le rest
  dsimp only
  cases hcomma : after .comma (skipNewlines rest) with
  | none => exact .ok ha (hline.sublist (((skipNewlines_sublist rest).map _).cons_cons _))
  | some rest' =>
    have := after_length hcomma
    have := skipNewlines_length_le rest'
    have hmore := inLine_of_sublist hline.2.2
      ((after_sublist hcomma).trans (skipNewlines_sublist rest))
    refine ((argumentList_lined _ hmore).keeping ?_).bind fun args rest'' _ hargs hline' => ?_
    · intro e he
      rw [List.mem_singleton.mp he]
      exact ha.value (List.mem_singleton_self a)
    · cases ha with
      | cons he hs _ => exact .ok (.cons he hs hargs) ⟨hline.1, hline.2.1, hline'⟩
termination_by 9 * ts.length + 7

theorem argument_lined (ts : List Token) (h : InLine lo (spans ts) hi) :
    Lined lo hi (fun a => ArgsNested [a]) (fun a => [a.span]) (plain (argument ts)) := by
  cases ts with
  | nil =>
    rw [plain_argument_nil]
    exact .here _ _
  | cons t ts =>
    rw [plain_argument_cons]
    cases hlabel : label? .colon (t :: ts) with
    | some p =>
      obtain ⟨name, start, rest⟩ := p
      have := label?_length hlabel
      have := skipNewlines_length_le rest
      obtain ⟨colon, heq⟩ := label?_eq_some hlabel
      rw [heq] at h
      refine (read_lined .expr _ (inLine_of_sublist h.2.2.tail (skipNewlines_sublist rest))).bind
        fun e rest' _ he hline => ?_
      obtain ⟨hcover, hinner⟩ := InLine.cover_pair ⟨h.1, h.2.1, hline⟩
      exact .ok (.cons he hinner.tail .nil) hcover
    | none =>
      -- The argument begins at its first token, and its value may begin later, behind a
      -- parenthesis.
      have hself : InLine t.span.offset (spans (t :: ts)) hi := ⟨Nat.le_refl _, h.2⟩
      refine (read_lined .expr (t :: ts) hself).bind fun e rest heq he hline => ?_
      have hmore := inLine_of_sublist h.2.2 (Level.read_suffix heq).sublist
      obtain ⟨hcover, hinner⟩ := InLine.cover_first h.1 h.2.1 hline hmore
      exact .ok (.cons he hinner .nil) hcover
termination_by 9 * ts.length + 6
decreasing_by
  all_goals
    subst_vars
    simp only [Level.height, List.length_cons] at *
    omega

end

/-! ## Statements -/

theorem defaultValue_lined (h : InLine lo (spans ts) hi) :
    Lined lo hi (fun _ => True) (fun p => [p.2]) (plain (defaultValue ts)) := by
  unfold defaultValue
  split
  · exact .ok trivial h
  · exact .ok trivial h.tail
  all_goals exact .fault fun _ he => by cases he

theorem parameter_lined (h : InLine lo (spans ts) hi) :
    Lined lo hi (fun _ => True) (fun p => [p.span]) (plain (parameter ts)) := by
  rw [plain_parameter]
  refine (expectName_lined .parameterName h).bind fun p rest _ _ hline => ?_
  dsimp only
  cases hequals : after .equals rest with
  | none => exact .ok trivial hline
  | some rest' =>
    obtain ⟨equals, rfl⟩ := after_eq_some hequals
    refine (defaultValue_lined hline.2.2.tail).bind fun q rest'' _ _ hline' => ?_
    exact .ok trivial (InLine.cover_pair ⟨hline.1, hline.2.1, hline'⟩).1

theorem parameterList_lined (ts : List Token) (h : InLine lo (spans ts) hi) :
    Lined lo hi (fun _ => True) (·.map Parameter.span) (plain (parameterList ts)) := by
  rw [plain_parameterList]
  refine (parameter_lined h).bind fun p rest heq _ hline => ?_
  have := plain_length heq
  have := skipNewlines_length_le rest
  dsimp only
  cases hcomma : after .comma (skipNewlines rest) with
  | none => exact .ok trivial (hline.sublist (((skipNewlines_sublist rest).map _).cons_cons _))
  | some rest' =>
    have := after_length hcomma
    have := skipNewlines_length_le rest'
    have hmore := inLine_of_sublist hline.2.2
      ((after_sublist hcomma).trans (skipNewlines_sublist rest))
    refine (parameterList_lined _ hmore).bind fun params rest'' _ _ hline' => ?_
    exact .ok trivial ⟨hline.1, hline.2.1, hline'⟩
termination_by ts.length

theorem parameters_lined (h : InLine lo (spans ts) hi) :
    Lined lo hi (fun _ => True) (·.map Parameter.span) (plain (parameters ts)) := by
  rw [plain_parameters]
  cases after .closeParen ts with
  | some _ => exact .ok trivial h
  | none => exact parameterList_lined ts h

abbrev LinedStatement (lo hi : Nat) := Lined lo hi Statement.Nested fun s => [s.span]

theorem definition_lined (h : InLine lo (start :: spans ts) hi) :
    LinedStatement lo hi (plain (definition start ts)) := by
  rw [plain_definition]
  refine (expectName_lined _ h.2.2).bind fun _ r₁ _ _ h₁ => ?_
  refine (expect_lined _ _ h₁.tail).bind fun _ r₂ _ _ h₂ => ?_
  refine (parameters_lined (inLine_of_sublist h₂.tail (skipNewlines_sublist r₂))).bind
    fun params r₃ _ _ h₃ => ?_
  -- The parameters keep their places while the rest is read behind them.
  obtain ⟨mid, hparams, hback⟩ := InLine.append.mp h₃
  refine (expect_lined _ _ (inLine_of_sublist hback (skipNewlines_sublist r₃))).bind
    fun _ r₄ _ _ h₄ => ?_
  refine (expect_lined _ _ h₄.tail).bind fun _ r₅ _ _ h₅ => ?_
  refine (read_lined .expr _ (inLine_of_sublist h₅.tail (skipNewlines_sublist r₅))).bind
    fun body r₆ _ hbody h₆ => ?_
  obtain ⟨hcover, hinner⟩ := InLine.cover ⟨h.1, h.2.1, InLine.append.mpr ⟨mid, hparams, h₆⟩⟩
  exact .ok (.define hbody hinner.tail) hcover

theorem statement_lined (h : InLine lo (spans ts) hi) :
    LinedStatement lo hi (plain (statement ts)) := by
  cases hfn : after .keywordFn ts with
  | some ts' =>
    obtain ⟨span, rfl⟩ := after_eq_some hfn
    rw [plain_statement_define]
    exact definition_lined h
  | none =>
    rw [plain_statement_other hfn]
    cases hlabel : label? .equals ts with
    | some p =>
      obtain ⟨name, span, rest⟩ := p
      obtain ⟨equals, rfl⟩ := label?_eq_some hlabel
      refine (read_lined .expr _ (inLine_of_sublist h.2.2.tail (skipNewlines_sublist rest))).bind
        fun e rest' _ he hline => ?_
      obtain ⟨hcover, hinner⟩ := InLine.cover_pair ⟨h.1, h.2.1, hline⟩
      exact .ok (.assign he hinner.tail) hcover
    | none => exact (read_lined .expr ts h).bind fun _ _ _ he hline => .ok (.expr he) hline

inductive Turn.Nested : Turn → Prop
  | complete : s.Nested → Turn.Nested (.complete s)
  | trailing : s.Nested → Turn.Nested (.trailing s next)
  | abandoned : (∀ e ∈ f.built, e.Nested) → Turn.Nested (.abandoned f)

theorem finished_nested (h : s.Nested) (rest : List Token) :
    (finished s rest).Nested ∧ (finished s rest).statement? = some s := by
  unfold finished
  split
  · exact ⟨.complete h, rfl⟩
  · split
    · exact ⟨.complete h, rfl⟩
    · exact ⟨.trailing h, rfl⟩

theorem resume_sublist (ts : List Token) (left : Nat) : (resume ts left).Sublist ts :=
  (List.dropWhile_sublist _).trans (List.drop_sublist _ _)

/-- The statements are in line as the tokens are. -/
theorem turns_lined (ts : List Token) (h : InLine lo (spans ts) hi) :
    (∀ turn ∈ turns ts, turn.Nested) ∧ InLine lo
      (((turns ts).filterMap Turn.statement?).map Statement.span) hi := by
  cases hdrop : ts.dropWhile isSeparator with
  | nil =>
    rw [turns_done hdrop]
    exact ⟨by simp, h.le⟩
  | cons t rest =>
    have hsub : (t :: rest).Sublist ts := hdrop ▸ List.dropWhile_sublist _
    have hle := hsub.length_le
    have hline := inLine_of_sublist h hsub
    -- A statement lies in its own tokens, and the rest is behind it.
    have hread := statement_lined hline
    cases hs : plain (statement (t :: rest)) with
    | ok p =>
      rw [hs] at hread
      cases hread with
      | @ok s rest' hnested hbehind =>
        have hlt := plain_length hs
        have hskip := skipStatement_length_le rest'
        obtain ⟨hturn, hstatement⟩ := finished_nested hnested rest'
        have hmore := inLine_of_sublist hbehind.2.2 (List.dropWhile_sublist (!isSeparator ·))
        obtain ⟨hturns, hstatements⟩ := turns_lined (skipStatement rest') hmore
        rw [turns_read hdrop hs, List.filterMap_cons_some hstatement]
        exact ⟨List.forall_mem_cons.mpr ⟨hturn, hturns⟩, hbehind.1, hbehind.2.1, hstatements⟩
    | error f =>
      rw [hs] at hread
      cases hread with
      | fault hbuilt =>
        have hlt := resume_length_lt rest f.left (head_dropWhile_separator hdrop)
        have hmore := inLine_of_sublist hline (resume_sublist (t :: rest) f.left)
        obtain ⟨hturns, hstatements⟩ := turns_lined (resume (t :: rest) f.left) hmore
        rw [turns_fault hdrop hs]
        exact ⟨List.forall_mem_cons.mpr ⟨.abandoned hbuilt, hturns⟩, hstatements⟩
termination_by ts.length

end Grammar

/-! ## Texts -/

open Pattern (byteLength)

theorem Cut.inLine (h : Cut before rest found) :
    InLine (byteLength before) (found.map Piece.span) (byteLength (before ++ rest)) := by
  induction h with
  | nil => simp [InLine]
  | @cons c tail rest lexeme before found _ _ ih =>
    refine ⟨Nat.le_of_eq (spanBehind_offset _ _).symm, ?_, ?_⟩
    · rw [spanBehind_length]
      exact byteLength_pos (List.cons_ne_nil _ _)
    · rwa [spanBehind_stop, ← List.append_assoc]

theorem spans_tokens_sublist (found : List Piece) :
    (Grammar.spans (found.filterMap Piece.token?)).Sublist (found.map Piece.span) := by
  induction found with
  | nil => exact .slnil
  | cons piece found ih =>
    obtain ⟨lexeme, span⟩ := piece
    cases lexeme with
    | token kind => exact ih.cons_cons span
    | _ => exact ih.cons span

theorem tokensOf_inLine (source : String) :
    InLine 0 (Grammar.spans (tokensOf source)) (byteLength source.toList) :=
  (pieces_cut [] source.toList).inLine.sublist (spans_tokens_sublist _)

end SignalPatch
