import SignalPatch.Grammar

/-!
# The readers of the grammar, without their bounds

A reader gives what it read and the tokens that are left, with a proof that these are fewer. `plain`
forgets the proof, and each reader gets an equation that says what it does in these terms. What
follows an element is asked for by `after`.
-/

namespace SignalPatch.Grammar

variable {α β : Type} {m n : Nat}

/-- What was read and what is left. -/
def plain (x : Except Fault (Read α n)) : Except Fault (α × List Token) :=
  x.map fun r => (r.value, r.rest)

/-- The tokens after a token of the given kind, if it comes first. -/
def after (kind : TokenKind) : List Token → Option (List Token)
  | t :: rest => if t.kind = kind then some rest else none
  | [] => none

theorem plain_bind (x : Except Fault (Read α m)) (k : Read α m → Except Fault (Read β n))
    (k' : α × List Token → Except Fault (β × List Token))
    (h : ∀ r, plain (k r) = k' (r.value, r.rest)) : plain (x >>= k) = plain x >>= k' := by
  cases x with
  | error f => rfl
  | ok r => exact h r

theorem plain_bind_same (x : Except Fault (Read α m)) (k : Read α m → Except Fault (Read α n))
    (h : ∀ r, plain (k r) = .ok (r.value, r.rest)) : plain (x >>= k) = plain x := by
  rw [plain_bind x k .ok h]
  exact bind_pure _

theorem bind_eq_ok {x : Except Fault α} {k : α → Except Fault β} (h : x >>= k = .ok b) :
    ∃ a, x = .ok a ∧ k a = .ok b := by
  cases x with
  | error f => cases h
  | ok a => exact ⟨a, rfl, h⟩

theorem plain_keeping (before : List Expr) (x : Except Fault (Read α n)) :
    plain (keeping before x) = keeping before (plain x) := by
  cases x <;> rfl

theorem plain_length {x : Except Fault (Read α n)} (h : plain x = .ok (v, rest)) :
    rest.length < n := by
  cases x with
  | error f => cases h
  | ok r =>
    cases h
    exact r.short

theorem after_length (h : after kind ts = some rest) : rest.length < ts.length := by
  cases ts with
  | nil => cases h
  | cons t ts =>
    simp only [after] at h
    split at h <;> simp_all

theorem after_eq_some (h : after kind ts = some rest) : ∃ span, ts = ⟨kind, span⟩ :: rest := by
  cases ts with
  | nil => cases h
  | cons t ts =>
    simp only [after] at h
    split at h
    · rename_i hkind
      cases h
      exact ⟨t.span, hkind ▸ rfl⟩
    · cases h

theorem after_eq_none (h : ∀ span rest, ts ≠ ⟨kind, span⟩ :: rest) : after kind ts = none := by
  cases hafter : after kind ts with
  | none => rfl
  | some rest =>
    obtain ⟨span, hts⟩ := after_eq_some hafter
    exact absurd hts (h span rest)

theorem skipNewlines_sublist (ts : List Token) : (skipNewlines ts).Sublist ts :=
  List.dropWhile_sublist _

theorem after_sublist (h : after kind ts = some rest) : (skipNewlines rest).Sublist ts := by
  obtain ⟨span, rfl⟩ := after_eq_some h
  exact (skipNewlines_sublist rest).cons _

def firstOp (op? : TokenKind → Option BinaryOp) : List Token → Option (BinaryOp × List Token)
  | t :: rest => (op? t.kind).map fun op => (op, rest)
  | [] => none

def sumOf? : TokenKind → Option BinaryOp
  | .plus => some .add
  | .minus => some .sub
  | _ => none

def productOf? : TokenKind → Option BinaryOp
  | .star => some .mul
  | .slash => some .div
  | _ => none

theorem sumOp?_eq (ts : List Token) : sumOp? ts = firstOp sumOf? ts := by
  cases ts with
  | nil => rfl
  | cons t ts =>
    obtain ⟨kind, span⟩ := t
    cases kind <;> rfl

theorem productOp?_eq (ts : List Token) : productOp? ts = firstOp productOf? ts := by
  cases ts with
  | nil => rfl
  | cons t ts =>
    obtain ⟨kind, span⟩ := t
    cases kind <;> rfl

theorem expect_eq_ok (h : plain (expect kind what ts) = .ok (span, rest)) :
    ts = ⟨kind, span⟩ :: rest := by
  cases ts with
  | nil => cases h
  | cons t ts =>
    rw [expect] at h
    split at h
    · rename_i hkind
      cases h
      rw [← hkind]
    · cases h

/-! ## Expressions -/

theorem plain_expr (ts : List Token) :
    plain (expr ts) = plain (sum ts) >>= fun p => plain (pipes p.1 p.2) := by
  rw [expr]
  refine plain_bind _ _ _ fun r => ?_
  exact plain_bind_same _ _ fun _ => rfl

theorem plain_pipes (source : Expr) (ts : List Token) :
    plain (pipes source ts) = match pipe? ts with
      | none => .ok (source, ts)
      | some rest => keeping [source] (plain (sum (skipNewlines rest))) >>= fun p =>
          plain (pipes (.pipe source p.1 (source.span.cover p.1.span)) p.2) := by
  rw [pipes]
  split
  · rename_i h
    rw [h]
    rfl
  · rename_i rest h
    conv => rhs; rw [h]
    dsimp only
    rw [← plain_keeping]
    refine plain_bind _ _ _ fun r => ?_
    exact plain_bind_same _ _ fun _ => rfl

theorem plain_sum (ts : List Token) :
    plain (sum ts) = plain (product ts) >>= fun p => plain (sums p.1 p.2) := by
  rw [sum]
  refine plain_bind _ _ _ fun r => ?_
  exact plain_bind_same _ _ fun _ => rfl

theorem plain_sums (lhs : Expr) (ts : List Token) :
    plain (sums lhs ts) = match sumOp? ts with
      | none => .ok (lhs, ts)
      | some (op, rest) => keeping [lhs] (plain (product (skipNewlines rest))) >>= fun p =>
          plain (sums (.operation op lhs p.1) p.2) := by
  rw [sums]
  split
  · rename_i h
    rw [h]
    rfl
  · rename_i op rest h
    conv => rhs; rw [h]
    dsimp only
    rw [← plain_keeping]
    refine plain_bind _ _ _ fun r => ?_
    exact plain_bind_same _ _ fun _ => rfl

theorem plain_product (ts : List Token) :
    plain (product ts) = plain (power ts) >>= fun p => plain (products p.1 p.2) := by
  rw [product]
  refine plain_bind _ _ _ fun r => ?_
  exact plain_bind_same _ _ fun _ => rfl

theorem plain_products (lhs : Expr) (ts : List Token) :
    plain (products lhs ts) = match productOp? ts with
      | none => .ok (lhs, ts)
      | some (op, rest) => keeping [lhs] (plain (power (skipNewlines rest))) >>= fun p =>
          plain (products (.operation op lhs p.1) p.2) := by
  rw [products]
  split
  · rename_i h
    rw [h]
    rfl
  · rename_i op rest h
    conv => rhs; rw [h]
    dsimp only
    rw [← plain_keeping]
    refine plain_bind _ _ _ fun r => ?_
    exact plain_bind_same _ _ fun _ => rfl

theorem plain_power (ts : List Token) :
    plain (power ts) = plain (unary ts) >>= fun p => match after .caret p.2 with
      | none => .ok p
      | some rest => keeping [p.1] (plain (power (skipNewlines rest))) >>= fun q =>
          .ok (.operation .pow p.1 q.1, q.2) := by
  rw [power]
  refine plain_bind _ _ _ fun r => ?_
  obtain ⟨base, rest, h⟩ := r
  dsimp only
  split
  · rw [after, if_pos rfl]
    dsimp only
    rw [← plain_keeping]
    exact plain_bind _ _ _ fun _ => rfl
  · rename_i hother
    have hnone : after .caret rest = none := by
      apply after_eq_none
      rintro span rest' rfl
      exact absurd HEq.rfl (hother span rest' h rfl)
    rw [hnone]
    rfl

def numeral? : List Token → Option (Float × Span × List Token)
  | ⟨.number value, span⟩ :: rest => some (value, span, rest)
  | _ => none

theorem numeral?_eq_some (h : numeral? ts = some (value, span, rest)) :
    ts = ⟨.number value, span⟩ :: rest := by
  unfold numeral? at h
  split at h <;> simp_all

theorem plain_unary_minus (sign : Span) (ts : List Token) :
    plain (unary (⟨.minus, sign⟩ :: ts)) = match numeral? ts with
      | some (value, span, rest) => .ok (.number (-value) (sign.cover span), rest)
      | none => plain (unary ts) >>= fun p => .ok (.negated sign p.1, p.2) := by
  cases h : numeral? ts with
  | some p =>
    rw [numeral?_eq_some h, unary]
    rfl
  | none =>
    rw [unary]
    · exact plain_bind _ _ _ fun _ => rfl
    · rintro value span rest rfl
      cases h

theorem plain_unary_other (h : after .minus ts = none) : plain (unary ts) = plain (primary ts) := by
  rw [unary]
  · rintro sign value span rest rfl
    cases h
  · rintro sign rest rfl
    cases h

def literal? (t : Token) : Option Expr :=
  match t.kind with
  | .number value => some (.number value t.span)
  | .text value => some (.text value t.span)
  | .keywordTrue => some (.bool true t.span)
  | .keywordFalse => some (.bool false t.span)
  | .hole => some (.hole t.span)
  | _ => none

theorem plain_primary_literal (h : literal? t = some e) (rest : List Token) :
    plain (primary (t :: rest)) = .ok (e, rest) := by
  obtain ⟨kind, span⟩ := t
  cases kind <;> cases h
  all_goals
    rw [primary]
    rfl

theorem plain_primary_ident (name : String) (span : Span) (ts : List Token) :
    plain (primary (⟨.ident name, span⟩ :: ts)) = match after .openParen ts with
      | none => .ok (.ident name span, ts)
      | some rest => plain (arguments (skipNewlines rest)) >>= fun p =>
          keeping (p.1.map Arg.value)
              (plain (expect .closeParen .closeAfterArguments (skipNewlines p.2))) >>= fun q =>
            .ok (.call name p.1 (span.cover q.1), q.2) := by
  cases h : after .openParen ts with
  | none =>
    rw [primary]
    · rfl
    · rintro _ rest rfl
      cases h
  | some rest =>
    obtain ⟨_, rfl⟩ := after_eq_some h
    rw [primary]
    refine plain_bind _ _ _ fun r => ?_
    rw [← plain_keeping]
    exact plain_bind _ _ _ fun _ => rfl

theorem plain_primary_paren (span : Span) (ts : List Token) :
    plain (primary (⟨.openParen, span⟩ :: ts)) = plain (expr (skipNewlines ts)) >>= fun p =>
      keeping [p.1] (plain (expect .closeParen .closeParen (skipNewlines p.2))) >>= fun q =>
        .ok (p.1, q.2) := by
  rw [primary]
  refine plain_bind _ _ _ fun r => ?_
  rw [← plain_keeping]
  exact plain_bind _ _ _ fun _ => rfl

def startsPrimary : TokenKind → Bool
  | .number _ | .text _ | .keywordTrue | .keywordFalse | .hole | .ident _ | .openParen => true
  | _ => false

theorem plain_primary_fault (h : startsPrimary t.kind = false) (rest : List Token) :
    plain (primary (t :: rest)) =
      .error
        (.here (if t.kind = .keywordFn then .nestedFunction else .unexpected) (t :: rest)) := by
  obtain ⟨kind, span⟩ := t
  rw [primary.eq_def]
  cases kind <;> first | rfl | cases h

theorem plain_primary_nil : plain (primary []) = .error (.here .unexpected []) := by
  rw [primary.eq_def]
  rfl

/-- The tokens before which reading stops as it does where the tokens end. -/
def endsReading : TokenKind → Bool
  | .semicolon | .finish => true
  | _ => false

/-- Those tokens and newlines: no expression goes on with them. -/
def stopsReading (kind : TokenKind) : Bool := kind == .newline || endsReading kind

theorem plain_primary_end (h : endsReading t.kind) (rest : List Token) :
    plain (primary (t :: rest)) = .error (.here .unexpected (t :: rest)) := by
  obtain ⟨kind, span⟩ := t
  cases kind with
  | semicolon | finish => exact plain_primary_fault rfl rest
  | _ => cases h

theorem plain_unary_end (h : endsReading t.kind) (rest : List Token) :
    plain (unary (t :: rest)) = .error (.here .unexpected (t :: rest)) := by
  have hminus : after .minus (t :: rest) = none := by
    rw [after, if_neg]
    rintro hkind
    rw [hkind] at h
    cases h
  rw [plain_unary_other hminus, plain_primary_end h]

theorem plain_arguments (ts : List Token) :
    plain (arguments ts) = match after .closeParen ts with
      | some _ => .ok ([], ts)
      | none => plain (argumentList ts) := by
  cases h : after .closeParen ts with
  | some rest =>
    obtain ⟨_, rfl⟩ := after_eq_some h
    rw [arguments]
    rfl
  | none =>
    rw [arguments]
    · exact plain_bind_same _ _ fun _ => rfl
    · rintro _ rest rfl
      cases h

theorem plain_argumentList (ts : List Token) :
    plain (argumentList ts) = plain (argument ts) >>= fun p =>
      match after .comma (skipNewlines p.2) with
      | none => .ok ([p.1], skipNewlines p.2)
      | some rest => keeping [p.1.value] (plain (argumentList (skipNewlines rest))) >>= fun q =>
          .ok (p.1 :: q.1, q.2) := by
  rw [argumentList]
  refine plain_bind _ _ _ fun r => ?_
  dsimp only
  split
  · rename_i rest hcomma
    have hafter : after .comma (skipNewlines r.rest) = some rest := by
      rw [hcomma, after, if_pos rfl]
    conv => rhs; rw [hafter]
    dsimp only
    rw [← plain_keeping]
    exact plain_bind _ _ _ fun _ => rfl
  · rename_i hother
    rw [after_eq_none hother]
    rfl

def label? (mark : TokenKind) : List Token → Option (String × Span × List Token)
  | ⟨.ident name, span⟩ :: ts => (after mark ts).map fun rest => (name, span, rest)
  | _ => none

theorem label?_eq_some (h : label? mark ts = some (name, span, rest)) :
    ∃ at_, ts = ⟨.ident name, span⟩ :: ⟨mark, at_⟩ :: rest := by
  unfold label? at h
  split at h
  · simp only [Option.map_eq_some_iff, Prod.mk.injEq] at h
    obtain ⟨rest', hmark, rfl, rfl, rfl⟩ := h
    obtain ⟨at_, rfl⟩ := after_eq_some hmark
    exact ⟨at_, rfl⟩
  · cases h

theorem label?_sublist (h : label? mark ts = some (name, span, rest)) :
    (skipNewlines rest).Sublist ts := by
  obtain ⟨_, rfl⟩ := label?_eq_some h
  exact ((skipNewlines_sublist rest).cons _).cons _

theorem label?_length (h : label? mark ts = some (name, span, rest)) :
    rest.length + 2 = ts.length := by
  obtain ⟨_, rfl⟩ := label?_eq_some h
  rfl

theorem plain_argument_cons (t : Token) (ts : List Token) :
    plain (argument (t :: ts)) = match label? .colon (t :: ts) with
      | some (name, start, rest) => plain (expr (skipNewlines rest)) >>= fun p =>
          .ok (⟨some name, p.1, start.cover p.1.span⟩, p.2)
      | none => plain (expr (t :: ts)) >>= fun p =>
          .ok (⟨none, p.1, t.span.cover p.1.span⟩, p.2) := by
  cases h : label? .colon (t :: ts) with
  | some p =>
    obtain ⟨_, heq⟩ := label?_eq_some h
    rw [heq, argument]
    exact plain_bind _ _ _ fun _ => rfl
  | none =>
    rw [argument]
    · exact plain_bind _ _ _ fun _ => rfl
    · rintro name start _ rest rfl rfl
      cases h

theorem plain_argument_nil : plain (argument []) = .error (.here .unexpected []) := by
  rw [argument]
  rfl

theorem plain_argument_end (h : endsReading t.kind) (rest : List Token) :
    plain (argument (t :: rest)) = .error (.here .unexpected (t :: rest)) := by
  have hlabel : label? .colon (t :: rest) = none := by
    obtain ⟨kind, span⟩ := t
    cases kind with
    | semicolon | finish => rfl
    | _ => cases h
  rw [plain_argument_cons, hlabel]
  dsimp only
  rw [plain_expr, plain_sum, plain_product, plain_power, plain_unary_end h]
  rfl

/-! ## Levels -/

/-- The levels of expressions, from pipes to what stands in no need of parentheses. -/
inductive Level where
  | expr
  | sum
  | product
  | power
  | unary
  | primary

inductive Operator where
  | pipe
  | binary (op : BinaryOp)

def Operator.join : Operator → Expr → Expr → Expr
  | .pipe, a, b => .pipe a b (a.span.cover b.span)
  | .binary op, a, b => .operation op a b

namespace Level

/-- The level of the operands that are read one after the other, if there are such. -/
def operand : Level → Level
  | .expr => .sum
  | .sum => .product
  | .product => .power
  | l => l

def read : Level → List Token → Except Fault (Expr × List Token)
  | .expr, ts => plain (Grammar.expr ts)
  | .sum, ts => plain (Grammar.sum ts)
  | .product, ts => plain (Grammar.product ts)
  | .power, ts => plain (Grammar.power ts)
  | .unary, ts => plain (Grammar.unary ts)
  | .primary, ts => plain (Grammar.primary ts)

/-- Reading when the first operands are read. -/
def continued : Level → Expr → List Token → Except Fault (Expr × List Token)
  | .expr, e, ts => plain (pipes e ts)
  | .sum, e, ts => plain (sums e ts)
  | .product, e, ts => plain (products e ts)
  | _, e, ts => .ok (e, ts)

def isLoop : Level → Bool
  | .expr | .sum | .product => true
  | _ => false

def next? : Level → List Token → Option (Operator × List Token)
  | .expr, ts => (pipe? ts).map (Prod.mk .pipe)
  | .sum, ts => (firstOp sumOf? ts).map fun p => (.binary p.1, p.2)
  | .product, ts => (firstOp productOf? ts).map fun p => (.binary p.1, p.2)
  | _, _ => none

/-- A level is above that of its operands. -/
def height : Level → Nat
  | .expr => 5
  | .sum => 4
  | .product => 3
  | .power => 2
  | .unary => 1
  | .primary => 0

def mark? : Level → TokenKind → Option Operator
  | .expr, .pipe => some .pipe
  | .sum, kind => (sumOf? kind).map .binary
  | .product, kind => (productOf? kind).map .binary
  | _, _ => none

variable {l : Level} {ts rest : List Token} {e : Expr}

theorem read_loop (hl : l.isLoop) (ts : List Token) :
    l.read ts = l.operand.read ts >>= fun p => l.continued p.1 p.2 := by
  cases l with
  | expr => exact plain_expr ts
  | sum => exact plain_sum ts
  | product => exact plain_product ts
  | power | unary | primary => cases hl

theorem continued_none (h : l.next? ts = none) (e : Expr) : l.continued e ts = .ok (e, ts) := by
  cases l with
  | expr =>
    rw [continued, plain_pipes, Option.map_eq_none_iff.mp h]
  | sum =>
    rw [continued, plain_sums, sumOp?_eq, Option.map_eq_none_iff.mp h]
  | product =>
    rw [continued, plain_products, productOp?_eq, Option.map_eq_none_iff.mp h]
  | power | unary | primary => rfl

theorem continued_some (h : l.next? ts = some (op, rest)) (e : Expr) :
    l.continued e ts = keeping [e] (l.operand.read (skipNewlines rest)) >>= fun p =>
      l.continued (op.join e p.1) p.2 := by
  cases l with
  | expr =>
    obtain ⟨rest', hpipe, heq⟩ := Option.map_eq_some_iff.mp h
    cases heq
    rw [continued, plain_pipes, hpipe]
    rfl
  | sum =>
    obtain ⟨p, hop, heq⟩ := Option.map_eq_some_iff.mp h
    cases heq
    rw [continued, plain_sums, sumOp?_eq, hop]
    rfl
  | product =>
    obtain ⟨p, hop, heq⟩ := Option.map_eq_some_iff.mp h
    cases heq
    rw [continued, plain_products, productOp?_eq, hop]
    rfl
  | power | unary | primary => cases h

theorem mark?_pipe : mark? .expr .pipe = some .pipe := rfl

theorem mark?_sum (h : sumOf? kind = some op) : mark? .sum kind = some (.binary op) :=
  congrArg (Option.map Operator.binary) h

theorem mark?_product (h : productOf? kind = some op) : mark? .product kind = some (.binary op) :=
  congrArg (Option.map Operator.binary) h

theorem next?_eq_some (h : l.next? ts = some (op, rest)) :
    ∃ t, (skipNewlines ts = t :: rest ∨ ts = t :: rest) ∧ l.mark? t.kind = some op := by
  have hfirst : ∀ {op? : TokenKind → Option BinaryOp} {p}, firstOp op? ts = some p →
      ∃ t, ts = t :: p.2 ∧ op? t.kind = some p.1 := by
    intro op? p hop
    cases ts with
    | nil => cases hop
    | cons t ts =>
      obtain ⟨op, hmark, rfl⟩ := Option.map_eq_some_iff.mp hop
      exact ⟨t, rfl, hmark⟩
  cases l with
  | expr =>
    -- A pipe may stand behind newlines, the other operators may not.
    obtain ⟨_, hpipe, heq⟩ := Option.map_eq_some_iff.mp h
    cases heq
    unfold pipe? at hpipe
    split at hpipe
    · rename_i hskip
      cases hpipe
      exact ⟨_, .inl hskip, mark?_pipe⟩
    · cases hpipe
  | sum =>
    obtain ⟨p, hop, heq⟩ := Option.map_eq_some_iff.mp h
    cases heq
    obtain ⟨t, hts, hmark⟩ := hfirst hop
    exact ⟨t, .inr hts, mark?_sum hmark⟩
  | product =>
    obtain ⟨p, hop, heq⟩ := Option.map_eq_some_iff.mp h
    cases heq
    obtain ⟨t, hts, hmark⟩ := hfirst hop
    exact ⟨t, .inr hts, mark?_product hmark⟩
  | power | unary | primary => cases h

theorem next?_suffix (h : l.next? ts = some (op, rest)) : ∃ t, t :: rest <:+ ts := by
  obtain ⟨t, hskip | rfl, -⟩ := next?_eq_some h
  · exact ⟨t, hskip ▸ List.dropWhile_suffix _⟩
  · exact ⟨t, List.suffix_refl _⟩

theorem next?_length (h : l.next? ts = some (op, rest)) : rest.length < ts.length := by
  obtain ⟨t, hsuffix⟩ := next?_suffix h
  exact hsuffix.length_le

theorem next?_sublist (h : l.next? ts = some (op, rest)) : (skipNewlines rest).Sublist ts := by
  obtain ⟨t, hsuffix⟩ := next?_suffix h
  exact ((skipNewlines_sublist rest).cons t).trans hsuffix.sublist

theorem next?_mark (h : l.mark? kind = some op) (span : Span) (ts : List Token) :
    l.next? (⟨kind, span⟩ :: ts) = some (op, ts) := by
  cases l with
  | expr => cases kind <;> cases h; rfl
  | sum | product =>
    obtain ⟨op, hop, rfl⟩ := Option.map_eq_some_iff.mp h
    simp [next?, firstOp, hop]
  | power | unary | primary => cases h

theorem height_operand (hl : l.isLoop) : l.operand.height < l.height := by
  cases l <;> first | decide | cases hl

theorem read_length (h : l.read ts = .ok (e, rest)) : rest.length < ts.length := by
  cases l <;> exact plain_length h

end Level

/-! ## Statements -/

theorem plain_parameter (ts : List Token) :
    plain (parameter ts) = plain (expectName .parameterName ts) >>= fun p =>
      match after .equals p.2 with
      | none => .ok (⟨p.1.1, none, p.1.2⟩, p.2)
      | some rest => plain (defaultValue rest) >>= fun q =>
          .ok (⟨p.1.1, some q.1.1, p.1.2.cover q.1.2⟩, q.2) := by
  rw [parameter]
  refine plain_bind _ _ _ fun r => ?_
  obtain ⟨⟨name, span⟩, rest, h⟩ := r
  dsimp only
  split
  · rw [after, if_pos rfl]
    exact plain_bind _ _ _ fun _ => rfl
  · rename_i hother
    have hnone : after .equals rest = none := by
      apply after_eq_none
      rintro span rest' rfl
      exact absurd HEq.rfl (hother span rest' h rfl)
    rw [hnone]
    rfl

theorem plain_parameterList (ts : List Token) :
    plain (parameterList ts) = plain (parameter ts) >>= fun p =>
      match after .comma (skipNewlines p.2) with
      | none => .ok ([p.1], skipNewlines p.2)
      | some rest => plain (parameterList (skipNewlines rest)) >>= fun q =>
        .ok (p.1 :: q.1, q.2) := by
  rw [parameterList]
  refine plain_bind _ _ _ fun r => ?_
  dsimp only
  split
  · rename_i rest hcomma
    have hafter : after .comma (skipNewlines r.rest) = some rest := by
      rw [hcomma, after, if_pos rfl]
    conv => rhs; rw [hafter]
    exact plain_bind _ _ _ fun _ => rfl
  · rename_i hother
    rw [after_eq_none hother]
    rfl

theorem plain_parameters (ts : List Token) :
    plain (parameters ts) = match after .closeParen ts with
      | some _ => .ok ([], ts)
      | none => plain (parameterList ts) := by
  cases h : after .closeParen ts with
  | some rest =>
    obtain ⟨_, rfl⟩ := after_eq_some h
    rfl
  | none =>
    rw [parameters]
    · exact plain_bind_same _ _ fun _ => rfl
    · rintro _ rest rfl
      cases h

theorem plain_definition (start : Span) (ts : List Token) :
    plain (definition start ts) =
      plain (expectName .functionName ts) >>= fun name =>
      plain (expect .openParen .openAfterFunctionName name.2) >>= fun p₁ =>
      plain (parameters (skipNewlines p₁.2)) >>= fun params =>
      plain (expect .closeParen .closeAfterParameters (skipNewlines params.2)) >>= fun p₂ =>
      plain (expect .arrow .arrowBeforeBody p₂.2) >>= fun p₃ =>
      plain (expr (skipNewlines p₃.2)) >>= fun body =>
      .ok (.define name.1.1 params.1 body.1 (start.cover body.1.span), body.2) := by
  rw [definition]
  refine plain_bind _ _ _ fun r₁ => ?_
  refine plain_bind _ _ _ fun r₂ => ?_
  refine plain_bind _ _ _ fun r₃ => ?_
  refine plain_bind _ _ _ fun r₄ => ?_
  refine plain_bind _ _ _ fun r₅ => ?_
  exact plain_bind _ _ _ fun _ => rfl

theorem plain_statement_define (span : Span) (ts : List Token) :
    plain (statement (⟨.keywordFn, span⟩ :: ts)) = plain (definition span ts) := by
  rw [statement]
  exact plain_bind_same _ _ fun _ => rfl

theorem plain_statement_other (h : after .keywordFn ts = none) :
    plain (statement ts) = match label? .equals ts with
      | some (name, span, rest) => plain (expr (skipNewlines rest)) >>= fun p =>
          .ok (.assign name p.1 (span.cover p.1.span), p.2)
      | none => plain (expr ts) >>= fun p => .ok (.expr p.1, p.2) := by
  cases hlabel : label? .equals ts with
  | some p =>
    obtain ⟨_, rfl⟩ := label?_eq_some hlabel
    exact plain_bind _ _ _ fun _ => rfl
  | none =>
    rw [statement]
    · exact plain_bind _ _ _ fun _ => rfl
    · rintro span rest rfl
      cases h
    · rintro name span _ rest rfl
      cases hlabel

/-! ## Turns -/

def finished (s : Statement) : List Token → Turn
  | [] => .complete s
  | next :: _ => if isSeparator next then .complete s else .trailing s next

theorem skipStatement_separator (h : isSeparator t) (ts : List Token) :
    skipStatement (t :: ts) = t :: ts := by
  simp [skipStatement, h]

theorem turns_done (h : ts.dropWhile isSeparator = []) : turns ts = [] := by
  rw [turns]
  split
  · rfl
  · rename_i hcons
    rw [h] at hcons
    cases hcons

theorem turns_read (h : ts.dropWhile isSeparator = t :: rest)
    (hs : plain (statement (t :: rest)) = .ok (s, rest')) :
    turns ts = finished s rest' :: turns (skipStatement rest') := by
  rw [turns]
  split
  · rename_i hnil
    rw [h] at hnil
    cases hnil
  · rename_i hcons
    rw [h] at hcons
    cases hcons
    -- By what was read: all tokens, some of them, or a fault, which is excluded.
    split
    · rename_i heq
      rw [heq] at hs
      cases hs
      rw [turns_done rfl]
      rfl
    · rename_i heq
      rw [heq] at hs
      cases hs
      split
      · rename_i hsep
        rw [skipStatement_separator hsep]
        simp [finished, hsep]
      · rename_i hsep
        simp [finished, hsep]
    · rename_i heq
      rw [heq] at hs
      cases hs

theorem turns_fault (h : ts.dropWhile isSeparator = t :: rest)
    (hs : plain (statement (t :: rest)) = .error fault) :
    turns ts = .abandoned fault :: turns (resume (t :: rest) fault.left) := by
  rw [turns]
  split
  · rename_i hnil
    rw [h] at hnil
    cases hnil
  · rename_i hcons
    rw [h] at hcons
    cases hcons
    split
    · rename_i heq
      rw [heq] at hs
      cases hs
    · rename_i heq
      rw [heq] at hs
      cases hs
    · rename_i heq
      rw [heq] at hs
      cases hs
      rfl

end SignalPatch.Grammar
