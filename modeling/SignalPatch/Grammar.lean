import SignalPatch.Expr
import SignalPatch.Issue

/-!
# From tokens to statements

    statement := 'fn' IDENT '(' [param (',' param)*] ')' '->' expr
               | IDENT '=' expr
               | expr
    expr      := sum (NEWLINE* '|>' sum)*
    sum       := product (('+' | '-') product)*
    product   := power (('*' | '/') power)*
    power     := unary ['^' power]
    unary     := '-' unary | primary
    primary   := NUMBER | STRING | 'true' | 'false' | '%'
               | IDENT ['(' [arg (',' arg)*] ')'] | '(' expr ')'
    arg       := [IDENT ':'] expr
    param     := IDENT ['=' ['-'] NUMBER]

Newlines are skipped after an operator, around what stands in parentheses and before a pipe. Each
reader takes a list of tokens and gives the rest of it, which is shorter; that ends the recursion.
The measures are numbers, not pairs, so that the readers compute in proofs too. A statement that
cannot be read is given up at the next separator.
-/

namespace SignalPatch.Grammar

inductive FaultReason where
  | unexpected
  | expected (what : Expectation)
  | nestedFunction
  deriving DecidableEq

/-- A statement that could not be read: the reason, the token at fault (none at the end of input),
how many tokens were left, and the expressions already read, in order. -/
structure Fault where
  reason : FaultReason
  found : Option Token
  left : Nat
  built : List Expr

def Fault.here (reason : FaultReason) (ts : List Token) : Fault := ⟨reason, ts.head?, ts.length, []⟩

/-- A value read, and the tokens after it: fewer than `bound`. -/
structure Read (α : Type) (bound : Nat) where
  value : α
  rest : List Token
  short : rest.length < bound

abbrev Reading (α : Type) (ts : List Token) := Except Fault (Read α ts.length)

/-- Readers that may take no token. -/
abbrev Continuing (α : Type) (ts : List Token) := Except Fault (Read α (ts.length + 1))

def keeping {α : Type} (before : List Expr) (x : Except Fault α) : Except Fault α :=
  x.mapError fun f => { f with built := before ++ f.built }

def skipNewlines (ts : List Token) : List Token := ts.dropWhile (·.kind == .newline)

theorem skipNewlines_length_le (ts : List Token) : (skipNewlines ts).length ≤ ts.length :=
  (List.dropWhile_sublist _).length_le

def expect (kind : TokenKind) (what : Expectation) (ts : List Token) : Reading Span ts :=
  match ts with
  | [] => .error (.here (.expected what) [])
  | t :: rest =>
    if t.kind = kind then .ok ⟨t.span, rest, by simp⟩
    else .error (.here (.expected what) (t :: rest))

def expectName (what : Expectation) (ts : List Token) : Reading (String × Span) ts :=
  match ts with
  | ⟨.ident name, span⟩ :: rest => .ok ⟨(name, span), rest, by simp⟩
  | ts => .error (.here (.expected what) ts)

def sumOp? : List Token → Option (BinaryOp × List Token)
  | ⟨.plus, _⟩ :: rest => some (.add, rest)
  | ⟨.minus, _⟩ :: rest => some (.sub, rest)
  | _ => none

def productOp? : List Token → Option (BinaryOp × List Token)
  | ⟨.star, _⟩ :: rest => some (.mul, rest)
  | ⟨.slash, _⟩ :: rest => some (.div, rest)
  | _ => none

theorem sumOp?_length {ts rest : List Token} {op : BinaryOp} (h : sumOp? ts = some (op, rest)) :
    rest.length < ts.length := by
  unfold sumOp? at h
  split at h <;> simp_all

theorem productOp?_length {ts rest : List Token} {op : BinaryOp}
    (h : productOp? ts = some (op, rest)) : rest.length < ts.length := by
  unfold productOp? at h
  split at h <;> simp_all

def pipe? (ts : List Token) : Option (List Token) :=
  match skipNewlines ts with
  | ⟨.pipe, _⟩ :: rest => some rest
  | _ => none

theorem pipe?_length {ts rest : List Token} (h : pipe? ts = some rest) :
    rest.length < ts.length := by
  have hs := skipNewlines_length_le ts
  unfold pipe? at h
  split at h
  · next heq =>
    cases h
    rw [heq] at hs
    exact hs
  · cases h

mutual

def expr (ts : List Token) : Reading Expr ts := do
  let ⟨first, rest, h⟩ ← sum ts
  let ⟨e, rest', h'⟩ ← pipes first rest
  return ⟨e, rest', by omega⟩
termination_by 9 * ts.length + 5

def pipes (source : Expr) (ts : List Token) : Continuing Expr ts :=
  match h : pipe? ts with
  | none => return ⟨source, ts, by omega⟩
  | some rest => do
    have h₀ := pipe?_length h
    have h₁ := skipNewlines_length_le rest
    let ⟨target, rest', h'⟩ ← keeping [source] (sum (skipNewlines rest))
    let ⟨e, rest'', h''⟩ ← pipes (.pipe source target (source.span.cover target.span)) rest'
    return ⟨e, rest'', by omega⟩
termination_by 9 * ts.length

def sum (ts : List Token) : Reading Expr ts := do
  let ⟨first, rest, h⟩ ← product ts
  let ⟨e, rest', h'⟩ ← sums first rest
  return ⟨e, rest', by omega⟩
termination_by 9 * ts.length + 4

def sums (lhs : Expr) (ts : List Token) : Continuing Expr ts :=
  match h : sumOp? ts with
  | none => return ⟨lhs, ts, by omega⟩
  | some (op, rest) => do
    have h₀ := sumOp?_length h
    have h₁ := skipNewlines_length_le rest
    let ⟨rhs, rest', h'⟩ ← keeping [lhs] (product (skipNewlines rest))
    let ⟨e, rest'', h''⟩ ← sums (.operation op lhs rhs) rest'
    return ⟨e, rest'', by omega⟩
termination_by 9 * ts.length

def product (ts : List Token) : Reading Expr ts := do
  let ⟨first, rest, h⟩ ← power ts
  let ⟨e, rest', h'⟩ ← products first rest
  return ⟨e, rest', by omega⟩
termination_by 9 * ts.length + 3

def products (lhs : Expr) (ts : List Token) : Continuing Expr ts :=
  match h : productOp? ts with
  | none => return ⟨lhs, ts, by omega⟩
  | some (op, rest) => do
    have h₀ := productOp?_length h
    have h₁ := skipNewlines_length_le rest
    let ⟨rhs, rest', h'⟩ ← keeping [lhs] (power (skipNewlines rest))
    let ⟨e, rest'', h''⟩ ← products (.operation op lhs rhs) rest'
    return ⟨e, rest'', by omega⟩
termination_by 9 * ts.length

def power (ts : List Token) : Reading Expr ts := do
  let ⟨base, rest, h⟩ ← unary ts
  match rest, h with
  | ⟨.caret, _⟩ :: rest, h => do
    have h₁ := skipNewlines_length_le rest
    have h₂ : rest.length < ts.length := by simp at h; omega
    let ⟨exponent, rest', h'⟩ ← keeping [base] (power (skipNewlines rest))
    return ⟨.operation .pow base exponent, rest', by omega⟩
  | rest, h => return ⟨base, rest, h⟩
termination_by 9 * ts.length + 2

/-- A sign is part of a numeral that follows it directly. -/
def unary (ts : List Token) : Reading Expr ts :=
  match ts with
  | ⟨.minus, sign⟩ :: ⟨.number value, span⟩ :: rest =>
    return ⟨.number (-value) (sign.cover span), rest, by simp only [List.length_cons]; omega⟩
  | ⟨.minus, sign⟩ :: rest => do
    let ⟨operand, rest', h⟩ ← unary rest
    return ⟨.negated sign operand, rest', by simp; omega⟩
  | ts => primary ts
termination_by 9 * ts.length + 1

def primary (ts : List Token) : Reading Expr ts :=
  match ts with
  | ⟨.number value, span⟩ :: rest => return ⟨.number value span, rest, by simp⟩
  | ⟨.text value, span⟩ :: rest => return ⟨.text value span, rest, by simp⟩
  | ⟨.keywordTrue, span⟩ :: rest => return ⟨.bool true span, rest, by simp⟩
  | ⟨.keywordFalse, span⟩ :: rest => return ⟨.bool false span, rest, by simp⟩
  | ⟨.hole, span⟩ :: rest => return ⟨.hole span, rest, by simp⟩
  | ⟨.ident callee, span⟩ :: ⟨.openParen, _⟩ :: rest => do
    have h₁ := skipNewlines_length_le rest
    let ⟨args, rest', h⟩ ← arguments (skipNewlines rest)
    have h₂ := skipNewlines_length_le rest'
    let ⟨close, rest'', h'⟩ ← keeping (args.map Arg.value)
      (expect .closeParen .closeAfterArguments (skipNewlines rest'))
    return ⟨.call callee args (span.cover close), rest'', by simp; omega⟩
  | ⟨.ident name, span⟩ :: rest => return ⟨.ident name span, rest, by simp⟩
  | ⟨.openParen, _⟩ :: rest => do
    have h₁ := skipNewlines_length_le rest
    let ⟨inner, rest', h⟩ ← expr (skipNewlines rest)
    have h₂ := skipNewlines_length_le rest'
    let ⟨_, rest'', h'⟩ ← keeping [inner] (expect .closeParen .closeParen (skipNewlines rest'))
    return ⟨inner, rest'', by simp; omega⟩
  | ⟨.keywordFn, span⟩ :: rest => throw (.here .nestedFunction (⟨.keywordFn, span⟩ :: rest))
  | ts => throw (.here .unexpected ts)
termination_by 9 * ts.length

/-- The arguments up to a closing parenthesis, which is left. -/
def arguments (ts : List Token) : Continuing (List (Arg Expr)) ts :=
  match ts with
  | ⟨.closeParen, span⟩ :: rest => return ⟨[], ⟨.closeParen, span⟩ :: rest, by simp⟩
  | ts => do
    let ⟨args, rest, h⟩ ← argumentList ts
    return ⟨args, rest, by omega⟩
termination_by 9 * ts.length + 8

def argumentList (ts : List Token) : Reading (List (Arg Expr)) ts := do
  let ⟨arg, rest, h⟩ ← argument ts
  have h₁ := skipNewlines_length_le rest
  match hc : skipNewlines rest with
  | ⟨.comma, _⟩ :: rest' => do
    have h₂ : rest'.length < ts.length := by simp [hc] at h₁; omega
    have h₃ := skipNewlines_length_le rest'
    let ⟨args, rest'', h''⟩ ← keeping [arg.value] (argumentList (skipNewlines rest'))
    return ⟨arg :: args, rest'', by omega⟩
  | rest' => return ⟨[arg], rest', by rw [hc] at h₁; omega⟩
termination_by 9 * ts.length + 7

def argument (ts : List Token) : Reading (Arg Expr) ts :=
  match ts with
  | ⟨.ident name, start⟩ :: ⟨.colon, _⟩ :: rest => do
    have h₁ := skipNewlines_length_le rest
    let ⟨value, rest', h⟩ ← expr (skipNewlines rest)
    return ⟨⟨some name, value, start.cover value.span⟩, rest', by simp; omega⟩
  | first :: rest => do
    let ⟨value, rest', h⟩ ← expr (first :: rest)
    return ⟨⟨none, value, first.span.cover value.span⟩, rest', h⟩
  | [] => throw (.here .unexpected [])
termination_by 9 * ts.length + 6

end

def defaultValue (ts : List Token) : Reading (Float × Span) ts :=
  match ts with
  | ⟨.number value, span⟩ :: rest => return ⟨(value, span), rest, by simp⟩
  | ⟨.minus, _⟩ :: ⟨.number value, span⟩ :: rest =>
    return ⟨(-value, span), rest, by simp only [List.length_cons]; omega⟩
  | ⟨.minus, _⟩ :: t :: rest => throw ⟨.expected .defaultValue, some t, rest.length, []⟩
  | ⟨.minus, _⟩ :: [] => throw (.here (.expected .defaultValue) [])
  | t :: rest => throw ⟨.expected .defaultValue, some t, rest.length, []⟩
  | [] => throw (.here (.expected .defaultValue) [])

def parameter (ts : List Token) : Reading Parameter ts := do
  let ⟨(name, span), rest, h⟩ ← expectName .parameterName ts
  match rest, h with
  | ⟨.equals, _⟩ :: rest, h => do
    let ⟨(value, stop), rest', h'⟩ ← defaultValue rest
    return ⟨⟨name, some value, span.cover stop⟩, rest', by simp at h; omega⟩
  | rest, h => return ⟨⟨name, none, span⟩, rest, h⟩

def parameterList (ts : List Token) : Reading (List Parameter) ts := do
  let ⟨param, rest, h⟩ ← parameter ts
  have h₁ := skipNewlines_length_le rest
  match hc : skipNewlines rest with
  | ⟨.comma, _⟩ :: rest' => do
    have h₂ : rest'.length < ts.length := by simp [hc] at h₁; omega
    have h₃ := skipNewlines_length_le rest'
    let ⟨params, rest'', h''⟩ ← parameterList (skipNewlines rest')
    return ⟨param :: params, rest'', by omega⟩
  | rest' => return ⟨[param], rest', by rw [hc] at h₁; omega⟩
termination_by ts.length

def parameters (ts : List Token) : Continuing (List Parameter) ts :=
  match ts with
  | ⟨.closeParen, span⟩ :: rest => return ⟨[], ⟨.closeParen, span⟩ :: rest, by simp⟩
  | ts => do
    let ⟨params, rest, h⟩ ← parameterList ts
    return ⟨params, rest, by omega⟩

def definition (start : Span) (ts : List Token) : Reading Statement ts := do
  let ⟨(name, _), r₁, h₁⟩ ← expectName .functionName ts
  let ⟨_, r₂, h₂⟩ ← expect .openParen .openAfterFunctionName r₁
  have := skipNewlines_length_le r₂
  let ⟨params, r₃, h₃⟩ ← parameters (skipNewlines r₂)
  have := skipNewlines_length_le r₃
  let ⟨_, r₄, h₄⟩ ← expect .closeParen .closeAfterParameters (skipNewlines r₃)
  let ⟨_, r₅, h₅⟩ ← expect .arrow .arrowBeforeBody r₄
  have := skipNewlines_length_le r₅
  let ⟨body, r₆, h₆⟩ ← expr (skipNewlines r₅)
  return ⟨.define name params body (start.cover body.span), r₆, by omega⟩

def statement (ts : List Token) : Reading Statement ts :=
  match ts with
  | ⟨.keywordFn, span⟩ :: rest => do
    let ⟨s, rest', h⟩ ← definition span rest
    return ⟨s, rest', by simp; omega⟩
  | ⟨.ident name, span⟩ :: ⟨.equals, _⟩ :: rest => do
    have := skipNewlines_length_le rest
    let ⟨value, rest', h⟩ ← expr (skipNewlines rest)
    return ⟨.assign name value (span.cover value.span), rest', by simp; omega⟩
  | ts => do
    let ⟨value, rest, h⟩ ← expr ts
    return ⟨.expr value, rest, h⟩

/-! ## Whole programs -/

def isSeparator (t : Token) : Bool := t.kind == .newline || t.kind == .semicolon

/-- What became of one statement: it was read, it was read but something stands between it and the
next separator, or it was given up. -/
inductive Turn where
  | complete (statement : Statement)
  | trailing (statement : Statement) (next : Token)
  | abandoned (fault : Fault)

def skipStatement (ts : List Token) : List Token := ts.dropWhile (!isSeparator ·)

theorem skipStatement_length_le (ts : List Token) : (skipStatement ts).length ≤ ts.length :=
  (List.dropWhile_sublist _).length_le

/-- Where reading goes on when `left` of the tokens `ts` were left. -/
def resume (ts : List Token) (left : Nat) : List Token := skipStatement (ts.drop (ts.length - left))

theorem resume_length_lt {t : Token} (ts : List Token) (left : Nat) (h : isSeparator t = false) :
    (resume (t :: ts) left).length < (t :: ts).length := by
  unfold resume
  have hd := skipStatement_length_le ((t :: ts).drop ((t :: ts).length - left))
  by_cases hl : (t :: ts).length - left = 0
  · have := skipStatement_length_le ts
    rw [hl, List.drop_zero, skipStatement, List.dropWhile_cons_of_pos (by simp [h])]
    exact Nat.lt_succ_of_le this
  · rw [List.length_drop] at hd
    omega

theorem head_dropWhile_separator {t : Token} {ts rest : List Token}
    (h : ts.dropWhile isSeparator = t :: rest) : isSeparator t = false := by
  have hn : ts.dropWhile isSeparator ≠ [] := by simp [h]
  have := List.head_dropWhile_not isSeparator hn
  simpa [h] using this

/-- The statements of a token list that does not reach past its end mark. -/
def turns (ts : List Token) : List Turn :=
  match h : ts.dropWhile isSeparator with
  | [] => []
  | t :: rest =>
    have ht := head_dropWhile_separator h
    have _hl : (t :: rest).length ≤ ts.length := h ▸ (List.dropWhile_sublist _).length_le
    match statement (t :: rest) with
    | .ok ⟨s, [], _⟩ => [.complete s]
    | .ok ⟨s, next :: after, _hs⟩ =>
      if isSeparator next then .complete s :: turns (next :: after)
      else
        have := skipStatement_length_le (next :: after)
        .trailing s next :: turns (skipStatement (next :: after))
    | .error fault =>
      have := resume_length_lt rest fault.left ht
      .abandoned fault :: turns (resume (t :: rest) fault.left)
termination_by ts.length
decreasing_by all_goals omega

end SignalPatch.Grammar
