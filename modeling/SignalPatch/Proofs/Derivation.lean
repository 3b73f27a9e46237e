import SignalPatch.Proofs.LikePatches

/-!
# Derivations

The grammar as rules: which kinds of tokens, on one line, derive which expression (`Derives`).
Operators of one level group to the left, powers to the right, and a sign binds closer than a power.
The readers take exactly what can be derived: what they read has a derivation (`Reads.derived`), and
what has a derivation is read, whatever comes after it that does not go on with it
(`Derives.reads`). So a derivation gives only one tree.
-/

namespace SignalPatch

/-- An expression without its places. -/
inductive Shape where
  | number (value : Float)
  | bool (value : Bool)
  | text (value : String)
  | ident (name : String)
  | hole
  | binary (op : BinaryOp) (lhs rhs : Shape)
  | call (callee : String) (args : List (Option String × Shape))
  | pipe (source target : Shape)

mutual

def Expr.shape : Expr → Shape
  | .number value _ => .number value
  | .bool value _ => .bool value
  | .text value _ => .text value
  | .ident name _ => .ident name
  | .hole _ => .hole
  | .binary op lhs rhs _ => .binary op lhs.shape rhs.shape
  | .call callee args _ => .call callee (argShapes args)
  | .pipe source target _ => .pipe source.shape target.shape

def argShapes : List (Arg Expr) → List (Option String × Shape)
  | [] => []
  | ⟨name, value, _⟩ :: args => (name, value.shape) :: argShapes args

end

def Parameter.shape (p : Parameter) : String × Option Float := (p.name, p.default)

inductive StatementShape where
  | define (name : String) (params : List (String × Option Float)) (body : Shape)
  | assign (name : String) (value : Shape)
  | expr (value : Shape)

def Statement.shape : Statement → StatementShape
  | .define name params body _ => .define name (params.map Parameter.shape) body.shape
  | .assign name value _ => .assign name value.shape
  | .expr value => .expr value.shape

def Statement.isDefinition : Statement → Bool
  | .define .. => true
  | _ => false

def Shape.negated (operand : Shape) : Shape := .call "neg" [(none, operand)]

namespace Grammar

/-! ## Rules -/

def label : Option String → List TokenKind
  | none => []
  | some name => [.ident name, .colon]

mutual

/-- The tokens derive the expression. -/
inductive Derives : Level → List TokenKind → Shape → Prop
  | sum : Derives .sum ks e → Derives .expr ks e
  | pipe : Derives .expr ks source → Derives .sum ks' target →
      Derives .expr (ks ++ .pipe :: ks') (.pipe source target)
  | product : Derives .product ks e → Derives .sum ks e
  | sumOp : sumOf? mark = some op → Derives .sum ks lhs → Derives .product ks' rhs →
      Derives .sum (ks ++ mark :: ks') (.binary op lhs rhs)
  | power : Derives .power ks e → Derives .product ks e
  | productOp : productOf? mark = some op → Derives .product ks lhs → Derives .power ks' rhs →
      Derives .product (ks ++ mark :: ks') (.binary op lhs rhs)
  | unary : Derives .unary ks e → Derives .power ks e
  | powerOp : Derives .unary ks base → Derives .power ks' exponent →
      Derives .power (ks ++ .caret :: ks') (.binary .pow base exponent)
  | primary : Derives .primary ks e → Derives .unary ks e
  | negative : Derives .unary [.minus, .number value] (.number (-value))
  | negated : Derives .unary ks e → (∀ value, ks ≠ [.number value]) →
      Derives .unary (.minus :: ks) e.negated
  | number : Derives .primary [.number value] (.number value)
  | text : Derives .primary [.text value] (.text value)
  | true : Derives .primary [.keywordTrue] (.bool true)
  | false : Derives .primary [.keywordFalse] (.bool false)
  | hole : Derives .primary [.hole] .hole
  | ident : Derives .primary [.ident name] (.ident name)
  | call₀ : Derives .primary [.ident callee, .openParen, .closeParen] (.call callee [])
  | call : DerivesArgs ks args →
      Derives .primary (.ident callee :: .openParen :: (ks ++ [.closeParen])) (.call callee args)
  | paren : Derives .expr ks e → Derives .primary (.openParen :: (ks ++ [.closeParen])) e

inductive DerivesArgs : List TokenKind → List (Option String × Shape) → Prop
  | one : Derives .expr ks e → DerivesArgs (label name ++ ks) [(name, e)]
  | cons : Derives .expr ks e → DerivesArgs ks' args →
      DerivesArgs (label name ++ ks ++ .comma :: ks') ((name, e) :: args)

end

inductive DerivesParam : List TokenKind → String × Option Float → Prop
  | bare : DerivesParam [.ident name] (name, none)
  | default : DerivesParam [.ident name, .equals, .number value] (name, some value)
  | negative : DerivesParam [.ident name, .equals, .minus, .number value] (name, some (-value))

inductive DerivesParams : List TokenKind → List (String × Option Float) → Prop
  | one : DerivesParam ks p → DerivesParams ks [p]
  | cons : DerivesParam ks p → DerivesParams ks' ps → DerivesParams (ks ++ .comma :: ks') (p :: ps)

inductive DerivesStatement : List TokenKind → StatementShape → Prop
  | define₀ : Derives .expr ks body →
      DerivesStatement (.keywordFn :: .ident name :: .openParen :: .closeParen :: .arrow :: ks)
        (.define name [] body)
  | define : DerivesParams ks params → Derives .expr ks' body →
      DerivesStatement
        (.keywordFn :: .ident name :: .openParen :: (ks ++ .closeParen :: .arrow :: ks'))
        (.define name params body)
  | assign : Derives .expr ks value →
      DerivesStatement (.ident name :: .equals :: ks) (.assign name value)
  | expr : Derives .expr ks value → DerivesStatement ks (.expr value)

/-! ## Tokens of a derivation -/

def startsUnary (k : TokenKind) : Bool := k = .minus || startsPrimary k

/-- An expression has a first token, which is one that starts an expression, and a name that comes
first is no label. -/
structure Starts (ks : List TokenKind) : Prop where
  first : ∃ k ∈ ks.head?, startsUnary k
  unlabelled : ks = .ident name :: mark :: rest → mark ≠ .colon ∧ mark ≠ .equals

theorem Starts.append (h : Starts ks) (hmark : mark ≠ .colon ∧ mark ≠ .equals)
    (ks' : List TokenKind) :
    Starts (ks ++ mark :: ks') := by
  obtain ⟨k, hk, hstart⟩ := h.first
  cases ks with
  | nil => cases hk
  | cons k' ks =>
    refine ⟨⟨k, hk, hstart⟩, ?_⟩
    intro name mark' rest heq
    cases ks with
    | nil =>
      cases heq
      exact hmark
    | cons k'' ks =>
      cases heq
      exact h.unlabelled rfl

theorem Starts.one (h : startsUnary k) : Starts [k] := ⟨⟨k, rfl, h⟩, nofun⟩

theorem Derives.starts : Derives l ks e → Starts ks
  | .sum h | .product h | .power h | .unary h | .primary h => h.starts
  | .pipe h _ => h.starts.append (by simp) _
  | .powerOp h _ => h.starts.append (by simp) _
  | .sumOp hop h _ => h.starts.append (by constructor <;> rintro rfl <;> cases hop) _
  | .productOp hop h _ => h.starts.append (by constructor <;> rintro rfl <;> cases hop) _
  | .negative | .negated _ _ => ⟨⟨_, rfl, rfl⟩, nofun⟩
  | .number | .text | .true | .false | .hole | .ident => .one rfl
  | .call₀ => ⟨⟨_, rfl, rfl⟩, by rintro _ _ _ ⟨⟩; simp⟩
  | .call _ => ⟨⟨_, rfl, rfl⟩, by rintro _ _ _ ⟨⟩; simp⟩
  | .paren _ => ⟨⟨_, rfl, rfl⟩, nofun⟩

theorem Derives.starts_primary (h : Derives .primary ks e) : ∃ k ∈ ks.head?, startsPrimary k := by
  cases h <;> exact ⟨_, rfl, rfl⟩

theorem DerivesArgs.starts (h : DerivesArgs ks args) : ∃ k ∈ ks.head?, startsUnary k := by
  cases h with
  | @one ks _ name h | @cons ks _ _ _ name h _ =>
    obtain ⟨k, hk, hstart⟩ := h.starts.first
    cases name with
    | some name => exact ⟨_, rfl, rfl⟩
    | none =>
      cases ks with
      | nil => cases hk
      | cons => exact ⟨k, hk, hstart⟩

theorem Derives.of_number (h : Derives .unary (.number value :: ks) e) : ks = [] := by
  cases h with
  | primary h =>
    cases h
    rfl

/-! ## What is derived is read -/

namespace Level

/-- The token may stand behind an expression of the level. -/
def mayFollow : Level → TokenKind → Bool
  | _, .closeParen | _, .comma | _, .semicolon => true
  | .expr, _ => false
  | _, .pipe => true
  | .sum, _ => false
  | _, .plus | _, .minus => true
  | .product, _ => false
  | _, .star | _, .slash => true
  | .power, _ => false
  | _, .caret => true
  | _, _ => false

theorem mayFollow_mark? {l : Level} (h : l.mark? k = some op) : l.operand.mayFollow k := by
  cases l <;> cases k <;> first | rfl | cases h

theorem mayFollow_operand (l : Level) (h : l.mayFollow k) : l.operand.mayFollow k := by
  cases l <;> cases k <;> first | rfl | cases h

end Level

def Ends (l : Level) (ts : List Token) : Prop := ∀ t ∈ ts.head?, l.mayFollow t.kind

theorem Ends.cons (h : l.mayFollow t.kind) (ts : List Token) : Ends l (t :: ts) := by
  rintro _ ⟨⟩
  exact h

theorem Ends.imp (h : Ends l ts) (hl : ∀ k, l.mayFollow k → l'.mayFollow k) : Ends l' ts :=
  fun t ht => hl _ (h t ht)

theorem Ends.operand (h : Ends l ts) : Ends l.operand ts := h.imp fun _ => l.mayFollow_operand

theorem Ends.after (h : Ends l ts) (hmark : l.mayFollow mark = false) : after mark ts = none := by
  cases ts with
  | nil => rfl
  | cons t ts =>
    refine if_neg ?_
    rintro rfl
    have := h t rfl
    rw [hmark] at this
    cases this

theorem skipNewlines_eq (h : ∀ t ∈ ts.head?, t.kind ≠ .newline) : skipNewlines ts = ts := by
  cases ts with
  | nil => rfl
  | cons t ts => exact List.dropWhile_cons_of_neg (by simpa using h t rfl)

theorem Ends.skip (h : Ends l ts) : skipNewlines ts = ts := by
  refine skipNewlines_eq fun t ht hkind => ?_
  have := h t ht
  rw [hkind] at this
  cases l <;> cases this

theorem Ends.firstOp (h : Ends l ts) (hop : ∀ k, l.mayFollow k → op? k = none) :
    firstOp op? ts = none := by
  cases ts with
  | nil => rfl
  | cons t ts => rw [Grammar.firstOp, hop _ (h t rfl)]; rfl

theorem Ends.continued (h : Ends l ts) (e : Expr) : l.continued e ts = .ok (e, ts) := by
  refine Level.continued_none ?_ e
  cases l with
  | expr => rw [Level.next?, pipe?_eq, h.skip, h.after rfl, Option.map_none]
  | sum | product =>
    rw [Level.next?, h.firstOp fun k hk => by cases k <;> (first | rfl | cases hk)]
    rfl
  | power | unary | primary => rfl

/-- The tokens in front of `rest` are read as an expression of this shape, and then more
operands. -/
def Level.Takes (l : Level) (ts rest : List Token) (e : Shape) : Prop :=
  ∃ e', e'.shape = e ∧ l.read (ts ++ rest) = l.continued e' rest

theorem Level.Takes.all (h : Level.Takes l ts rest e) (hrest : Ends l rest) :
    ∃ e', e'.shape = e ∧ l.read (ts ++ rest) = .ok (e', rest) := by
  obtain ⟨e', he, hread⟩ := h
  exact ⟨e', he, hread.trans (hrest.continued e')⟩

theorem skipNewlines_starts (h : ∃ k ∈ (ts.map Token.kind).head?, startsUnary k)
    (rest : List Token) :
    skipNewlines (ts ++ rest) = ts ++ rest := by
  obtain ⟨k, hk, hstart⟩ := h
  cases ts with
  | nil => cases hk
  | cons t ts =>
    cases hk
    refine skipNewlines_eq ?_
    rintro _ ⟨⟩ hkind
    rw [hkind] at hstart
    cases hstart

theorem Derives.skip (h : Derives l (ts.map Token.kind) e) (rest : List Token) :
    skipNewlines (ts ++ rest) = ts ++ rest :=
  skipNewlines_starts h.starts.first rest

theorem label?_derives (h : Derives l (ts.map Token.kind) e)
    (hmark : mark = .colon ∨ mark = .equals) (hrest : after mark rest = none) :
    label? mark (ts ++ rest) = none := by
  have hstarts := h.starts
  cases hlabel : label? mark (ts ++ rest) with
  | none => rfl
  | some p =>
    obtain ⟨at_, heq⟩ := label?_eq_some hlabel
    match ts, heq with
    | [], _ => obtain ⟨_, ⟨⟩, _⟩ := hstarts.first
    | [_], heq =>
      rw [List.singleton_append, List.cons.injEq] at heq
      rw [heq.2, after, if_pos rfl] at hrest
      cases hrest
    | t :: t' :: ts, heq =>
      simp only [List.cons_append, List.cons.injEq] at heq
      obtain ⟨rfl, rfl, _⟩ := heq
      have := hstarts.unlabelled rfl
      rcases hmark with rfl | rfl <;> simp at this

theorem first_kind (h : ts.map Token.kind = k :: ks) :
    ∃ span ts', ts = ⟨k, span⟩ :: ts' ∧ ts'.map Token.kind = ks := by
  obtain ⟨⟨_, span⟩, ts', rfl, rfl, h'⟩ := List.map_eq_cons_iff.mp h
  exact ⟨span, ts', rfl, h'⟩

theorem only_kind (h : ts.map Token.kind = [k]) : ∃ span, ts = [⟨k, span⟩] := by
  obtain ⟨span, ts', rfl, h'⟩ := first_kind h
  exact ⟨span, by rw [List.map_eq_nil_iff.mp h']⟩

theorem after_derives (h : Derives l (ts.map Token.kind) e) (rest : List Token) :
    after .keywordFn (ts ++ rest) = none := by
  obtain ⟨k, hk, hstart⟩ := h.starts.first
  cases ts with
  | nil => cases hk
  | cons t ts =>
    cases hk
    refine if_neg fun hfn => ?_
    rw [hfn] at hstart
    cases hstart

theorem split_kinds (h : ts.map Token.kind = ks ++ mark :: ks') :
    ∃ ts₁ span ts₂, ts = ts₁ ++ ⟨mark, span⟩ :: ts₂ ∧ ts₁.map Token.kind = ks ∧
      ts₂.map Token.kind = ks' := by
  obtain ⟨ts₁, tail, rfl, h₁, htail⟩ := List.map_eq_append_iff.mp h
  obtain ⟨span, ts₂, rfl, h₂⟩ := first_kind htail
  exact ⟨ts₁, span, ts₂, rfl, h₁, h₂⟩

theorem Level.Takes.first {l : Level} (hl : l.isLoop) (h : l.operand.Takes ts rest e)
    (hrest : Ends l.operand rest) :
    l.Takes ts rest e := by
  obtain ⟨e', he, hok⟩ := h.all hrest
  refine ⟨e', he, ?_⟩
  rw [Level.read_loop hl, hok]
  rfl

theorem Level.Takes.more {l : Level} (hmark : l.mark? mark.kind = some op)
    (h : ∀ rest, Ends l.operand rest → l.Takes ts rest lhs) (h' : l.operand.Takes ts' rest rhs)
    (hskip : skipNewlines (ts' ++ rest) = ts' ++ rest) (hrest : Ends l.operand rest)
    (hshape : ∀ a b : Expr, a.shape = lhs → b.shape = rhs → (op.join a b).shape = e) :
    l.Takes (ts ++ mark :: ts') rest e := by
  obtain ⟨a, ha, hread⟩ := h (mark :: (ts' ++ rest)) (.cons (mayFollow_mark? hmark) _)
  obtain ⟨b, hb, hok⟩ := h'.all hrest
  refine ⟨op.join a b, hshape a b ha hb, ?_⟩
  rw [List.append_assoc, List.cons_append, hread,
    Level.continued_some (Level.next?_mark hmark mark.span _), hskip, hok]
  rfl

theorem read_power_end {base : Expr} (h : Level.read .unary ts = .ok (base, rest))
    (hrest : after .caret rest = none) : Level.read .power ts = .ok (base, rest) := by
  rw [Level.read, plain_power]
  change Level.read .unary ts >>= _ = _
  rw [h]
  dsimp only [bind, Except.bind]
  rw [hrest]

theorem read_power_caret {base exponent : Expr}
    (h : Level.read .unary ts = .ok (base, ⟨.caret, span⟩ :: rest))
    (hrest : Level.read .power (skipNewlines rest) = .ok (exponent, rest')) :
    Level.read .power ts = .ok (.operation .pow base exponent, rest') := by
  rw [Level.read, plain_power]
  change Level.read .unary ts >>= _ = _
  rw [h]
  change keeping [base] (Level.read .power (skipNewlines rest)) >>= _ = _
  rw [hrest]
  rfl

theorem read_unary_primary (h : Derives .primary (ts.map Token.kind) e) (rest : List Token) :
    Level.read .unary (ts ++ rest) = Level.read .primary (ts ++ rest) := by
  refine plain_unary_other ?_
  obtain ⟨k, hk, hstart⟩ := h.starts_primary
  cases ts with
  | nil => cases hk
  | cons t ts =>
    cases hk
    refine if_neg fun hminus => ?_
    rw [hminus] at hstart
    cases hstart

theorem read_unary_negated (h : Level.read .unary ts = .ok (e, rest)) (hnumber : numeral? ts = none)
    (sign : Span) : Level.read .unary (⟨.minus, sign⟩ :: ts) = .ok (.negated sign e, rest) := by
  rw [Level.read, plain_unary_minus, hnumber]
  change Level.read .unary ts >>= _ = _
  rw [h]
  rfl

theorem numeral?_derives (h : Derives .unary (ts.map Token.kind) e)
    (hnumber : ∀ value, ts.map Token.kind ≠ [.number value]) (rest : List Token) :
    numeral? (ts ++ rest) = none := by
  cases hnumeral : numeral? (ts ++ rest) with
  | none => rfl
  | some p =>
    obtain ⟨value, span, rest'⟩ := p
    have heq := numeral?_eq_some hnumeral
    cases ts with
    | nil => obtain ⟨_, ⟨⟩, _⟩ := h.starts.first
    | cons t ts =>
      obtain ⟨rfl, -⟩ := List.cons.inj heq
      exact absurd (congrArg (_ :: ·) h.of_number) (hnumber value)

theorem expect_token (kind : TokenKind) (what : Expectation) (span : Span) (ts : List Token) :
    plain (expect kind what (⟨kind, span⟩ :: ts)) = .ok (span, ts) := by
  rw [expect, if_pos rfl]
  rfl

theorem expect_close (what : Expectation) (close : Span) (ts : List Token) :
    plain (expect .closeParen what (skipNewlines (⟨.closeParen, close⟩ :: ts))) =
      .ok (close, ts) := by
  have hskip : skipNewlines (⟨.closeParen, close⟩ :: ts) = ⟨.closeParen, close⟩ :: ts := rfl
  rw [hskip, expect_token]

theorem read_paren (h : Level.read .expr (skipNewlines ts) = .ok (e, ⟨.closeParen, close⟩ :: rest))
    (open_ : Span) : Level.read .primary (⟨.openParen, open_⟩ :: ts) = .ok (e, rest) := by
  rw [Level.read, plain_primary_paren]
  change Level.read .expr (skipNewlines ts) >>= _ = _
  rw [h]
  dsimp only [bind, Except.bind]
  rw [expect_close]
  rfl

theorem read_call
    (h : plain (arguments (skipNewlines ts)) = .ok (args, ⟨.closeParen, close⟩ :: rest))
    (callee : String) (span open_ : Span) :
    Level.read .primary (⟨.ident callee, span⟩ :: ⟨.openParen, open_⟩ :: ts) =
      .ok (.call callee args (span.cover close), rest) := by
  rw [Level.read, plain_primary_ident, after, if_pos rfl]
  dsimp only
  rw [h]
  dsimp only [bind, Except.bind]
  rw [expect_close]
  rfl

theorem arguments_derives (h : DerivesArgs (ts.map Token.kind) args) (rest : List Token) :
    plain (arguments (skipNewlines (ts ++ rest))) = plain (argumentList (ts ++ rest)) := by
  rw [skipNewlines_starts h.starts, plain_arguments]
  obtain ⟨k, hk, hstart⟩ := h.starts
  cases ts with
  | nil => cases hk
  | cons t ts =>
    cases hk
    have hclose : t.kind ≠ .closeParen := by
      intro hclose
      rw [hclose] at hstart
      cases hstart
    rw [List.cons_append, after, if_neg hclose]

theorem argument_derives (h : Derives .expr (ts.map Token.kind) e)
    (hread : Level.read .expr (ts ++ rest) = .ok (value, rest))
    (hlabel : ls.map Token.kind = label name) (hrest : after .colon rest = none) :
    ∃ span, plain (argument (ls ++ ts ++ rest)) = .ok (⟨name, value, span⟩, rest) := by
  cases name with
  | none =>
    obtain rfl := List.map_eq_nil_iff.mp hlabel
    -- An expression does not start with a name and a colon.
    have hnone := label?_derives h (.inl rfl) hrest
    cases ts with
    | nil => obtain ⟨_, ⟨⟩, _⟩ := h.starts.first
    | cons t ts =>
      refine ⟨t.span.cover value.span, ?_⟩
      rw [List.nil_append, List.cons_append, plain_argument_cons, ← List.cons_append, hnone]
      change Level.read .expr _ >>= _ = _
      rw [hread]
      rfl
  | some name =>
    obtain ⟨start, tail, rfl, htail⟩ := first_kind hlabel
    obtain ⟨at_, rfl⟩ := only_kind htail
    refine ⟨start.cover value.span, ?_⟩
    have hsome : label? .colon (⟨.ident name, start⟩ :: ⟨.colon, at_⟩ :: (ts ++ rest)) =
        some (name, start, ts ++ rest) := rfl
    rw [List.append_assoc, List.cons_append, List.singleton_append, plain_argument_cons, hsome]
    dsimp only
    rw [h.skip rest]
    change Level.read .expr _ >>= _ = _
    rw [hread]
    rfl

theorem argumentList_last (h : plain (argument ts) = .ok (arg, ⟨.closeParen, close⟩ :: rest)) :
    plain (argumentList ts) = .ok ([arg], ⟨.closeParen, close⟩ :: rest) := by
  rw [plain_argumentList, h]
  rfl

theorem argumentList_comma (h : plain (argument ts) = .ok (arg, ⟨.comma, comma⟩ :: ts'))
    (h' : plain (argumentList (skipNewlines ts')) = .ok (args, rest)) :
    plain (argumentList ts) = .ok (arg :: args, rest) := by
  rw [plain_argumentList, h]
  change keeping _ (plain (argumentList (skipNewlines ts'))) >>= _ = _
  rw [h']
  rfl

mutual

/-- What can be derived is read, if what comes next does not go on with it. -/
theorem Derives.reads :
    Derives l ks e → ∀ {ts}, ts.map Token.kind = ks → ∀ rest, Ends l.operand rest →
    l.Takes ts rest e
  | .sum h, _, hts, _, hrest | .product h, _, hts, _, hrest | .power h, _, hts, _, hrest =>
    .first rfl (h.reads hts _ hrest.operand) hrest
  | .pipe h h', _, hts, rest, hrest => by
    obtain ⟨ts₁, span, ts₂, rfl, h₁, h₂⟩ := split_kinds hts
    refine .more Level.mark?_pipe (h.reads h₁) (h'.reads h₂ _ hrest.operand)
      ((h₂ ▸ h').skip rest) hrest fun a b ha hb => ?_
    rw [Operator.join, Expr.shape, ha, hb]
  | .sumOp hop h h', _, hts, rest, hrest => by
    obtain ⟨ts₁, span, ts₂, rfl, h₁, h₂⟩ := split_kinds hts
    refine .more (Level.mark?_sum hop) (h.reads h₁) (h'.reads h₂ _ hrest.operand)
      ((h₂ ▸ h').skip rest) hrest fun a b ha hb => ?_
    rw [Operator.join, Expr.operation, Expr.shape, ha, hb]
  | .productOp hop h h', _, hts, rest, hrest => by
    obtain ⟨ts₁, span, ts₂, rfl, h₁, h₂⟩ := split_kinds hts
    refine .more (Level.mark?_product hop) (h.reads h₁) (h'.reads h₂ _ hrest.operand)
      ((h₂ ▸ h').skip rest) hrest fun a b ha hb => ?_
    rw [Operator.join, Expr.operation, Expr.shape, ha, hb]
  | .unary h, _, hts, _, hrest => by
    -- what may follow a power may follow its base
    obtain ⟨base, hbase, hread⟩ :=
      h.reads hts _ (hrest.imp fun k hk => by cases k <;> first | rfl | cases hk)
    exact ⟨base, hbase, read_power_end hread (hrest.after rfl)⟩
  | .powerOp h h', _, hts, rest, hrest => by
    obtain ⟨ts₁, span, ts₂, rfl, h₁, h₂⟩ := split_kinds hts
    obtain ⟨base, hbase, hread⟩ := h.reads h₁ (⟨.caret, span⟩ :: (ts₂ ++ rest)) (.cons rfl _)
    obtain ⟨exponent, hexponent, hread'⟩ := h'.reads h₂ _ hrest
    refine ⟨.operation .pow base exponent, ?_, ?_⟩
    · rw [Expr.operation, Expr.shape, hbase, hexponent]
    · have hskip := (h₂ ▸ h').skip rest
      rw [List.append_assoc, List.cons_append]
      exact read_power_caret hread (hskip.symm ▸ hread')
  | .primary h, _, hts, rest, hrest => by
    obtain ⟨e', he, hread⟩ :=
      h.reads hts _ (hrest.imp fun k hk => by cases k <;> first | rfl | cases hk)
    exact ⟨e', he, (read_unary_primary (hts ▸ h) rest).trans hread⟩
  | .negative, _, hts, rest, _ => by
    obtain ⟨sign, tail, rfl, htail⟩ := first_kind hts
    obtain ⟨span, rfl⟩ := only_kind htail
    exact ⟨_, rfl, plain_unary_minus sign _⟩
  | .negated h hnumber, _, hts, rest, hrest => by
    obtain ⟨sign, ts, rfl, hoperand⟩ := first_kind hts
    obtain ⟨e', he, hread⟩ := h.reads hoperand _ hrest
    subst hoperand
    refine ⟨.negated sign e', ?_, read_unary_negated hread (numeral?_derives h hnumber rest) sign⟩
    rw [Expr.negated, Expr.shape, argShapes, argShapes, he]
    rfl
  | .number, _, hts, rest, _ | .text, _, hts, rest, _
  | .true, _, hts, rest, _ | .false, _, hts, rest, _
  | .hole, _, hts, rest, _ => by
    obtain ⟨span, rfl⟩ := only_kind hts
    exact ⟨_, rfl, plain_primary_literal rfl rest⟩
  | .ident, _, hts, rest, hrest => by
    obtain ⟨span, rfl⟩ := only_kind hts
    refine ⟨.ident _ span, rfl, ?_⟩
    rw [Level.read, List.singleton_append, plain_primary_ident, hrest.after rfl]
    rfl
  | .call₀, _, hts, rest, _ => by
    obtain ⟨span, tail, rfl, htail⟩ := first_kind hts
    obtain ⟨open_, tail', rfl, htail'⟩ := first_kind htail
    obtain ⟨close, rfl⟩ := only_kind htail'
    exact ⟨.call _ [] (span.cover close), rfl, read_call (plain_arguments _) _ span open_⟩
  | .call h, _, hts, rest, _ => by
    obtain ⟨span, tail, rfl, htail⟩ := first_kind hts
    obtain ⟨open_, tail', rfl, htail'⟩ := first_kind htail
    obtain ⟨ts, close, _, rfl, hargs, hnil⟩ := split_kinds htail'
    obtain rfl := List.map_eq_nil_iff.mp hnil
    obtain ⟨args', hshapes, hread⟩ := h.reads hargs close rest
    subst hargs
    refine ⟨.call _ args' (span.cover close), by rw [Expr.shape, hshapes], ?_⟩
    rw [List.cons_append, List.cons_append, List.append_assoc, List.singleton_append]
    exact read_call ((arguments_derives h _).trans hread) _ span open_
  | .paren h, _, hts, rest, _ => by
    obtain ⟨open_, tail, rfl, htail⟩ := first_kind hts
    obtain ⟨ts, close, _, rfl, hinner, hnil⟩ := split_kinds htail
    obtain rfl := List.map_eq_nil_iff.mp hnil
    obtain ⟨e', he, hread⟩ := (h.reads hinner (⟨.closeParen, close⟩ :: rest) (.cons rfl _)).all
      (.cons rfl _)
    subst hinner
    refine ⟨e', he, ?_⟩
    rw [List.cons_append, List.append_assoc, List.singleton_append]
    exact read_paren ((congrArg _ (h.skip _)).trans hread) open_

theorem DerivesArgs.reads : DerivesArgs ks args → ∀ {ts}, ts.map Token.kind = ks →
    ∀ (close : Span) (rest : List Token), ∃ args', argShapes args' = args ∧
      plain (argumentList (ts ++ ⟨.closeParen, close⟩ :: rest)) =
        .ok (args', ⟨.closeParen, close⟩ :: rest)
  | .one h, _, hts, close, rest => by
    obtain ⟨ls, ts, rfl, hlabel, hvalue⟩ := List.map_eq_append_iff.mp hts
    obtain ⟨value, he, hread⟩ := (h.reads hvalue (⟨.closeParen, close⟩ :: rest) (.cons rfl _)).all
      (.cons rfl _)
    subst hvalue
    obtain ⟨span, harg⟩ := argument_derives h hread hlabel rfl
    exact ⟨_, by rw [argShapes, he, argShapes], argumentList_last harg⟩
  | .cons h h', _, hts, close, rest => by
    obtain ⟨front, comma, ts', rfl, hfront, hmore⟩ := split_kinds hts
    obtain ⟨ls, ts, rfl, hlabel, hvalue⟩ := List.map_eq_append_iff.mp hfront
    obtain ⟨args', hargs, hread'⟩ := h'.reads hmore close rest
    obtain ⟨value, he, hread⟩ := (h.reads hvalue
      (⟨.comma, comma⟩ :: (ts' ++ ⟨.closeParen, close⟩ :: rest)) (.cons rfl _)).all (.cons rfl _)
    subst hvalue hmore
    obtain ⟨span, harg⟩ := argument_derives h hread hlabel rfl
    refine ⟨⟨_, value, span⟩ :: args', by rw [argShapes, he, hargs], ?_⟩
    rw [List.append_assoc, List.cons_append]
    refine argumentList_comma harg ?_
    rw [skipNewlines_starts h'.starts]
    exact hread'

end

/-! ## Statements -/

theorem DerivesParam.reads (h : DerivesParam ks p) {ts : List Token} (hts : ts.map Token.kind = ks)
    (rest : List Token) (hrest : after .equals rest = none) :
    ∃ p', p'.shape = p ∧ plain (parameter (ts ++ rest)) = .ok (p', rest) := by
  cases h with
  | @bare name =>
    obtain ⟨span, rfl⟩ := only_kind hts
    refine ⟨⟨name, none, span⟩, rfl, ?_⟩
    have hname : plain (expectName .parameterName (⟨.ident name, span⟩ :: rest)) =
        .ok ((name, span), rest) :=
      rfl
    rw [List.singleton_append, plain_parameter, hname]
    dsimp only [bind, Except.bind]
    rw [hrest]
  | @default name value =>
    obtain ⟨span, tail, rfl, htail⟩ := first_kind hts
    obtain ⟨at_, tail', rfl, htail'⟩ := first_kind htail
    obtain ⟨stop, rfl⟩ := only_kind htail'
    exact ⟨⟨name, some value, span.cover stop⟩, rfl, plain_parameter _⟩
  | @negative name value =>
    obtain ⟨span, tail, rfl, htail⟩ := first_kind hts
    obtain ⟨at_, tail', rfl, htail'⟩ := first_kind htail
    obtain ⟨sign, tail'', rfl, htail''⟩ := first_kind htail'
    obtain ⟨stop, rfl⟩ := only_kind htail''
    exact ⟨⟨name, some (-value), span.cover stop⟩, rfl, plain_parameter _⟩

theorem DerivesParam.starts (h : DerivesParam ks p) : ∃ name, ks.head? = some (.ident name) := by
  cases h <;> exact ⟨_, rfl⟩

theorem DerivesParams.starts (h : DerivesParams ks ps) : ∃ name, ks.head? = some (.ident name) := by
  cases h with
  | one h => exact h.starts
  | cons h _ =>
    obtain ⟨name, hname⟩ := h.starts
    exact ⟨name, by rw [List.head?_append, hname]; rfl⟩

theorem DerivesParams.skip (h : DerivesParams (ts.map Token.kind) ps) (rest : List Token) :
    skipNewlines (ts ++ rest) = ts ++ rest := by
  obtain ⟨name, hname⟩ := h.starts
  exact skipNewlines_starts ⟨_, hname, rfl⟩ rest

theorem parameters_derives (h : DerivesParams (ts.map Token.kind) ps) (rest : List Token) :
    plain (parameters (skipNewlines (ts ++ rest))) = plain (parameterList (ts ++ rest)) := by
  rw [h.skip, plain_parameters]
  obtain ⟨name, hname⟩ := h.starts
  match ts, hname with
  | ⟨.ident name, span⟩ :: ts, rfl => rfl

theorem DerivesParams.reads (h : DerivesParams ks ps) (close : Span) (rest : List Token) :
    ∀ {ts}, ts.map Token.kind = ks → ∃ ps', ps'.map Parameter.shape = ps ∧
      plain (parameterList (ts ++ ⟨.closeParen, close⟩ :: rest)) =
        .ok (ps', ⟨.closeParen, close⟩ :: rest) := by
  induction h with
  | one h =>
    intro ts hts
    obtain ⟨p', hp, hread⟩ := h.reads hts (⟨.closeParen, close⟩ :: rest) rfl
    refine ⟨[p'], by rw [List.map_singleton, hp], ?_⟩
    rw [plain_parameterList, hread]
    rfl
  | cons h h' ih =>
    intro ts hts
    obtain ⟨ts, comma, ts', rfl, hparam, hmore⟩ := split_kinds hts
    obtain ⟨ps', hps, hread'⟩ := ih hmore
    obtain ⟨p', hp, hread⟩ := h.reads hparam
      (⟨.comma, comma⟩ :: (ts' ++ ⟨.closeParen, close⟩ :: rest)) rfl
    subst hmore
    refine ⟨p' :: ps', by rw [List.map_cons, hp, hps], ?_⟩
    rw [List.append_assoc, List.cons_append, plain_parameterList, hread]
    change plain (parameterList (skipNewlines _)) >>= _ = _
    rw [h'.skip, hread']
    rfl

theorem read_define
    (hparams : plain (parameters (skipNewlines ts)) =
      .ok (ps, ⟨.closeParen, close⟩ :: ⟨.arrow, arrow⟩ :: ts'))
    (hbody : Level.read .expr (skipNewlines ts') = .ok (body, rest)) (name : String)
    (start span open_ : Span) :
    plain (statement (⟨.keywordFn, start⟩ :: ⟨.ident name, span⟩ :: ⟨.openParen, open_⟩ :: ts)) =
      .ok (.define name ps body (start.cover body.span), rest) := by
  rw [plain_statement_define, plain_definition]
  change plain (parameters (skipNewlines ts)) >>= _ = _
  rw [hparams]
  dsimp only [bind, Except.bind]
  rw [expect_close]
  dsimp only
  rw [expect_token]
  change Level.read .expr (skipNewlines ts') >>= _ = _
  rw [hbody]
  rfl

theorem DerivesStatement.reads (h : DerivesStatement ks s) (hts : ts.map Token.kind = ks)
    (hrest : Ends .expr rest) :
    ∃ s', s'.shape = s ∧ plain (statement (ts ++ rest)) = .ok (s', rest) := by
  cases h with
  | define₀ h =>
    -- The kinds before the body are one token each, and the body ends where `rest` begins.
    obtain ⟨start, ts₁, rfl, h₁⟩ := first_kind hts
    obtain ⟨span, ts₂, rfl, h₂⟩ := first_kind h₁
    obtain ⟨open_, ts₃, rfl, h₃⟩ := first_kind h₂
    obtain ⟨close, ts₄, rfl, h₄⟩ := first_kind h₃
    obtain ⟨arrow, ts, rfl, hbody⟩ := first_kind h₄
    obtain ⟨body, he, hread⟩ := (h.reads hbody rest hrest.operand).all hrest
    subst hbody
    refine ⟨.define _ [] body
      (start.cover body.span), by rw [Statement.shape, he, List.map_nil], ?_⟩
    exact read_define (plain_parameters _)
      ((congrArg _ (h.skip rest)).trans hread) _ start span open_
  | define hparams h =>
    obtain ⟨start, ts₁, rfl, h₁⟩ := first_kind hts
    obtain ⟨span, ts₂, rfl, h₂⟩ := first_kind h₁
    obtain ⟨open_, ts₃, rfl, h₃⟩ := first_kind h₂
    obtain ⟨ts, close, ts₄, rfl, hps, h₄⟩ := split_kinds h₃
    obtain ⟨arrow, ts', rfl, hbody⟩ := first_kind h₄
    obtain ⟨body, he, hread⟩ := (h.reads hbody rest hrest.operand).all hrest
    obtain ⟨ps, hshapes, hread'⟩ := hparams.reads close (⟨.arrow, arrow⟩ :: (ts' ++ rest)) hps
    subst hbody hps
    refine ⟨.define _ ps body (start.cover body.span), by rw [Statement.shape, he, hshapes], ?_⟩
    rw [List.cons_append, List.cons_append, List.cons_append, List.append_assoc, List.cons_append,
      List.cons_append]
    exact read_define ((parameters_derives hparams _).trans hread')
      ((congrArg _ (h.skip rest)).trans hread) _ start span open_
  | assign h =>
    obtain ⟨span, ts₁, rfl, h₁⟩ := first_kind hts
    obtain ⟨at_, ts, rfl, hvalue⟩ := first_kind h₁
    obtain ⟨value, he, hread⟩ := (h.reads hvalue rest hrest.operand).all hrest
    subst hvalue
    refine ⟨.assign _ value (span.cover value.span), by rw [Statement.shape, he], ?_⟩
    rw [List.cons_append, List.cons_append, plain_statement_other rfl]
    change plain (Grammar.expr (skipNewlines (ts ++ rest))) >>= _ = _
    rw [h.skip, show plain (Grammar.expr (ts ++ rest)) = _ from hread]
    rfl
  | expr h =>
    obtain ⟨value, he, hread⟩ := (h.reads hts rest hrest.operand).all hrest
    subst hts
    refine ⟨.expr value, by rw [Statement.shape, he], ?_⟩
    rw [plain_statement_other (after_derives h rest), label?_derives h (.inr rfl) (hrest.after rfl)]
    change Level.read .expr _ >>= _ = _
    rw [hread]
    rfl

end Grammar

end SignalPatch
