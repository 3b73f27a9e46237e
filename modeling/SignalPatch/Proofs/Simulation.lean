import Mathlib.Data.List.Forall2
import SignalPatch.Proofs.Readers

/-!
# Simulations of reading

The readers ask few questions of the tokens before them: whether one of a certain kind comes first,
and whether a pipe comes after newlines. Two token lists that give the same answers, now and after
each step, are read to trees of the same shape. `Simulation` says what that takes; spans correspond
by a `Likeness`, which covering keeps.
-/

namespace SignalPatch

/-- How the spans of two programs correspond, and in particular those of texts and of calls. Of the
first program it may also say where names and closing parentheses stand, in which order tokens come,
and what the values of its numerals are. -/
structure Likeness where
  span : Span → Span → Prop
  text : String → Span → Span → Prop
  name : String → Span → Prop := fun _ _ => True
  close : Span → Prop := fun _ => True
  number : Float → Prop := fun _ => True
  order : Span → Span → Prop := fun _ _ => True
  call : String → Span → Span → Prop := fun _ _ _ => True
  cover : span a a' → span b b' → span (a.cover b) (a'.cover b')
  span_of_text : text v s s' → span s s'
  call_cover : name x a → close b → order a b → span a a' → span b b' →
      call x (a.cover b) (a'.cover b') := by
    exact fun _ _ _ _ _ => trivial
  call_neg : span s s' → call "neg" s s' := by
    exact fun _ => trivial
  number_neg : number v → number (-v) := by
    exact fun _ => trivial

structure Token.Like (L : Likeness) (t t' : Token) : Prop where
  kind : t'.kind = t.kind
  span : L.span t.span t'.span
  text : t.kind = .text v → L.text v t.span t'.span
  name : t.kind = .ident x → L.name x t.span
  close : t.kind = .closeParen → L.close t.span
  number : t.kind = .number n → L.number n

mutual

inductive Expr.Like (L : Likeness) : Expr → Expr → Prop
  | number : L.span s s' → L.number v → Expr.Like L (.number v s) (.number v s')
  | bool : L.span s s' → Expr.Like L (.bool v s) (.bool v s')
  | text : L.text v s s' → Expr.Like L (.text v s) (.text v s')
  | ident : L.span s s' → Expr.Like L (.ident name s) (.ident name s')
  | hole : L.span s s' → Expr.Like L (.hole s) (.hole s')
  | binary : Expr.Like L a a' → Expr.Like L b b' → L.span s s' →
      Expr.Like L (.binary op a b s) (.binary op a' b' s')
  | call : ArgsLike L args args' → L.span s s' → L.call callee s s' →
      Expr.Like L (.call callee args s) (.call callee args' s')
  | pipe : Expr.Like L a a' → Expr.Like L b b' → L.span s s' →
      Expr.Like L (.pipe a b s) (.pipe a' b' s')

inductive ArgsLike (L : Likeness) : List (Arg Expr) → List (Arg Expr) → Prop
  | nil : ArgsLike L [] []
  | cons : Expr.Like L e e' → L.span s s' → ArgsLike L args args' →
      ArgsLike L (⟨name, e, s⟩ :: args) (⟨name, e', s'⟩ :: args')

end

structure Arg.Like (L : Likeness) (a a' : Arg Expr) : Prop where
  name : a'.name = a.name
  value : a.value.Like L a'.value
  span : L.span a.span a'.span

structure Parameter.Like (L : Likeness) (p p' : Parameter) : Prop where
  name : p'.name = p.name
  default : p'.default = p.default
  span : L.span p.span p'.span
  number : ∀ v ∈ p.default, L.number v

inductive Statement.Like (L : Likeness) : Statement → Statement → Prop
  | define : L.name name place → List.Forall₂ (Parameter.Like L) params params' →
      body.Like L body' → L.span s s' →
      Statement.Like L (.define name params body s) (.define name params' body' s')
  | assign : L.name name place → value.Like L value' → L.span s s' →
      Statement.Like L (.assign name value s) (.assign name value' s')
  | expr : value.Like L value' → Statement.Like L (.expr value) (.expr value')

structure Grammar.Fault.Like (L : Likeness) (f f' : Grammar.Fault) : Prop where
  reason : f'.reason = f.reason
  found : Option.Rel (Token.Like L) f.found f'.found
  left : f'.left = f.left
  built : List.Forall₂ (Expr.Like L) f.built f'.built

theorem Expr.Like.span (h : Expr.Like L e e') : L.span e.span e'.span := by
  cases h with
  | text h => exact L.span_of_text h
  | number h | bool h | ident h | hole h => exact h
  | binary _ _ h | pipe _ _ h => exact h
  | call _ h _ => exact h

theorem Expr.Like.operation (ha : Expr.Like L a a') (hb : Expr.Like L b b') :
    (Expr.operation op a b).Like L (.operation op a' b') :=
  .binary ha hb (L.cover ha.span hb.span)

theorem Expr.Like.negated (hs : L.span s s') (h : Expr.Like L e e') :
    (Expr.negated s e).Like L (.negated s' e') :=
  .call (.cons h h.span .nil) (L.cover hs h.span) (L.call_neg (L.cover hs h.span))

theorem ArgsLike.cons' (hargs : ArgsLike L args args') (ha : Arg.Like L a a') :
    ArgsLike L (a :: args) (a' :: args') := by
  obtain ⟨name, e, s⟩ := a
  obtain ⟨name', e', s'⟩ := a'
  obtain ⟨rfl, he, hs⟩ := ha
  exact .cons he hs hargs

theorem ArgsLike.values (h : ArgsLike L args args') :
    List.Forall₂ (Expr.Like L) (args.map Arg.value) (args'.map Arg.value) := by
  induction args generalizing args' with
  | nil =>
    cases h
    exact .nil
  | cons a args ih =>
    cases h with
    | cons he _ hargs => exact .cons he (ih hargs)

namespace Grammar

/-! ## Simulations -/

def Fault.keep (before : List Expr) (f : Fault) : Fault := { f with built := before ++ f.built }

/-- Token lists that are read alike. Where newlines were skipped, a weaker relation is enough,
because an element is read next. If reading is `lost` after a fault, nothing is asked of the other
side any more; otherwise faults correspond, and where the first list ends, the other one ends or has
a token that ends reading. -/
structure Simulation (L : Likeness) where
  strong : List Token → List Token → Prop
  weak : List Token → List Token → Prop
  lost : Prop
  fault : Fault → Fault → Prop
  weak_of_strong : strong ts ts' → weak ts ts'
  cons : weak (t :: ts) ts' → ∃ t' rest', ts' = t' :: rest' ∧ t.Like L t' ∧ strong ts rest'
  stops : strong [] ts' → ∀ t ∈ ts'.head?, stopsReading t.kind
  ends : ¬lost → weak [] ts' → ∀ t ∈ ts'.head?, endsReading t.kind
  here : ¬lost → weak ts ts' → ∀ reason, reason ≠ .expected .defaultValue →
    fault (.here reason ts) (.here reason ts')
  past : ¬lost → weak (t :: ts) (t' :: ts') → t.Like L t' → ∀ reason,
    fault ⟨reason, some t, ts.length, []⟩ ⟨reason, some t', ts'.length, []⟩
  missing : ¬lost → strong [] ts' →
    fault (.here (.expected .defaultValue) [])
      ⟨.expected .defaultValue, ts'.head?, ts'.length - 1, []⟩
  keep : List.Forall₂ (Expr.Like L) before before' → fault f f' →
    fault (f.keep before) (f'.keep before')
  skip : weak ts ts' → weak (skipNewlines ts) (skipNewlines ts')
  /-- A token comes before those that are there when it has been read. -/
  order : weak (t :: ts) ts' → weak (u :: rest) rest' → rest.length < ts.length →
    L.order t.span u.span
  pipe : strong ts ts' → (pipe? ts = none ∧ pipe? ts' = none) ∨
    ∃ rest rest', pipe? ts = some rest ∧ pipe? ts' = some rest' ∧ strong rest rest'

variable {α β : Type}

/-- What two readers give: values and rests that correspond, or faults. If reading is lost after a
fault (`D`), the other side may give anything; likewise where a list may end with the tokens
(`E`). -/
inductive Outcome (F : Fault → Fault → Prop) (D E : Prop) (V : α → α → Prop)
    (T : List Token → List Token → Prop) :
    Except Fault (α × List Token) → Except Fault (α × List Token) → Prop
  | ok : V v v' → T rest rest' → Outcome F D E V T (.ok (v, rest)) (.ok (v', rest'))
  | fault : F f f' → Outcome F D E V T (.error f) (.error f')
  | lost : D → Outcome F D E V T (.error f) y
  | ended : D → E → Outcome F D E V T (.ok (v, [])) y

namespace Outcome

variable {x x' : Except Fault (α × List Token)}
  {k k' : α × List Token → Except Fault (β × List Token)}

theorem bind (h : Outcome F D False V T x x')
    (hk : ∀ v rest v' rest', x = .ok (v, rest) → V v v' → T rest rest' →
      Outcome F D E W U (k (v, rest)) (k' (v', rest'))) :
    Outcome F D E W U (x >>= k) (x' >>= k') := by
  cases h with
  | ok hv hrest => exact hk _ _ _ _ rfl hv hrest
  | fault hf => exact .fault hf
  | lost h => exact .lost h
  | ended _ h => cases h

theorem bind_loose (h : Outcome F D True V T x x')
    (hk : ∀ v rest v' rest', x = .ok (v, rest) → V v v' → T rest rest' →
      Outcome F D E W U (k (v, rest)) (k' (v', rest')))
    (hended : ∀ v, ∃ f, k (v, []) = .error f) : Outcome F D E W U (x >>= k) (x' >>= k') := by
  cases h with
  | ok hv hrest => exact hk _ _ _ _ rfl hv hrest
  | fault hf => exact .fault hf
  | lost h => exact .lost h
  | @ended v _ h _ =>
    obtain ⟨f, hf⟩ := hended v
    change Outcome F D E W U (k (v, [])) _
    rw [hf]
    exact .lost h

theorem map {f g : α → β} (h : Outcome F D E V T x x') (hfg : ∀ v v', V v v' → W (f v) (g v')) :
    Outcome F D E W T (x >>= fun p => .ok (f p.1, p.2)) (x' >>= fun p => .ok (g p.1, p.2)) := by
  cases h with
  | ok hv hrest => exact .ok (hfg _ _ hv) hrest
  | fault hf => exact .fault hf
  | lost h => exact .lost h
  | ended h hE => exact .ended h hE

theorem keeping {S : Simulation L} (h : Outcome S.fault D E V T x x')
    (hbefore : List.Forall₂ (Expr.Like L) before before') :
    Outcome S.fault D E V T (Grammar.keeping before x) (Grammar.keeping before' x') := by
  cases h with
  | ok hv hrest => exact .ok hv hrest
  | fault hf => exact .fault (S.keep hbefore hf)
  | lost h => exact .lost h
  | ended h hE => exact .ended h hE

end Outcome

theorem keeping_eq_ok {x : Except Fault α} (h : Grammar.keeping before x = .ok a) : x = .ok a := by
  cases x with
  | error f => cases h
  | ok a' => exact h

namespace Simulation

variable {L : Likeness} (S : Simulation L)

abbrev Alike (V : α → α → Prop) := Outcome S.fault S.lost False V S.strong

/-- For lists of arguments and parameters, which may end where the tokens end. -/
abbrev Loose (V : α → α → Prop) := Outcome S.fault S.lost True V S.weak

variable {S}

theorem strong_cons (h : S.strong (t :: ts) ts') :
    ∃ t' rest', ts' = t' :: rest' ∧ t.Like L t' ∧ S.strong ts rest' :=
  S.cons (S.weak_of_strong h)

theorem weak_nil (hlost : ¬S.lost) (h : S.weak [] ts') :
    ts' = [] ∨ ∃ t rest, ts' = t :: rest ∧ endsReading t.kind := by
  cases ts' with
  | nil => exact .inl rfl
  | cons t rest => exact .inr ⟨t, rest, rfl, S.ends hlost h t rfl⟩

theorem here_like {V : α → α → Prop} (h : S.weak ts ts') (reason : FaultReason)
    (hreason : reason ≠ .expected .defaultValue) :
    Outcome S.fault S.lost E V T (.error (.here reason ts)) (.error (.here reason ts')) := by
  by_cases hlost : S.lost
  · exact .lost hlost
  · exact .fault (S.here hlost h reason hreason)

theorem nil_like {V : α → α → Prop} {f : List Token → Except Fault (α × List Token)}
    {reason : FaultReason} (h : S.weak [] ts') (hreason : reason ≠ .expected .defaultValue)
    (hf : f [] = .error (.here reason []))
    (hend : ∀ t rest, endsReading t.kind → f (t :: rest) = .error (.here reason (t :: rest))) :
    Outcome S.fault S.lost E V T (f []) (f ts') := by
  rw [hf]
  by_cases hlost : S.lost
  · exact .lost hlost
  · rcases weak_nil hlost h with rfl | ⟨t, rest, rfl, ht⟩
    · rw [hf]
      exact here_like h reason hreason
    · rw [hend t rest ht]
      exact here_like h reason hreason

theorem ne_of_endsReading (ht : endsReading t) (hkind : endsReading kind = false) : t ≠ kind := by
  rintro rfl
  exact Bool.noConfusion (hkind.symm.trans ht)

theorem stopsReading_sumOf? (kind : TokenKind) (h : stopsReading kind) : sumOf? kind = none := by
  cases kind with
  | newline | semicolon | finish => rfl
  | _ => cases h

theorem stopsReading_productOf? (kind : TokenKind) (h : stopsReading kind) :
    productOf? kind = none := by
  cases kind with
  | newline | semicolon | finish => rfl
  | _ => cases h

/-- A token before which no expression can go on is at hand on both sides, or on none. -/
theorem after_like (h : S.strong ts ts') (kind : TokenKind) (hkind : stopsReading kind = false) :
    (after kind ts = none ∧ after kind ts' = none) ∨
      ∃ rest rest', after kind ts = some rest ∧ after kind ts' = some rest' ∧
        S.strong rest rest' := by
  cases ts with
  | nil =>
    refine .inl ⟨rfl, after_eq_none ?_⟩
    rintro span rest rfl
    have hstop := S.stops h ⟨kind, span⟩ rfl
    exact Bool.noConfusion (hkind.symm.trans hstop)
  | cons t ts =>
    obtain ⟨t', rest', rfl, ht, hrest⟩ := strong_cons h
    simp only [after, ht.kind]
    by_cases hkind : t.kind = kind
    · simpa [hkind] using hrest
    · simp [hkind]

theorem firstOp_like (h : S.strong ts ts') (op? : TokenKind → Option BinaryOp)
    (hop : ∀ kind, stopsReading kind → op? kind = none) :
    (firstOp op? ts = none ∧ firstOp op? ts' = none) ∨ ∃ op rest rest',
      firstOp op? ts = some (op, rest) ∧ firstOp op? ts' = some (op, rest') ∧
        S.strong rest rest' := by
  cases ts with
  | nil =>
    refine .inl ⟨rfl, ?_⟩
    cases ts' with
    | nil => rfl
    | cons t ts' =>
      rw [firstOp, hop t.kind (S.stops h t rfl)]
      rfl
  | cons t ts =>
    obtain ⟨t', rest', rfl, ht, hrest⟩ := strong_cons h
    simp only [firstOp, ht.kind]
    cases op? t.kind with
    | none => exact .inl ⟨rfl, rfl⟩
    | some op => exact .inr ⟨op, ts, rest', rfl, rfl, hrest⟩

theorem next_like (l : Level) (h : S.strong ts ts') : (l.next? ts = none ∧ l.next? ts' = none) ∨
    ∃ op rest rest', l.next? ts = some (op, rest) ∧ l.next? ts' = some (op, rest') ∧
      S.strong rest rest' := by
  cases l with
  | expr =>
    rcases S.pipe h with ⟨hn, hn'⟩ | ⟨rest, rest', hp, hp', hrest⟩
    · simp [Level.next?, hn, hn']
    · simp [Level.next?, hp, hp', hrest]
  | sum =>
    rcases firstOp_like h sumOf? stopsReading_sumOf?
      with ⟨hn, hn'⟩ | ⟨op, rest, rest', hop, hop', hrest⟩
    · simp [Level.next?, hn, hn']
    · simp [Level.next?, hop, hop', hrest]
  | product =>
    rcases firstOp_like h productOf? stopsReading_productOf?
      with ⟨hn, hn'⟩ | ⟨op, rest, rest', hop, hop', hrest⟩
    · simp [Level.next?, hn, hn']
    · simp [Level.next?, hop, hop', hrest]
  | power | unary | primary => exact .inl ⟨rfl, rfl⟩

theorem join_like (op : Operator) (ha : Expr.Like L a a') (hb : Expr.Like L b b') :
    (op.join a b).Like L (op.join a' b') := by
  cases op with
  | pipe => exact .pipe ha hb (L.cover ha.span hb.span)
  | binary op => exact ha.operation hb

theorem literal_like (ht : Token.Like L t t') : (literal? t = none ∧ literal? t' = none) ∨
    ∃ e e', literal? t = some e ∧ literal? t' = some e' ∧ e.Like L e' := by
  obtain ⟨kind, span⟩ := t
  obtain ⟨kind', span'⟩ := t'
  obtain rfl : kind' = kind := ht.kind
  cases kind' with
  | number value => exact .inr ⟨_, _, rfl, rfl, .number ht.span (ht.number rfl)⟩
  | text value => exact .inr ⟨_, _, rfl, rfl, .text (ht.text rfl)⟩
  | keywordTrue | keywordFalse => exact .inr ⟨_, _, rfl, rfl, .bool ht.span⟩
  | hole => exact .inr ⟨_, _, rfl, rfl, .hole ht.span⟩
  | _ => exact .inl ⟨rfl, rfl⟩

theorem numeral_like (h : S.strong ts ts') : (numeral? ts = none ∧ numeral? ts' = none) ∨
    ∃ value span rest span' rest', numeral? ts = some (value, span, rest) ∧
      numeral? ts' = some (value, span', rest') ∧ (L.span span span' ∧ L.number value) ∧
        S.strong rest rest' := by
  cases ts with
  | nil =>
    refine .inl ⟨rfl, ?_⟩
    cases hn : numeral? ts' with
    | none => rfl
    | some p =>
      rw [numeral?_eq_some hn] at h
      cases S.stops h _ rfl
  | cons t ts =>
    obtain ⟨⟨kind', span'⟩, rest', rfl, ht, hrest⟩ := strong_cons h
    obtain ⟨kind, span⟩ := t
    obtain rfl : kind' = kind := ht.kind
    cases kind' with
    | number value =>
      exact .inr ⟨value, span, ts, span', rest', rfl, rfl, ⟨ht.span, ht.number rfl⟩, hrest⟩
    | _ => exact .inl ⟨rfl, rfl⟩

theorem label_like (h : S.weak (t :: ts) ts') (mark : TokenKind)
    (hmark : stopsReading mark = false) :
    (label? mark (t :: ts) = none ∧ label? mark ts' = none) ∨
    ∃ name span rest span' rest', label? mark (t :: ts) = some (name, span, rest) ∧
      label? mark ts' = some (name, span', rest') ∧ L.name name span ∧ L.span span span' ∧
      S.strong rest rest' := by
  obtain ⟨⟨kind', span'⟩, rest', rfl, ht, hrest⟩ := S.cons h
  obtain ⟨kind, span⟩ := t
  obtain rfl : kind' = kind := ht.kind
  cases kind' with
  | ident name =>
    rcases after_like hrest mark hmark with ⟨ha, ha'⟩ | ⟨r, r', ha, ha', hr⟩
    · exact .inl (by simp [label?, ha, ha'])
    · exact .inr ⟨name, span, r, span',
        r', by simp [label?, ha], by simp [label?, ha'], ht.name rfl, ht.span, hr⟩
  | _ => exact .inl ⟨rfl, rfl⟩

theorem after_weak (h : S.weak ts ts') (kind : TokenKind) (hkind : endsReading kind = false) :
    (ts = [] ∧ S.lost) ∨
    (after kind ts = none ∧ after kind ts' = none) ∨
      ∃ rest rest', after kind ts = some rest ∧ after kind ts' = some rest' ∧
        S.strong rest rest' := by
  cases ts with
  | nil =>
    by_cases hlost : S.lost
    · exact .inl ⟨rfl, hlost⟩
    · rcases weak_nil hlost h with rfl | ⟨t, rest, rfl, ht⟩
      · exact .inr (.inl ⟨rfl, rfl⟩)
      · exact .inr (.inl ⟨rfl, if_neg (ne_of_endsReading ht hkind)⟩)
  | cons t ts =>
    obtain ⟨t', rest', rfl, ht, hrest⟩ := S.cons h
    simp only [after, ht.kind]
    by_cases hkind : t.kind = kind
    · simpa [hkind] using hrest
    · simp [hkind]

theorem expect_like (h : S.weak ts ts') (kind : TokenKind) (what : Expectation)
    (hkind : endsReading kind = false) (hwhat : what ≠ .defaultValue) :
    S.Alike L.span (plain (expect kind what ts)) (plain (expect kind what ts')) := by
  cases ts with
  | nil =>
    refine nil_like (f := fun ts => plain (expect kind what ts)) h (by simpa using hwhat) rfl
      fun t rest ht => ?_
    simp only [expect, if_neg (ne_of_endsReading ht hkind)]
    rfl
  | cons t ts =>
    obtain ⟨t', rest', rfl, ht, hrest⟩ := S.cons h
    simp only [expect, ht.kind]
    split
    · exact .ok ht.span hrest
    · exact here_like h _ (by simpa using hwhat)

theorem expectName_like (h : S.weak ts ts') (what : Expectation) (hwhat : what ≠ .defaultValue) :
    S.Alike (fun p p' => p'.1 = p.1 ∧ L.name p.1 p.2 ∧ L.span p.2 p'.2) (plain (expectName what ts))
      (plain (expectName what ts')) := by
  cases ts with
  | nil =>
    refine nil_like (f := fun ts => plain (expectName what ts)) h (by simpa using hwhat) rfl ?_
    rintro ⟨kind, span⟩ rest ht
    cases kind with
    | semicolon | finish => rfl
    | _ => cases ht
  | cons t ts =>
    obtain ⟨⟨kind', span'⟩, rest', rfl, ht, hrest⟩ := S.cons h
    obtain ⟨kind, span⟩ := t
    obtain rfl : kind' = kind := ht.kind
    cases kind' with
    | ident name => exact .ok ⟨rfl, ht.name rfl, ht.span⟩ hrest
    | _ => exact here_like h _ (by simpa using hwhat)

/-! ## Expressions -/

mutual

theorem read_like (l : Level) (ts : List Token) (h : S.weak ts ts') :
    S.Alike (Expr.Like L) (l.read ts) (l.read ts') := by
  -- The recursion is on the tokens and, where none is taken, on the height of the level.
  -- The three levels with left-associative operators are one case.
  by_cases hl : l.isLoop
  · rw [Level.read_loop hl, Level.read_loop hl]
    have := Level.height_operand hl
    refine (read_like l.operand ts h).bind fun a rest a' rest' heq ha hrest => ?_
    have := Level.read_length heq
    exact continued_like l rest ha hrest
  cases l with
  | expr | sum | product => exact absurd rfl hl
  | power =>
    rw [Level.read, Level.read, plain_power, plain_power]
    refine (read_like .unary ts h).bind fun e rest e' rest' heq he hrest => ?_
    have := Level.read_length heq
    rcases after_like hrest .caret rfl with ⟨ha, ha'⟩ | ⟨r, r', ha, ha', hr⟩
    · rw [ha, ha']
      exact .ok he hrest
    · rw [ha, ha']
      have := after_length ha
      have := skipNewlines_length_le r
      have hpower := read_like .power _ (S.skip (S.weak_of_strong hr))
      exact (hpower.keeping (.cons he .nil)).bind fun _ _ _ _ _ hx hr => .ok (he.operation hx) hr
  | unary =>
    cases ts with
    | nil =>
      have hnil : plain (unary []) = .error (.here .unexpected []) := by
        rw [plain_unary_other rfl, plain_primary_nil]
      exact nil_like (f := fun ts => plain (unary ts)) h (by simp) hnil fun _ _ ht =>
        plain_unary_end ht _
    | cons t ts =>
      obtain ⟨⟨kind', span'⟩, rest', rfl, ht, hrest⟩ := S.cons h
      obtain ⟨kind, span⟩ := t
      obtain rfl : kind' = kind := ht.kind
      rw [Level.read, Level.read]
      by_cases hminus : kind' = .minus
      · subst hminus
        rw [plain_unary_minus, plain_unary_minus]
        rcases numeral_like hrest with ⟨hn, hn'⟩ | ⟨value, s, r, s', r', hn, hn', ⟨hs, hv⟩, hr⟩
        · rw [hn, hn']
          exact (read_like .unary ts (S.weak_of_strong hrest)).bind fun _ _ _ _ _ he hr =>
            .ok (he.negated ht.span) hr
        · rw [hn, hn']
          exact .ok (.number (L.cover ht.span hs) (L.number_neg hv)) hr
      · rw [plain_unary_other (by simp [after, hminus]),
          plain_unary_other (by simp [after, hminus])]
        exact read_like .primary _ h
  | primary =>
    cases ts with
    | nil =>
      exact nil_like (f := fun ts => plain (primary ts)) h (by simp) plain_primary_nil fun _ _ ht =>
        plain_primary_end ht _
    | cons t ts =>
      obtain ⟨t', rest', rfl, ht, hrest⟩ := S.cons h
      rw [Level.read, Level.read]
      rcases literal_like ht with ⟨hnone, hnone'⟩ | ⟨e, e', he, he', hlike⟩
      case inr =>
        rw [plain_primary_literal he, plain_primary_literal he']
        exact .ok hlike hrest
      obtain ⟨kind', span'⟩ := t'
      obtain ⟨kind, span⟩ := t
      obtain rfl : kind' = kind := ht.kind
      cases kind' with
      | number | text | keywordTrue | keywordFalse | hole => cases hnone
      | ident name =>
        rw [plain_primary_ident, plain_primary_ident]
        rcases after_like hrest .openParen rfl with ⟨ha, ha'⟩ | ⟨r, r', ha, ha', hr⟩
        · rw [ha, ha']
          exact .ok (.ident ht.span) hrest
        · rw [ha, ha']
          have := after_length ha
          have := skipNewlines_length_le r
          refine (arguments_like (S.skip (S.weak_of_strong hr))).bind_loose ?_ fun _ => ⟨_, rfl⟩
          intro args r args' r' hread hargs hr
          have hclose := expect_like (S.skip hr) .closeParen .closeAfterArguments rfl (by simp)
          refine (hclose.keeping hargs.values).bind fun close r₁ close' r₁' hexpect hs hr₁ => ?_
          have hcons := expect_eq_ok (keeping_eq_ok hexpect)
          -- the parenthesis comes behind the name, which is what `call_cover` asks of their order
          have hlength : r₁.length < ts.length := by
            have := plain_length hread
            have := skipNewlines_length_le r
            have := congrArg List.length hcons
            simp only [List.length_cons] at this
            omega
          have hskip := S.skip hr
          rw [hcons] at hskip
          obtain ⟨_, _, -, hparen, -⟩ := S.cons hskip
          have hcall := L.call_cover (ht.name rfl) (hparen.close rfl)
            (S.order h hskip hlength) ht.span hs
          exact .ok (.call hargs (L.cover ht.span hs) hcall) hr₁
      | openParen =>
        rw [plain_primary_paren, plain_primary_paren]
        have := skipNewlines_length_le ts
        refine (read_like .expr _ (S.skip (S.weak_of_strong hrest))).bind
          fun e r e' r' _ he hr => ?_
        have hclose := expect_like (S.skip (S.weak_of_strong hr))
          .closeParen .closeParen rfl (by simp)
        exact (hclose.keeping (.cons he .nil)).bind fun _ _ _ _ _ _ hr => .ok he hr
      | _ =>
        rw [plain_primary_fault rfl, plain_primary_fault rfl]
        exact here_like h _ (by split <;> simp)
termination_by 9 * ts.length + l.height
decreasing_by
  all_goals
    subst_vars
    simp only [Level.height, List.length_cons] at *
    omega

theorem continued_like (l : Level) (ts : List Token) (ha : Expr.Like L a a') (h : S.strong ts ts') :
    S.Alike (Expr.Like L) (l.continued a ts) (l.continued a' ts') := by
  rcases next_like l h with ⟨hnone, hnone'⟩ | ⟨op, rest, rest', hnext, hnext', hrest⟩
  · rw [Level.continued_none hnone, Level.continued_none hnone']
    exact .ok ha h
  · rw [Level.continued_some hnext, Level.continued_some hnext']
    have := Level.next?_length hnext
    have := skipNewlines_length_le rest
    have : l.operand.height < 9 := by cases l <;> decide
    have hoperand := read_like l.operand _ (S.skip (S.weak_of_strong hrest))
    refine (hoperand.keeping (.cons ha .nil)).bind fun b r b' r' heq hb hr => ?_
    have := Level.read_length (keeping_eq_ok heq)
    exact continued_like l r (join_like op ha hb) hr
termination_by 9 * ts.length

theorem arguments_like (h : S.weak ts ts') :
    S.Loose (ArgsLike L) (plain (arguments ts)) (plain (arguments ts')) := by
  cases ts with
  | nil =>
    have hnil : plain (arguments []) = .error (.here .unexpected []) := by
      rw [plain_arguments, after, plain_argumentList, plain_argument_nil]
      rfl
    refine nil_like (f := fun ts => plain (arguments ts)) h (by simp) hnil fun t rest ht => ?_
    rw [plain_arguments, after, if_neg (ne_of_endsReading ht rfl), plain_argumentList,
      plain_argument_end ht]
    rfl
  | cons t ts =>
    obtain ⟨t', rest', rfl, ht, hrest⟩ := S.cons h
    rw [plain_arguments, plain_arguments]
    simp only [after, ht.kind]
    by_cases hclose : t.kind = .closeParen
    · simp only [hclose, if_true]
      exact .ok .nil h
    · simp only [hclose, if_false]
      exact argumentList_like h
termination_by 9 * ts.length + 8

theorem argumentList_like (h : S.weak ts ts') :
    S.Loose (ArgsLike L) (plain (argumentList ts)) (plain (argumentList ts')) := by
  rw [plain_argumentList, plain_argumentList]
  refine (argument_like h).bind fun a rest a' rest' heq ha hrest => ?_
  have := plain_length heq
  have := skipNewlines_length_le rest
  have hskip := S.skip (S.weak_of_strong hrest)
  rcases after_weak hskip .comma rfl with ⟨hnil, hlost⟩ | ⟨hn, hn'⟩ | ⟨r, r', hc, hc', hr⟩
  · dsimp only
    rw [hnil]
    exact .ended hlost trivial
  · dsimp only
    rw [hn, hn']
    exact .ok (ArgsLike.nil.cons' ha) hskip
  · dsimp only
    rw [hc, hc']
    have := after_length hc
    have := skipNewlines_length_le r
    have hmore := argumentList_like (S.skip (S.weak_of_strong hr))
    exact (hmore.keeping (.cons ha.value .nil)).map (f := (a :: ·)) (g := (a' :: ·))
      fun _ _ hargs => hargs.cons' ha
termination_by 9 * ts.length + 7

theorem argument_like (h : S.weak ts ts') :
    S.Alike (Arg.Like L) (plain (argument ts)) (plain (argument ts')) := by
  cases ts with
  | nil =>
    exact nil_like (f := fun ts => plain (argument ts)) h (by simp) plain_argument_nil fun _ _ ht =>
      plain_argument_end ht _
  | cons t ts =>
    obtain ⟨t', rest', rfl, ht, hrest⟩ := S.cons h
    rw [plain_argument_cons, plain_argument_cons]
    rcases label_like h .colon rfl with
      ⟨hl, hl'⟩ | ⟨name, s, r, s', r', hl, hl', -, hs, hr⟩
    · rw [hl, hl']
      exact (read_like .expr _ h).bind fun _ _ _ _ _ he hr =>
        .ok ⟨rfl, he, L.cover ht.span he.span⟩ hr
    · rw [hl, hl']
      have := label?_length hl
      have := skipNewlines_length_le r
      exact (read_like .expr _ (S.skip (S.weak_of_strong hr))).bind fun _ _ _ _ _ he hr =>
        .ok ⟨rfl, he, L.cover hs he.span⟩ hr
termination_by 9 * ts.length + 6
decreasing_by
  all_goals
    subst_vars
    simp only [Level.height, List.length_cons] at *
    omega

end

/-! ## Statements -/

theorem past_like {V : α → α → Prop} (h : S.weak (t :: ts) (t' :: ts')) (ht : t.Like L t')
    (reason : FaultReason) :
    S.Alike V (.error ⟨reason, some t, ts.length, []⟩)
      (.error ⟨reason, some t', ts'.length, []⟩) := by
  by_cases hlost : S.lost
  · exact .lost hlost
  · exact .fault (S.past hlost h ht reason)

/-- A default value that is missing where the tokens end. What ends reading there is taken for
it. -/
theorem missing_like {V : α → α → Prop} {f : List Token → Except Fault (α × List Token)}
    (h : S.strong [] ts') (hf : f [] = .error (.here (.expected .defaultValue) []))
    (hend : ∀ t rest, endsReading t.kind →
      f (t :: rest) = .error ⟨.expected .defaultValue, some t, rest.length, []⟩) :
    S.Alike V (f []) (f ts') := by
  rw [hf]
  by_cases hlost : S.lost
  · exact .lost hlost
  · rcases weak_nil hlost (S.weak_of_strong h) with rfl | ⟨t, rest, rfl, ht⟩
    · rw [hf]
      exact .fault (S.missing hlost h)
    · rw [hend t rest ht]
      exact .fault (S.missing hlost h)

theorem defaultValue_like (h : S.strong ts ts') :
    S.Alike (fun p p' => p'.1 = p.1 ∧ L.span p.2 p'.2 ∧ L.number p.1) (plain (defaultValue ts))
      (plain (defaultValue ts')) := by
  cases ts with
  | nil =>
    refine missing_like (f := fun ts => plain (defaultValue ts)) h rfl ?_
    rintro ⟨kind, span⟩ rest ht
    cases kind with
    | semicolon | finish => rfl
    | _ => cases ht
  | cons t ts =>
    obtain ⟨⟨kind', span'⟩, rest', rfl, ht, hrest⟩ := strong_cons h
    obtain ⟨kind, span⟩ := t
    obtain rfl : kind' = kind := ht.kind
    cases kind' with
    | number value => exact .ok ⟨rfl, ht.span, ht.number rfl⟩ hrest
    | minus =>
      -- Behind a sign a numeral must follow at once.
      cases ts with
      | nil =>
        refine missing_like (f := fun ts => plain (defaultValue (⟨.minus, span'⟩ :: ts)))
          hrest rfl ?_
        rintro ⟨kind, span⟩ rest hend
        cases kind with
        | semicolon | finish => rfl
        | _ => cases hend
      | cons u ts =>
        obtain ⟨⟨kind', span'⟩, rest', rfl, hu, hrest'⟩ := strong_cons hrest
        obtain ⟨kind, span⟩ := u
        obtain rfl : kind' = kind := hu.kind
        cases kind' with
        | number value => exact .ok ⟨rfl, hu.span, L.number_neg (hu.number rfl)⟩ hrest'
        | _ => exact past_like (S.weak_of_strong hrest) hu _
    | _ => exact past_like (S.weak_of_strong h) ht _

theorem parameter_like (h : S.weak ts ts') :
    S.Alike (Parameter.Like L) (plain (parameter ts)) (plain (parameter ts')) := by
  rw [plain_parameter, plain_parameter]
  refine (expectName_like h _ (by simp)).bind ?_
  rintro ⟨name, span⟩ rest ⟨_, span'⟩ rest' _ ⟨rfl, -, hspan⟩ hrest
  rcases after_like hrest .equals rfl with ⟨ha, ha'⟩ | ⟨r, r', ha, ha', hr⟩
  · simp only [ha, ha']
    exact .ok ⟨rfl, rfl, hspan, by simp⟩ hrest
  · simp only [ha, ha']
    refine (defaultValue_like hr).bind ?_
    rintro ⟨value, stop⟩ r ⟨_, stop'⟩ r' _ ⟨rfl, hstop, hvalue⟩ hr
    exact .ok ⟨rfl, rfl, L.cover hspan hstop, by simpa using hvalue⟩ hr

theorem parameterList_like (h : S.weak ts ts') :
    S.Loose (List.Forall₂ (Parameter.Like L)) (plain (parameterList ts))
      (plain (parameterList ts')) := by
  rw [plain_parameterList, plain_parameterList]
  refine (parameter_like h).bind fun p rest p' rest' heq hp hrest => ?_
  have := plain_length heq
  have := skipNewlines_length_le rest
  have hskip := S.skip (S.weak_of_strong hrest)
  rcases after_weak hskip .comma rfl with ⟨hnil, hlost⟩ | ⟨hn, hn'⟩ | ⟨r, r', hc, hc', hr⟩
  · dsimp only
    rw [hnil]
    exact .ended hlost trivial
  · dsimp only
    rw [hn, hn']
    exact .ok (.cons hp .nil) hskip
  · dsimp only
    rw [hc, hc']
    have := after_length hc
    have := skipNewlines_length_le r
    have hmore := parameterList_like (S.skip (S.weak_of_strong hr))
    exact hmore.map (f := (p :: ·)) (g := (p' :: ·)) fun _ _ hps => .cons hp hps
termination_by ts.length

theorem parameters_like (h : S.weak ts ts') :
    S.Loose (List.Forall₂ (Parameter.Like L)) (plain (parameters ts)) (plain (parameters ts')) := by
  cases ts with
  | nil =>
    have hnil : plain (parameters []) = .error (.here (.expected .parameterName) []) := by
      rw [plain_parameters, after, plain_parameterList, plain_parameter]
      rfl
    refine nil_like (f := fun ts => plain (parameters ts)) h (by simp) hnil ?_
    rintro ⟨kind, span⟩ rest ht
    rw [plain_parameters, after, if_neg (ne_of_endsReading ht rfl),
      plain_parameterList, plain_parameter]
    cases kind with
    | semicolon | finish => rfl
    | _ => cases ht
  | cons t ts =>
    obtain ⟨t', rest', rfl, ht, hrest⟩ := S.cons h
    rw [plain_parameters, plain_parameters]
    simp only [after, ht.kind]
    by_cases hclose : t.kind = .closeParen
    · simp only [hclose, if_true]
      exact .ok .nil h
    · simp only [hclose, if_false]
      exact parameterList_like h

theorem definition_like (hstart : L.span start start') (h : S.weak ts ts') :
    S.Alike (Statement.Like L) (plain (definition start ts)) (plain (definition start' ts')) := by
  rw [plain_definition, plain_definition]
  refine (expectName_like h _ (by simp)).bind ?_
  rintro ⟨name, _⟩ r₁ ⟨_, _⟩ r₁' _ ⟨rfl, hname, -⟩ h₁
  refine (expect_like (S.weak_of_strong h₁) _ _ rfl (by simp)).bind fun _ r₂ _ r₂' _ _ h₂ => ?_
  refine (parameters_like (S.skip (S.weak_of_strong h₂))).bind_loose ?_ fun _ => ⟨_, rfl⟩
  intro params r₃ params' r₃' _ hparams h₃
  refine (expect_like (S.skip h₃) _ _ rfl (by simp)).bind fun _ r₄ _ r₄' _ _ h₄ => ?_
  refine (expect_like (S.weak_of_strong h₄) _ _ rfl (by simp)).bind fun _ r₅ _ r₅' _ _ h₅ => ?_
  exact (read_like .expr _ (S.skip (S.weak_of_strong h₅))).bind fun _ _ _ _ _ he hr =>
    .ok (.define hname hparams he (L.cover hstart he.span)) hr

theorem statement_like (h : S.strong (t :: ts) ts') :
    S.Alike (Statement.Like L) (plain (statement (t :: ts))) (plain (statement ts')) := by
  obtain ⟨t', rest', rfl, ht, hrest⟩ := strong_cons h
  by_cases hfn : t.kind = .keywordFn
  · obtain ⟨kind, span⟩ := t
    obtain ⟨kind', span'⟩ := t'
    obtain rfl : kind' = kind := ht.kind
    obtain rfl : kind' = .keywordFn := hfn
    rw [plain_statement_define, plain_statement_define]
    exact definition_like ht.span (S.weak_of_strong hrest)
  · rw [plain_statement_other (by simp [after, hfn]),
      plain_statement_other (by simp [after, ht.kind, hfn])]
    rcases label_like (S.weak_of_strong h) .equals rfl with
      ⟨hl, hl'⟩ | ⟨name, s, r, s', r', hl, hl', hname, hs, hr⟩
    · rw [hl, hl']
      exact (read_like .expr _ (S.weak_of_strong h)).bind fun _ _ _ _ _ he hr => .ok (.expr he) hr
    · rw [hl, hl']
      exact (read_like .expr _ (S.skip (S.weak_of_strong hr))).bind fun _ _ _ _ _ he hr =>
        .ok (.assign hname he (L.cover hs he.span)) hr

end Simulation

end Grammar

end SignalPatch
