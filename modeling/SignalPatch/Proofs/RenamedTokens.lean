import SignalPatch.Proofs.Linking
import SignalPatch.Proofs.Reading
import SignalPatch.Proofs.Variation

/-!
# Reading with another name for a variable

Outside function definitions, an identifier that is neither called nor a label is a variable. When
it is given another name there, all that was read is read again, with the other name at the same
places (`turns_respelled`).
-/

namespace SignalPatch

mutual

/-- Whether a function is called in an expression. A sign calls the function `neg`. -/
def Expr.calls (f : String) : Expr → Bool
  | .binary _ lhs rhs _ => lhs.calls f || rhs.calls f
  | .pipe source target _ => source.calls f || target.calls f
  | .call callee args _ => callee = f || argsCall f args
  | _ => false

def argsCall (f : String) : List (Arg Expr) → Bool
  | [] => false
  | ⟨_, value, _⟩ :: args => value.calls f || argsCall f args

end

def Statement.calls (f : String) : Statement → Bool
  | .define _ _ _ _ => false
  | .assign _ value _ => value.calls f
  | .expr value => value.calls f

def Statement.assigned? : Statement → Option String
  | .assign name _ _ => some name
  | _ => none

def Statement.assigns (x : String) (s : Statement) : Bool := s.assigned? = some x

def exchange (x y name : String) : String := if name = x then y else name

namespace Grammar

/-! ## Tokens -/

/-- The token stands for the value of a variable: it is neither called nor a label. -/
def isUse (x : String) (t : Token) (rest : List Token) : Bool :=
  t.kind = .ident x && (after .openParen rest).isNone && (after .colon rest).isNone

def inDefinition (ts : List Token) (n : Nat) : Bool :=
  match h : ts.dropWhile isSeparator with
  | [] => false
  | t :: rest =>
    have _hl : (t :: rest).length ≤ ts.length := h ▸ (List.dropWhile_sublist _).length_le
    match statement (t :: rest) with
    | .ok ⟨s, left, _⟩ => if left.length ≤ n then s.isDefinition else inDefinition left n
    | .error _ => false
termination_by ts.length
decreasing_by omega

/-- The kinds of the tokens when a variable gets another name, but for those that are kept. -/
def respell (x y : String) (kept : Nat → Bool) : List Token → List TokenKind
  | [] => []
  | t :: rest =>
    (if isUse x t rest && !kept rest.length then .ident y else t.kind) :: respell x y kept rest

/-- The kinds of the tokens of a program when its variable `x` is called `y`. -/
def renameVariable (x y : String) (ts : List Token) : List TokenKind :=
  respell x y (inDefinition ts) ts

/-- Tokens with their new kinds, of which none had the new name before. -/
inductive Respelled (x y : String) (kept : Nat → Bool) : List Token → List Token → Prop
  | nil : Respelled x y kept [] []
  | cons {t t' : Token} {rest rest' : List Token} : t.kind ≠ .ident y →
      t'.kind = (if isUse x t rest && !kept rest.length then .ident y else t.kind) →
      Respelled x y kept rest rest' → Respelled x y kept (t :: rest) (t' :: rest')

variable {x y : String} {kept : Nat → Bool}

theorem respelled_of_kinds (hfresh : ∀ t ∈ ts, t.kind ≠ .ident y)
    (hkinds : ts'.map Token.kind = respell x y kept ts) : Respelled x y kept ts ts' := by
  induction ts generalizing ts' with
  | nil =>
    obtain rfl : ts' = [] := List.map_eq_nil_iff.mp hkinds
    exact .nil
  | cons t ts ih =>
    obtain ⟨t', rest', rfl, hkind, hrest⟩ := List.map_eq_cons_iff.mp hkinds
    exact .cons (hfresh t List.mem_cons_self) hkind
      (ih (fun u hu => hfresh u (List.mem_cons_of_mem _ hu)) hrest)

namespace Respelled

theorem length_eq (h : Respelled x y kept ts ts') : ts'.length = ts.length := by
  induction h with
  | nil => rfl
  | cons _ _ _ ih => rw [List.length_cons, List.length_cons, ih]

theorem exists_cons (h : Respelled x y kept (t :: rest) ts') : ∃ t' rest', ts' = t' :: rest' := by
  cases h with
  | cons => exact ⟨_, _, rfl⟩

theorem apply_kind {t t' : Token} {f : TokenKind → α} (hident : ∀ name, f (.ident name) = a)
    (hsame : t'.kind = (if isUse x t rest && !k then .ident y else t.kind)) :
    f t'.kind = f t.kind := by
  rw [hsame]
  split
  · rename_i huse
    have hx : t.kind = .ident x := by simp_all [isUse]
    rw [hx, hident, hident]
  · rfl

theorem other (h : Respelled x y kept (⟨kind, span⟩ :: rest) ts')
    (hkind : ∀ name, kind ≠ .ident name) :
    ∃ span' rest', ts' = ⟨kind, span'⟩ :: rest' ∧ Respelled x y kept rest rest' := by
  cases h with
  | @cons _ t' _ rest' _ hsame h =>
    have huse : isUse x ⟨kind, span⟩ rest = false := by simp [isUse, hkind x]
    rw [huse] at hsame
    obtain ⟨kind', span'⟩ := t'
    cases hsame
    exact ⟨span', rest', rfl, h⟩

theorem ident (h : Respelled x y kept (⟨.ident name, span⟩ :: rest) ts') :
    name ≠ y ∧ ∃ span' rest', Respelled x y kept rest rest' ∧
      ts' = ⟨.ident (if isUse x ⟨.ident name, span⟩ rest && !kept rest.length then y else name),
        span'⟩ :: rest' := by
  cases h with
  | @cons _ t' _ rest' hfresh hsame h =>
    refine ⟨fun heq => hfresh (by rw [heq]), t'.span, rest', h, ?_⟩
    rw [← apply_ite TokenKind.ident] at hsame
    rw [← hsame]

theorem kept_ident (h : Respelled x y kept (⟨.ident name, span⟩ :: ⟨mark, at_⟩ :: rest) ts')
    (hmark : mark = .openParen ∨ mark = .colon) :
    name ≠ y ∧ ∃ span' at' rest', ts' = ⟨.ident name, span'⟩ :: ⟨mark, at'⟩ :: rest' ∧
      Respelled x y kept rest rest' := by
  obtain ⟨hname, span', ts₁, h₁, rfl⟩ := h.ident
  have huse : isUse x ⟨.ident name, span⟩ (⟨mark, at_⟩ :: rest) = false := by
    rcases hmark with rfl | rfl <;> simp [isUse, after]
  obtain ⟨at', rest', rfl, h₂⟩ := h₁.other (by rcases hmark with rfl | rfl <;> nofun)
  rw [huse]
  exact ⟨hname, span', at', rest', rfl, h₂⟩

theorem stay (h : Respelled x y kept (⟨.ident name, span⟩ :: rest) ts') (hkept : kept rest.length) :
    ∃ span' rest', ts' = ⟨.ident name, span'⟩ :: rest' ∧ Respelled x y kept rest rest' := by
  obtain ⟨-, span', rest', h₁, rfl⟩ := h.ident
  refine ⟨span', rest', ?_, h₁⟩
  rw [hkept, Bool.not_true, Bool.and_false]
  rfl

theorem use (h : Respelled x y kept (⟨.ident name, span⟩ :: rest) ts')
    (hopen : after .openParen rest = none) (hcolon : after .colon rest = none) : ∃ span' rest',
      ts' = ⟨.ident (if kept rest.length then name else exchange x y name), span'⟩ :: rest' ∧
      Respelled x y kept rest rest' := by
  obtain ⟨-, span', rest', h₁, rfl⟩ := h.ident
  refine ⟨span', rest', ?_, h₁⟩
  simp only [isUse, hopen, hcolon, exchange]
  cases kept rest.length <;> simp

theorem after (h : Respelled x y kept ts ts') (hkind : ∀ name, kind ≠ .ident name) :
    Option.Rel (Respelled x y kept) (after kind ts) (after kind ts') := by
  cases h with
  | nil => exact .none
  | @cons t t' rest rest' _ hsame h =>
    have hiff : (t'.kind = kind) = (t.kind = kind) :=
      apply_kind (f := (· = kind)) (fun name => eq_false fun heq => hkind name heq.symm) hsame
    simp only [Grammar.after, hiff]
    split
    · exact .some h
    · exact .none

theorem after_none (h : Respelled x y kept ts ts') (hnone : Grammar.after kind ts = none)
    (hkind : ∀ name, kind ≠ .ident name) : Grammar.after kind ts' = none := by
  have hrel := h.after hkind
  rw [hnone] at hrel
  generalize Grammar.after kind ts' = found at hrel ⊢
  cases hrel
  rfl

theorem after_some (h : Respelled x y kept ts ts') (hsome : Grammar.after kind ts = some rest)
    (hkind : ∀ name, kind ≠ .ident name) :
    ∃ rest', Grammar.after kind ts' = some rest' ∧ Respelled x y kept rest rest' := by
  have hrel := h.after hkind
  rw [hsome] at hrel
  generalize Grammar.after kind ts' = found at hrel ⊢
  cases hrel with
  | some h => exact ⟨_, rfl, h⟩

theorem dropWhile {p : TokenKind → Bool} (h : Respelled x y kept ts ts')
    (hident : ∀ name, p (.ident name) = false) :
    Respelled x y kept (ts.dropWhile (p ·.kind)) (ts'.dropWhile (p ·.kind)) := by
  induction h with
  | nil => exact .nil
  | @cons t t' rest rest' hfresh hsame h ih =>
    rw [List.dropWhile_cons, List.dropWhile_cons, apply_kind hident hsame]
    split
    · exact ih
    · exact .cons hfresh hsame h

theorem skip (h : Respelled x y kept ts ts') :
    Respelled x y kept (skipNewlines ts) (skipNewlines ts') :=
  h.dropWhile (p := (· == .newline)) fun _ => rfl

theorem dropSeparators (h : Respelled x y kept ts ts') :
    Respelled x y kept (ts.dropWhile isSeparator) (ts'.dropWhile isSeparator) :=
  h.dropWhile (p := fun kind => kind == .newline || kind == .semicolon) fun _ => rfl

theorem firstOp {op? : TokenKind → Option BinaryOp} (h : Respelled x y kept ts ts')
    (hident : ∀ name, op? (.ident name) = none) :
    Option.Rel (fun p p' => p'.1 = p.1 ∧ Respelled x y kept p.2 p'.2)
      ((firstOp op? ts).map fun p => (Operator.binary p.1, p.2))
      ((firstOp op? ts').map fun p => (Operator.binary p.1, p.2)) := by
  cases h with
  | nil => exact .none
  | @cons t t' rest rest' _ hsame h =>
    rw [Grammar.firstOp, Grammar.firstOp, apply_kind hident hsame]
    cases op? t.kind with
    | none => exact .none
    | some op => exact .some ⟨rfl, h⟩

theorem next? (h : Respelled x y kept ts ts') (l : Level) :
    Option.Rel (fun p p' => p'.1 = p.1 ∧ Respelled x y kept p.2 p'.2)
      (l.next? ts) (l.next? ts') := by
  cases l with
  | expr =>
    have hrel : Option.Rel _ (Grammar.after .pipe _) _ := h.skip.after nofun
    rw [Level.next?, Level.next?, pipe?_eq, pipe?_eq]
    generalize Grammar.after .pipe (skipNewlines ts) = found at hrel ⊢
    generalize Grammar.after .pipe (skipNewlines ts') = found' at hrel ⊢
    cases hrel with
    | none => exact .none
    | some h => exact .some ⟨rfl, h⟩
  | sum => exact h.firstOp fun _ => rfl
  | product => exact h.firstOp fun _ => rfl
  | power | unary | primary => exact .none

theorem next?_none (h : Respelled x y kept ts ts') {l : Level} (hnone : l.next? ts = none) :
    l.next? ts' = none := by
  have hrel := h.next? l
  rw [hnone] at hrel
  generalize l.next? ts' = found at hrel ⊢
  cases hrel
  rfl

theorem next?_some (h : Respelled x y kept ts ts') {l : Level}
    (hsome : l.next? ts = some (op, rest)) :
    ∃ rest', l.next? ts' = some (op, rest') ∧ Respelled x y kept rest rest' := by
  have hrel := h.next? l
  rw [hsome] at hrel
  generalize l.next? ts' = found at hrel ⊢
  cases hrel with
  | @some _ p h =>
    obtain ⟨op', rest'⟩ := p
    obtain ⟨rfl, h⟩ := h
    exact ⟨rest', rfl, h⟩

theorem numeral?_none (h : Respelled x y kept ts ts') (hnone : numeral? ts = none) :
    numeral? ts' = none := by
  cases h with
  | nil => rfl
  | @cons t t' rest rest' _ hsame h =>
    obtain ⟨kind', span'⟩ := t'
    obtain ⟨kind, span⟩ := t
    dsimp only at hsame
    split at hsame
    · rw [hsame]
      rfl
    · subst hsame
      cases kind' <;> first | rfl | cases hnone

theorem label?_none (h : Respelled x y kept ts ts') (hnone : label? mark ts = none)
    (hmark : ∀ name, mark ≠ .ident name) : label? mark ts' = none := by
  cases h with
  | nil => rfl
  | @cons t t' rest rest' _ hsame h =>
    obtain ⟨kind, span⟩ := t
    by_cases hident : ∃ name, kind = .ident name
    · obtain ⟨name, rfl⟩ := hident
      have hafter := h.after_none (Option.map_eq_none_iff.mp hnone) hmark
      obtain ⟨kind', span'⟩ := t'
      dsimp only at hsame
      rw [← apply_ite TokenKind.ident] at hsame
      rw [hsame]
      exact Option.map_eq_none_iff.mpr hafter
    · have huse : isUse x ⟨kind, span⟩ rest = false := by
        simp only [isUse, Bool.and_eq_false_iff, decide_eq_false_iff_not]
        exact .inl (.inl fun heq => hident ⟨x, heq⟩)
      rw [huse] at hsame
      obtain ⟨kind', span'⟩ := t'
      cases hsame
      cases kind <;> first | rfl | exact absurd ⟨_, rfl⟩ hident

end Respelled

/-! ## What is read -/

theorem colon_of_after (h : after kind ts = some rest) (hkind : kind ≠ .colon) :
    after .colon ts = none := by
  obtain ⟨span, rfl⟩ := after_eq_some h
  exact if_neg hkind

theorem colon_of_skip (h : after .colon (skipNewlines ts) = none) : after .colon ts = none := by
  cases ts with
  | nil => rfl
  | cons t ts =>
    by_cases hcolon : t.kind = .colon
    · rw [skipNewlines_eq (by rintro _ ⟨⟩; rw [hcolon]; nofun)] at h
      exact h
    · exact if_neg hcolon

theorem colon_of_next {l : Level} (h : l.next? ts = some (op, rest)) : after .colon ts = none := by
  cases l with
  | expr =>
    obtain ⟨rest', hpipe, -⟩ := Option.map_eq_some_iff.mp h
    rw [pipe?_eq] at hpipe
    exact colon_of_skip (colon_of_after hpipe nofun)
  | sum | product =>
    obtain ⟨p, hop, -⟩ := Option.map_eq_some_iff.mp h
    cases ts with
    | nil => rfl
    | cons t ts =>
      refine if_neg fun hcolon => ?_
      rw [firstOp, hcolon] at hop
      cases hop
  | power | unary | primary => cases h

theorem Reads.length_lt (h : Reads l ts e rest) : rest.length < ts.length :=
  Level.read_length h.read

theorem Reads.length_lt_skip (h : Reads l (skipNewlines ts) e rest) : rest.length < ts.length :=
  Nat.lt_of_lt_of_le h.length_lt (skipNewlines_length_le ts)

theorem ReadsArgs.length_lt (h : ReadsArgs ts args rest) : rest.length < ts.length :=
  plain_length h.read

theorem ReadsArg.length_lt (h : ReadsArg ts a rest) : rest.length < ts.length := plain_length h.read

theorem Continues.length_le (h : Continues l a ts e rest) : rest.length ≤ ts.length := by
  induction hn : ts.length using Nat.strongRecOn generalizing a ts with
  | ind n ih =>
    subst hn
    cases h with
    | stop => exact Nat.le_refl _
    | step hnext h hmore =>
      have hrest := Level.next?_length hnext
      have hoperand := h.length_lt_skip
      have hle := ih _ (by omega) hmore rfl
      omega

theorem Continues.colon (h : Continues l a ts e rest) (hcolon : after .colon rest = none) :
    after .colon ts = none := by
  cases h with
  | stop => exact hcolon
  | step hnext => exact colon_of_next hnext

theorem Operator.calls_join (op : Operator) (a b : Expr) (f : String) :
    (op.join a b).calls f = (a.calls f || b.calls f) := by
  cases op <;> rfl

theorem Continues.calls : Continues l a ts e rest → a.calls f → e.calls f
  | .stop _, ha => ha
  | .step _ _ hmore, ha => hmore.calls (by rw [Operator.calls_join, ha, Bool.true_or])

/-- Trees may differ in the name of the variable, unless it is kept. -/
structure Exchanges (w : Manner) (x y : String) (b : Bool) : Prop where
  placed : w.placed = false
  name : ∀ name, w.name name = if b then name else exchange x y name
  calls : ∀ f, f ≠ y → w.calls f

variable {w : Manner} {b : Bool}

theorem Exchanges.place {s s' : Span} (hw : Exchanges w x y b) : w.placed → s = s' :=
  fun hplaced => by
  rw [hw.placed] at hplaced
  cases hplaced

theorem literal_respelled (h : literal? t = some e)
    (hts : Respelled x y kept (t :: rest) ts') :
    ∃ t' e' rest', ts' = t' :: rest' ∧ literal? t' = some e' ∧ e.Varies w e' ∧
      Respelled x y kept rest rest' := by
  obtain ⟨kind, span⟩ := t
  cases kind <;> cases h <;> obtain ⟨span', rest', rfl, hrest⟩ := hts.other nofun
  · exact ⟨_, _, _, rfl, rfl, .bool, hrest⟩
  · exact ⟨_, _, _, rfl, rfl, .bool, hrest⟩
  · exact ⟨_, _, _, rfl, rfl, .number, hrest⟩
  · exact ⟨_, _, _, rfl, rfl, .text, hrest⟩
  · exact ⟨_, _, _, rfl, rfl, .hole, hrest⟩

theorem Respelled.close {close : Span} (h : Respelled x y kept ts ts')
    (hclose : skipNewlines ts = ⟨.closeParen, close⟩ :: rest) :
    ∃ close' rest', skipNewlines ts' = ⟨.closeParen, close'⟩ :: rest' ∧
      Respelled x y kept rest rest' := by
  have hskip := h.skip
  rw [hclose] at hskip
  exact hskip.other nofun

theorem colon_of_close (hclose : skipNewlines ts = ⟨.closeParen, close⟩ :: rest) :
    after .colon ts = none := by
  refine colon_of_skip ?_
  rw [hclose]
  rfl

theorem close_length (hclose : skipNewlines ts = ⟨.closeParen, close⟩ :: rest) :
    rest.length < ts.length := by
  have hle := skipNewlines_length_le ts
  rw [hclose] at hle
  exact hle

theorem lt_of_lt_skip {n : Nat} (h : n < (skipNewlines ts).length) : n < ts.length :=
  Nat.lt_of_lt_of_le h (skipNewlines_length_le ts)

theorem Operator.join_varies (op : Operator) (ha : e₁.Varies w e₁') (hb : e₂.Varies w e₂') :
    (op.join e₁ e₂).Varies w (op.join e₁' e₂') := by
  cases op with
  | pipe => exact .pipe ha hb
  | binary op => exact .binary ha hb

mutual

theorem Reads.respelled (hw : Exchanges w x y b) : Reads l ts e rest → Respelled x y kept ts ts' →
    (∀ n, rest.length ≤ n → n < ts.length → kept n = b) → after .colon rest = none →
    (e.calls "neg" → w.calls "neg") →
    ∃ e' rest', Reads l ts' e' rest' ∧ e.Varies w e' ∧ Respelled x y kept rest rest'
  | .loop hl h hmore, hts, hkept, hcolon, hneg => by
    have hlt := h.length_lt
    have hle := hmore.length_le
    obtain ⟨a', rest₁, ha, hsame, hts₁⟩ := h.respelled hw hts (fun n h₁ h₂ => hkept n (by omega) h₂)
      (hmore.colon hcolon) fun hcalls => hneg (hmore.calls hcalls)
    obtain ⟨e', rest₂, he, hsame', hts₂⟩ := hmore.respelled hw hsame hts₁
      (fun n h₁ h₂ => hkept n h₁ (by omega)) hcolon hneg
    exact ⟨e', rest₂, .loop hl ha he, hsame', hts₂⟩
  | .base h hcaret, hts, hkept, hcolon, hneg => by
    obtain ⟨e', rest', he, hsame, hrest⟩ := h.respelled hw hts hkept hcolon hneg
    exact ⟨e', rest', .base he (hrest.after_none hcaret nofun), hsame, hrest⟩
  | .power h hcaret hmore, hts, hkept, hcolon, hneg => by
    have hlt := h.length_lt
    have hlt₁ := after_length hcaret
    have hlt₂ := hmore.length_lt_skip
    obtain ⟨a', rest₁, ha, hsame, hts₁⟩ := h.respelled hw hts (fun n h₁ h₂ => hkept n (by omega) h₂)
      (colon_of_after hcaret nofun) fun hcalls =>
        hneg (by rw [Expr.operation, Expr.calls, hcalls, Bool.true_or])
    obtain ⟨rest₂, hcaret', hts₂⟩ := hts₁.after_some hcaret nofun
    obtain ⟨b', rest₃, hb, hsame', hts₃⟩ := hmore.respelled hw hts₂.skip
      (fun n h₁ h₂ => hkept n h₁ (by have := lt_of_lt_skip h₂; omega)) hcolon
      fun hcalls => hneg (by rw [Expr.operation, Expr.calls, hcalls, Bool.or_true])
    exact ⟨_, rest₃, .power ha hcaret' hb, .binary hsame hsame', hts₃⟩
  | .negative, hts, hkept, hcolon, hneg => by
    obtain ⟨sign', rest₁, rfl, hts₁⟩ := hts.other nofun
    obtain ⟨span', rest₂, rfl, hts₂⟩ := hts₁.other nofun
    exact ⟨_, rest₂, .negative, .number, hts₂⟩
  | .negated hnumber h, hts, hkept, hcolon, hneg => by
    obtain ⟨sign', rest₁, rfl, hts₁⟩ := hts.other nofun
    obtain ⟨e', rest₂, he, hsame, hts₂⟩ := h.respelled hw hts₁
      (fun n h₁ h₂ => hkept n h₁ (Nat.lt_succ_of_lt h₂)) hcolon
      fun _ => hneg (by rw [Expr.negated, Expr.calls]; rfl)
    -- a sign in front of an expression is read as a call of `neg`
    refine ⟨_, rest₂, .negated (hts₁.numeral?_none hnumber) he, ?_, hts₂⟩
    exact .call_of_matches (hneg (by rw [Expr.negated, Expr.calls]; rfl)) hw.place
      (.cons ⟨rfl, hsame⟩ .nil)
  | .primary hminus h, hts, hkept, hcolon, hneg => by
    obtain ⟨e', rest', he, hsame, hrest⟩ := h.respelled hw hts hkept hcolon hneg
    exact ⟨e', rest', .primary (hts.after_none hminus nofun) he, hsame, hrest⟩
  | .literal h, hts, hkept, hcolon, hneg => by
    obtain ⟨t', e', rest', rfl, he, hsame, hrest⟩ := literal_respelled h hts
    exact ⟨e', rest', .literal he, hsame, hrest⟩
  | @Reads.ident rest name span hopen, hts, hkept, hcolon, hneg => by
    -- a use of a name, which alone is spelled anew
    obtain ⟨span', rest', rfl, hrest⟩ := hts.use hopen hcolon
    rw [hkept rest.length (Nat.le_refl _) (Nat.lt_succ_self _), ← hw.name]
    exact ⟨_, rest', .ident (hrest.after_none hopen nofun), .ident, hrest⟩
  | .call₀ hclose, hts, hkept, hcolon, hneg => by
    obtain ⟨hname, span', open', ts₁, rfl, hts₁⟩ := hts.kept_ident (.inl rfl)
    obtain ⟨close', rest', hclose', hrest⟩ := hts₁.close hclose
    exact ⟨_, rest', .call₀ hclose', .call_of_matches (hw.calls _ hname) hw.place .nil, hrest⟩
  | .call hnone hargs hclose, hts, hkept, hcolon, hneg => by
    obtain ⟨hname, span', open', ts₁, rfl, hts₁⟩ := hts.kept_ident (.inl rfl)
    obtain ⟨args', rest₁, hargs', hsame, hts₂⟩ := hargs.respelled hw hts₁.skip
      (fun n h₁ h₂ => hkept n (by have := close_length hclose; omega)
        (by have := lt_of_lt_skip h₂; simp; omega))
      (colon_of_close hclose) fun hcalls => hneg (by rw [Expr.calls, hcalls, Bool.or_true])
    obtain ⟨close', rest', hclose', hrest⟩ := hts₂.close hclose
    refine ⟨_, rest', .call (hts₁.skip.after_none hnone nofun) hargs' hclose', ?_, hrest⟩
    exact .call_of_matches (hw.calls _ hname) hw.place hsame
  | .paren h hclose, hts, hkept, hcolon, hneg => by
    obtain ⟨open', ts₁, rfl, hts₁⟩ := hts.other nofun
    obtain ⟨e', rest₁, he, hsame, hts₂⟩ := h.respelled hw hts₁.skip
      (fun n h₁ h₂ => hkept n (by have := close_length hclose; omega)
        (by have := lt_of_lt_skip h₂; simp; omega))
      (colon_of_close hclose) hneg
    obtain ⟨close', rest', hclose', hrest⟩ := hts₂.close hclose
    exact ⟨e', rest', .paren he hclose', hsame, hrest⟩

theorem Continues.respelled (hw : Exchanges w x y b) : Continues l a ts e rest → a.Varies w a' →
    Respelled x y kept ts ts' → (∀ n, rest.length ≤ n → n < ts.length → kept n = b) →
    after .colon rest = none →
    (e.calls "neg" → w.calls "neg") →
    ∃ e' rest', Continues l a' ts' e' rest' ∧ e.Varies w e' ∧ Respelled x y kept rest rest'
  | .stop hnext, hsame, hts, hkept, hcolon, hneg => ⟨_, _, .stop (hts.next?_none hnext), hsame, hts⟩
  | .step hnext h hmore, hsame, hts, hkept, hcolon, hneg => by
    have hlt := Level.next?_length hnext
    have hle := hmore.length_le
    obtain ⟨rest₁, hnext', hts₁⟩ := hts.next?_some hnext
    obtain ⟨b', rest₂, hb, hsame', hts₂⟩ := h.respelled hw hts₁.skip
      (fun n h₁ h₂ => hkept n (by omega) (by have := lt_of_lt_skip h₂; omega)) (hmore.colon hcolon)
      fun hcalls => hneg (hmore.calls (by rw [Operator.calls_join, hcalls, Bool.or_true]))
    obtain ⟨e', rest₃, he, hsame₃, hts₃⟩ :=
      hmore.respelled hw (Operator.join_varies _ hsame hsame') hts₂
      (fun n h₁ h₂ => hkept n h₁ (by have := h.length_lt_skip; omega)) hcolon hneg
    exact ⟨e', rest₃, .step hnext' hb he, hsame₃, hts₃⟩

theorem ReadsArgs.respelled (hw : Exchanges w x y b) :
    ReadsArgs ts args rest → Respelled x y kept ts ts' →
    (∀ n, rest.length ≤ n → n < ts.length → kept n = b) → after .colon rest = none →
    (argsCall "neg" args → w.calls "neg") →
    ∃ args' rest', ReadsArgs ts' args' rest' ∧ List.Forall₂ (Matches (Expr.Varies w)) args args' ∧
      Respelled x y kept rest rest'
  | .one h hcomma, hts, hkept, hcolon, hneg => by
    obtain ⟨a', rest', ha, hsame, hrest⟩ := h.respelled hw hts
      (fun n h₁ h₂ => hkept n (Nat.le_trans (skipNewlines_length_le _) h₁) h₂)
        (colon_of_skip hcolon)
      fun hcalls => hneg (by rw [argsCall, hcalls, Bool.true_or])
    exact ⟨[a'], _, .one ha (hrest.skip.after_none hcomma nofun), .cons hsame .nil, hrest.skip⟩
  | .cons h hcomma hmore, hts, hkept, hcolon, hneg => by
    have hlt := h.length_lt
    have hlt₁ := Nat.lt_of_lt_of_le (after_length hcomma) (skipNewlines_length_le _)
    have hlt₂ := Nat.lt_of_lt_of_le hmore.length_lt (skipNewlines_length_le _)
    obtain ⟨a', rest₁, ha, hsame, hts₁⟩ := h.respelled hw hts (fun n h₁ h₂ => hkept n (by omega) h₂)
      (colon_of_skip (colon_of_after hcomma nofun)) fun hcalls =>
        hneg (by rw [argsCall, hcalls, Bool.true_or])
    obtain ⟨rest₂, hcomma', hts₂⟩ := hts₁.skip.after_some hcomma nofun
    obtain ⟨args', rest₃, hargs, hsame', hts₃⟩ := hmore.respelled hw hts₂.skip
      (fun n h₁ h₂ => hkept n h₁ (by have := lt_of_lt_skip h₂; omega)) hcolon
      fun hcalls => hneg (by rw [argsCall, hcalls, Bool.or_true])
    exact ⟨a' :: args', rest₃, .cons ha hcomma' hargs, .cons hsame hsame', hts₃⟩

theorem ReadsArg.respelled (hw : Exchanges w x y b) :
    ReadsArg ts a rest → Respelled x y kept ts ts' →
    (∀ n, rest.length ≤ n → n < ts.length → kept n = b) → after .colon rest = none →
    (a.value.calls "neg" → w.calls "neg") →
    ∃ a' rest', ReadsArg ts' a' rest' ∧ Matches (Expr.Varies w) a a' ∧ Respelled x y kept rest rest'
  | .named hlabel h, hts, hkept, hcolon, hneg => by
    obtain ⟨at_, rfl⟩ := label?_eq_some hlabel
    obtain ⟨-, start', at', ts₁, rfl, hts₁⟩ := hts.kept_ident (.inr rfl)
    obtain ⟨e', rest', he, hsame, hrest⟩ := h.respelled hw hts₁.skip
      (fun n h₁ h₂ => hkept n h₁ (by have := lt_of_lt_skip h₂; simp; omega)) hcolon hneg
    exact ⟨_, rest', .named rfl he, ⟨rfl, hsame⟩, hrest⟩
  | .positional hlabel h, hts, hkept, hcolon, hneg => by
    obtain ⟨e', rest', he, hsame, hrest⟩ := h.respelled hw hts hkept hcolon hneg
    have hlabel' := hts.label?_none hlabel nofun
    cases hts with
    | cons => exact ⟨_, rest', .positional hlabel' he, ⟨rfl, hsame⟩, hrest⟩

end

/-! ## Statements -/

theorem ReadsParam.length_lt (h : ReadsParam ts p rest) : rest.length < ts.length :=
  plain_length h.read

theorem ReadsParam.respelled (h : ReadsParam ts p rest) (hts : Respelled x y kept ts ts')
    (hkept : ∀ n, rest.length ≤ n → n < ts.length → kept n) :
    ∃ p' rest', ReadsParam ts' p' rest' ∧ p.shape = p'.shape ∧ Respelled x y kept rest rest' := by
  cases h with
  | bare hequals =>
    obtain ⟨span', rest', rfl, hrest⟩ := hts.stay (hkept _ (Nat.le_refl _) (Nat.lt_succ_self _))
    exact ⟨_, rest', .bare (hrest.after_none hequals nofun), rfl, hrest⟩
  | default =>
    obtain ⟨span', ts₁, rfl, hts₁⟩ := hts.stay (hkept _ (by simp; omega) (Nat.lt_succ_self _))
    obtain ⟨at', ts₂, rfl, hts₂⟩ := hts₁.other nofun
    obtain ⟨stop', rest', rfl, hrest⟩ := hts₂.other nofun
    exact ⟨_, rest', .default, rfl, hrest⟩
  | negative =>
    obtain ⟨span', ts₁, rfl, hts₁⟩ := hts.stay (hkept _ (by simp; omega) (Nat.lt_succ_self _))
    obtain ⟨at', ts₂, rfl, hts₂⟩ := hts₁.other nofun
    obtain ⟨sign', ts₃, rfl, hts₃⟩ := hts₂.other nofun
    obtain ⟨stop', rest', rfl, hrest⟩ := hts₃.other nofun
    exact ⟨_, rest', .negative, rfl, hrest⟩

theorem ReadsParams.respelled (h : ReadsParams ts ps rest) (hts : Respelled x y kept ts ts')
    (hkept : ∀ n, rest.length ≤ n → n < ts.length → kept n) :
    ∃ ps' rest', ReadsParams ts' ps' rest' ∧ ps.map Parameter.shape = ps'.map Parameter.shape ∧
      Respelled x y kept rest rest' := by
  induction h generalizing ts' with
  | one h hcomma =>
    obtain ⟨p', rest', hp, hsame, hrest⟩ := h.respelled hts
      fun n h₁ h₂ => hkept n (Nat.le_trans (skipNewlines_length_le _) h₁) h₂
    exact ⟨[p'], _, .one hp (hrest.skip.after_none hcomma nofun),
      congrArg (fun q => [q]) hsame, hrest.skip⟩
  | cons h hcomma hmore ih =>
    have hlt := h.length_lt
    have hlt₁ := Nat.lt_of_lt_of_le (after_length hcomma) (skipNewlines_length_le _)
    have hlt₂ := Nat.lt_of_lt_of_le (plain_length hmore.read) (skipNewlines_length_le _)
    obtain ⟨p', rest₁, hp, hsame, hts₁⟩ := h.respelled hts fun n h₁ h₂ => hkept n (by omega) h₂
    obtain ⟨rest₂, hcomma', hts₂⟩ := hts₁.skip.after_some hcomma nofun
    obtain ⟨ps', rest₃, hps, hsame', hts₃⟩ := ih hts₂.skip
      fun n h₁ h₂ => hkept n h₁ (by have := lt_of_lt_skip h₂; omega)
    exact ⟨p' :: ps', rest₃, .cons hp hcomma' hps, congrArg₂ List.cons hsame hsame', hts₃⟩

theorem ReadsHeader.length_lt (h : ReadsHeader ts params rest) : rest.length < ts.length := by
  cases h with
  | none hclose => exact close_length hclose
  | some _ hparams hclose =>
    have := close_length hclose
    have := lt_of_lt_skip (plain_length hparams.read)
    omega

theorem ReadsHeader.respelled (h : ReadsHeader ts params rest) (hts : Respelled x y kept ts ts')
    (hkept : ∀ n, rest.length ≤ n → n < ts.length → kept n) :
    ∃ params' rest', ReadsHeader ts' params' rest' ∧
    params.map Parameter.shape = params'.map Parameter.shape ∧
      Respelled x y kept rest rest' := by
  cases h with
  | none hclose =>
    obtain ⟨close', rest', hclose', hrest⟩ := hts.close hclose
    exact ⟨[], rest', .none hclose', rfl, hrest⟩
  | some hnone hparams hclose =>
    have hlt := close_length hclose
    obtain ⟨params', rest₁, hparams', hsame, hts₁⟩ := hparams.respelled hts.skip
      fun n h₁ h₂ => hkept n (by omega) (lt_of_lt_skip h₂)
    obtain ⟨close', rest', hclose', hrest⟩ := hts₁.close hclose
    exact ⟨params', rest', .some (hts.skip.after_none hnone nofun) hparams' hclose', hsame, hrest⟩

theorem ReadsStatement.respelled (hw : Exchanges w x y false) (h : ReadsStatement ts s rest)
    (hts : Respelled x y kept ts ts')
    (hkept : ∀ n, rest.length ≤ n → n < ts.length → kept n = s.isDefinition)
    (hcolon : after .colon rest = none) (hneg : s.calls "neg" → w.calls "neg") :
    ∃ s' rest', ReadsStatement ts' s' rest' ∧ s.Varies w s' ∧ Respelled x y kept rest rest' := by
  cases h with
  | define hheader hbody =>
    -- Names in a body are kept, and there a call of `neg` is no matter.
    have hbodies : Exchanges w.inBody x y true := ⟨hw.placed, fun _ => rfl, fun _ _ => trivial⟩
    obtain ⟨start', ts₁, rfl, hts₁⟩ := hts.other nofun
    obtain ⟨-, span', open', ts₂, rfl, hts₂⟩ := hts₁.kept_ident (.inl rfl)
    have hlt := hbody.length_lt_skip
    obtain ⟨params', ts₃, hheader', hparams, hts₃⟩ := hheader.respelled hts₂
      fun n h₁ h₂ => hkept n (by simp at h₁; omega) (by simp; omega)
    obtain ⟨arrow', ts₄, rfl, hts₄⟩ := hts₃.other nofun
    have hlt₁ := hheader.length_lt
    rw [List.length_cons] at hlt₁
    obtain ⟨body', rest', hbody', hsame, hrest⟩ := hbody.respelled hbodies hts₄.skip
      (fun n h₁ h₂ => hkept n h₁ (by have := lt_of_lt_skip h₂; simp; omega)) hcolon fun _ => trivial
    exact ⟨_, rest', .define hheader' hbody', .define hparams hsame, hrest⟩
  | @assign ts value rest name span at_ hvalue =>
    obtain ⟨span', ts₁, rfl, hts₁⟩ := hts.use rfl rfl
    obtain ⟨at', ts₂, rfl, hts₂⟩ := hts₁.other nofun
    have hlt := hvalue.length_lt_skip
    have hfirst : kept (ts.length + 1) = false := hkept _ (by omega) (Nat.lt_succ_self _)
    rw [List.length_cons, hfirst, ← hw.name]
    obtain ⟨value', rest', hvalue', hsame, hrest⟩ := hvalue.respelled hw hts₂.skip
      (fun n h₁ h₂ => hkept n h₁ (by have := lt_of_lt_skip h₂; simp; omega)) hcolon hneg
    exact ⟨_, rest', .assign hvalue', .assign hsame, hrest⟩
  | expr hfn hlabel hvalue =>
    obtain ⟨value', rest', hvalue', hsame, hrest⟩ := hvalue.respelled hw hts hkept hcolon hneg
    exact ⟨_, rest', .expr (hts.after_none hfn nofun) (hts.label?_none hlabel nofun) hvalue',
      .expr hsame, hrest⟩

/-! ## Programs -/

theorem inDefinition_read (h : ts.dropWhile isSeparator = t :: rest)
    (hs : plain (statement (t :: rest)) = .ok (s, left)) (n : Nat) :
    inDefinition ts n = if left.length ≤ n then s.isDefinition else inDefinition left n := by
  rw [inDefinition]
  split
  · rename_i hnil
    rw [h] at hnil
    cases hnil
  · rename_i hcons
    cases h.symm.trans hcons
    cases hread : statement (t :: rest) with
    | error fault =>
      rw [hread] at hs
      cases hs
    | ok r =>
      rw [hread] at hs
      obtain ⟨s', left', _⟩ := r
      cases hs
      rfl

end Grammar

/-- How statements of a program differ whose variable `x` is called `y`. Behind the assignment of
`x`, no function `y` can be called. -/
def Manner.exchanging (x y : String) (behind : Bool) : Manner :=
  { Latitude.strict with
    name := exchange x y
    calls := fun f => f = y → behind = false
    placed := false }

inductive Exchanged (x y : String) : Bool → List Statement → List Statement → Prop
  | nil : Exchanged x y behind [] []
  | cons : s.Varies (.exchanging x y behind) s' → Exchanged x y (behind || s.assigns x) ss ss' →
      Exchanged x y behind (s :: ss) (s' :: ss')

/-- No sign stands behind the assignment of `x` if a sign calls `y`. -/
def SparesSign (x y : String) (behind : Bool) (ss : List Statement) : Prop :=
  y = "neg" → (behind → ∀ s ∈ ss, ¬ s.calls "neg") ∧ ss.Pairwise fun s s' =>
    s.assigns x → ¬ s'.calls "neg"

theorem exchanging_exchanges : Grammar.Exchanges (.exchanging x y behind) x y false :=
  ⟨rfl, fun _ => rfl, fun _ hf heq => absurd heq hf⟩

theorem SparesSign.head (h : SparesSign x y behind (s :: ss)) (hcalls : s.calls "neg") :
    (Manner.exchanging x y behind).calls "neg" := by
  intro hy
  cases behind with
  | false => rfl
  | true => exact absurd hcalls ((h hy.symm).1 rfl s List.mem_cons_self)

theorem SparesSign.tail (h : SparesSign x y behind (s :: ss)) :
    SparesSign x y (behind || s.assigns x) ss := by
  intro hy
  obtain ⟨hbehind, hpairs⟩ := h hy
  obtain ⟨hfirst, hrest⟩ := List.pairwise_cons.mp hpairs
  refine ⟨fun hor s' hs' => ?_, hrest⟩
  rcases Bool.or_eq_true_iff.mp hor with hbefore | hnow
  · exact hbehind hbefore s' (List.mem_cons_of_mem _ hs')
  · exact hfirst s' hs' hnow

namespace Grammar

variable {x y : String} {kept : Nat → Bool}

theorem finished_eq_complete (h : (finished s rest).isComplete) :
    finished s rest = .complete s := by
  cases rest with
  | nil => rfl
  | cons t rest =>
    simp only [finished] at h ⊢
    split at h
    · rw [if_pos ‹_›]
    · cases h

theorem colon_of_finished (h : (finished s rest).isComplete) : after .colon rest = none := by
  cases rest with
  | nil => rfl
  | cons t rest =>
    refine if_neg fun hcolon => ?_
    simp [finished, isSeparator, hcolon, Turn.isComplete] at h

theorem finished_respelled (s' : Statement) (h : (finished s rest).isComplete)
    (hrest : Respelled x y kept rest rest') :
    (finished s' rest').isComplete := by
  cases hrest with
  | nil => rfl
  | @cons t t' _ _ _ hsame _ =>
    have hsep : isSeparator t' = isSeparator t :=
      Respelled.apply_kind (f := fun kind => kind == .newline || kind == .semicolon)
        (fun _ => rfl) hsame
    simp only [finished, hsep] at h ⊢
    split at h
    · rw [if_pos ‹_›]
      rfl
    · cases h

/-- A program that was read completely is read again, statement by statement. -/
theorem turns_respelled (hcomplete : (turns ts).all Turn.isComplete)
    (hts : Respelled x y kept ts ts') (hkept : ∀ n < ts.length, kept n = inDefinition ts n)
    (hsign : SparesSign x y behind ((turns ts).filterMap Turn.statement?)) :
    (turns ts').all Turn.isComplete ∧
      Exchanged x y behind ((turns ts).filterMap Turn.statement?)
        ((turns ts').filterMap Turn.statement?) := by
  have hdrop := hts.dropSeparators
  cases hfirst : ts.dropWhile isSeparator with
  | nil =>
    rw [hfirst] at hdrop
    have hfirst' : ts'.dropWhile isSeparator = [] := List.length_eq_zero_iff.mp hdrop.length_eq
    rw [turns_done hfirst, turns_done hfirst']
    exact ⟨rfl, .nil⟩
  | cons t rest =>
    have hle : (t :: rest).length ≤ ts.length := hfirst ▸ (List.dropWhile_sublist _).length_le
    cases hread : plain (statement (t :: rest)) with
    | error fault =>
      rw [turns_fault hfirst hread] at hcomplete
      cases hcomplete
    | ok r =>
      obtain ⟨s, left⟩ := r
      have hlt := plain_length hread
      rw [turns_read hfirst hread] at hcomplete hsign ⊢
      rw [List.all_cons, Bool.and_eq_true] at hcomplete
      obtain ⟨hfinished, hcomplete⟩ := hcomplete
      rw [skipStatement_of_isComplete hfinished] at hcomplete hsign ⊢
      rw [finished_eq_complete hfinished] at hsign ⊢
      -- all that the statement was read from belongs to a definition, or nothing does
      have hplace := inDefinition_read hfirst hread
      rw [hfirst] at hdrop
      obtain ⟨s', left', hread', hsame, hleft⟩ := (readsStatement_of_read hread).respelled
        exchanging_exchanges hdrop
        (fun n h₁ h₂ => by rw [hkept n (Nat.lt_of_lt_of_le h₂ hle), hplace, if_pos h₁])
        (colon_of_finished hfinished) hsign.head
      obtain ⟨t', rest', hfirst'⟩ := hdrop.exists_cons
      have hfinished' := finished_respelled s' hfinished hleft
      have hturns := turns_read hfirst' (hfirst' ▸ hread'.read)
      rw [skipStatement_of_isComplete hfinished', finished_eq_complete hfinished'] at hturns
      obtain ⟨hall, hmore⟩ := turns_respelled hcomplete hleft
        (fun n hn => by rw [hkept n (by omega), hplace, if_neg (Nat.not_le.mpr hn)]) hsign.tail
      rw [hturns]
      exact ⟨hall, .cons hsame hmore⟩
termination_by ts.length
decreasing_by
  simp only [List.length_cons] at hle hlt
  omega

end Grammar

end SignalPatch
