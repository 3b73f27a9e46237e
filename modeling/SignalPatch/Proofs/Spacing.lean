import SignalPatch.Proofs.Linking
import SignalPatch.Proofs.Reading

/-!
# Newlines inside expressions

Some tokens cling to what stands before them: an operator to its left operand, a parenthesis to the
function that is called, a colon or an equals sign to its name; and a sign or an equals sign clings
to what stands behind it. Between any other two tokens of an expression there may be newlines, and a
newline that was read in an expression stands between such tokens (`Reads.formed`).
-/

namespace SignalPatch.Grammar

/-! ## Tokens that cling together -/

def endsOperand : TokenKind → Bool
  | .number _ | .text _ | .keywordTrue | .keywordFalse | .hole | .ident _ | .closeParen => true
  | _ => false

def Ended (ts : List Token) : Bool := ts.getLast?.any fun t => endsOperand t.kind

/-- A minus behind an operand is an operator, any other is a sign. -/
def EndsInSign (ts : List Token) : Bool := ts.getLast?.any (·.kind = .minus) && !Ended ts.dropLast

/-- The token belongs to the one before it: an operator behind its operand, a parenthesis behind the
name of a function, or what stands behind the name of an argument or a parameter. -/
def belongsTo (last : TokenKind) : TokenKind → Bool
  | .plus | .star | .slash | .caret | .colon | .equals => true
  | .minus => endsOperand last
  | .openParen => match last with
    | .ident _ => true
    | _ => false
  | _ => false

def clings (last next : TokenKind) : Bool := last = .equals || belongsTo last next

/-- A newline between the first tokens and the second ones would part what clings together. -/
def Clings (before after : List Token) : Bool :=
  EndsInSign before || before.getLast?.any fun last => after.head?.any fun next =>
    clings last.kind next.kind

theorem exists_last (h : ts ≠ []) : ∃ (init : List Token) (last : Token), ts = init ++ [last] :=
  ⟨_, _, (List.dropLast_concat_getLast h).symm⟩

theorem ended_append (ts : List Token) (h : us ≠ []) : Ended (ts ++ us) = Ended us := by
  obtain ⟨us, u, rfl⟩ := exists_last h
  simp [Ended]

theorem ended_concat (ts : List Token) (t : Token) : Ended (ts ++ [t]) = endsOperand t.kind := by
  simp [Ended]

theorem clings_concat (ts : List Token) (t : Token) (us : List Token) :
    Clings (ts ++ [t]) us =
      ((t.kind = .minus && !Ended ts) || us.head?.any fun next => clings t.kind next.kind) := by
  simp [Clings, EndsInSign]

theorem clings_append_right (h : us ≠ []) : Clings ts (us ++ vs) = Clings ts us := by
  cases us with
  | nil => exact absurd rfl h
  | cons u us => rfl

theorem clings_append_left (h : us ≠ []) (hclings : Clings us vs = false) (ts : List Token) :
    Clings (ts ++ us) vs = false := by
  obtain ⟨us, u, rfl⟩ := exists_last h
  rw [clings_concat, Bool.or_eq_false_iff] at hclings
  rw [← List.append_assoc, clings_concat, hclings.2, Bool.or_false]
  by_cases hus : us = []
  · subst hus
    have : (u.kind = .minus) = False := by simpa [Ended] using hclings.1
    simp [this]
  · rw [ended_append _ hus, hclings.1]

theorem clings_of_ended (h : Ended ts)
    (hnext : ∀ u ∈ us.head?, ∀ k, endsOperand k → clings k u.kind = false) :
    Clings ts us = false := by
  have hne : ts ≠ [] := by
    rintro rfl
    cases h
  obtain ⟨ts, t, rfl⟩ := exists_last hne
  rw [ended_concat] at h
  rw [clings_concat]
  have hminus : t.kind ≠ .minus := by
    intro hminus
    rw [hminus] at h
    cases h
  cases hu : us.head? with
  | none => simp [hminus]
  | some u => simp [hminus, hnext u hu _ h]

theorem clings_concat_start {t : Token} (hend : endsOperand t.kind = false)
    (hequals : t.kind ≠ .equals) (hsign : t.kind = .minus → Ended ts)
    (hstart : ∃ u ∈ us.head?, startsUnary u.kind) :
    Clings (ts ++ [t]) us = false := by
  obtain ⟨u, hu, hstart⟩ := hstart
  rw [clings_concat, hu, Option.any_some]
  have hfirst : (t.kind = .minus && !Ended ts) = false := by
    by_cases hminus : t.kind = .minus
    · simp [hminus, hsign hminus]
    · simp [hminus]
  rw [hfirst, Bool.false_or, clings]
  obtain ⟨kind, span⟩ := u
  cases kind <;> simp_all [startsUnary, startsPrimary, belongsTo]
  split <;> simp_all [endsOperand]

/-! ## Loose newlines -/

def Newlines (ts : List Token) : Prop := ∀ t ∈ ts, t.kind = .newline

/-- No newline is first or last, and none parts what clings together. -/
def Loose (ts : List Token) : Prop :=
  ∀ before t after, ts = before ++ t :: after → t.kind = .newline →
    before ≠ [] ∧ after ≠ [] ∧ Clings before after = false

theorem Loose.of_no_newline (h : ∀ t ∈ ts, t.kind ≠ .newline) : Loose ts := by
  rintro before t after rfl ht
  exact absurd ht (h t (by simp))

theorem Loose.append (hts : Loose ts) (hus : Loose us) : Loose (ts ++ us) := by
  intro before t after heq ht
  rcases List.append_eq_append_iff.mp heq with ⟨mid, rfl, rfl⟩ | ⟨mid, rfl, hmid⟩
  · obtain ⟨hbefore, hafter, hclings⟩ := hus mid t after rfl ht
    exact ⟨by simp [hbefore], hafter, clings_append_left hbefore hclings ts⟩
  · cases mid with
    | nil =>
      obtain ⟨hbefore, -⟩ := hus [] t after hmid.symm ht
      exact absurd rfl hbefore
    | cons t' mid =>
      obtain ⟨rfl, rfl⟩ := List.cons.inj hmid
      obtain ⟨hbefore, hafter, hclings⟩ := hts before t mid rfl ht
      exact ⟨hbefore, by simp [hafter], (clings_append_right hafter).trans hclings⟩

theorem clings_newlines (hts : ts ≠ []) (hus : us ≠ []) (h : Clings ts us = false)
    (hnls : Newlines nls) (hnls' : Newlines nls') : Clings (ts ++ nls) (nls' ++ us) = false := by
  obtain ⟨ts, t, rfl⟩ := exists_last hts
  obtain ⟨u, us, rfl⟩ := List.exists_cons_of_ne_nil hus
  rw [clings_concat, Bool.or_eq_false_iff, List.head?_cons, Option.any_some, clings,
    Bool.or_eq_false_iff] at h
  obtain ⟨hsign, hequals, hnext⟩ := h
  have hnewline : belongsTo .newline u.kind = false := by
    cases hu : u.kind <;> simp_all [belongsTo, endsOperand]
  by_cases hnil : nls = []
  · rw [hnil, List.append_nil, clings_concat, hsign]
    cases nls' with
    | nil => simp [clings, hequals, hnext]
    | cons n' nls' => simp [clings, hequals, hnls' n' List.mem_cons_self, belongsTo]
  · obtain ⟨nls, n, rfl⟩ := exists_last hnil
    have hn : n.kind = .newline := hnls n (by simp)
    rw [← List.append_assoc, clings_concat, hn]
    cases nls' with
    | nil => simp [clings, hnewline]
    | cons n' nls' => simp [clings, hnls' n' List.mem_cons_self, belongsTo]

theorem Loose.glue (hts : Loose ts) (hus : Loose us) (hts₀ : ts ≠ []) (hus₀ : us ≠ [])
    (hnls : Newlines nls) (h : Clings ts us = false) : Loose (ts ++ (nls ++ us)) := by
  intro before t after heq ht
  rcases List.append_eq_append_iff.mp heq with ⟨mid, rfl, hmid⟩ | ⟨mid, rfl, hmid⟩
  · rcases List.append_eq_append_iff.mp hmid with ⟨mid', rfl, rfl⟩ | ⟨mid', rfl, hmid'⟩
    · -- behind the newlines
      obtain ⟨hbefore, hafter, hclings⟩ := hus mid' t after rfl ht
      refine ⟨by simp [hts₀], hafter, ?_⟩
      rw [← List.append_assoc]
      exact clings_append_left hbefore hclings _
    · cases mid' with
      | nil =>
        obtain ⟨hbefore, -⟩ := hus [] t after hmid'.symm ht
        exact absurd rfl hbefore
      | cons n mid' =>
        obtain ⟨rfl, rfl⟩ := List.cons.inj hmid'
        have hmid : Newlines mid := fun n hn => hnls n (by simp [hn])
        have hmid' : Newlines mid' := fun n hn => hnls n (by simp [hn])
        exact ⟨by simp [hts₀], by simp [hus₀], clings_newlines hts₀ hus₀ h hmid hmid'⟩
  · cases mid with
    | nil =>
      cases nls with
      | nil =>
        obtain ⟨hbefore, -⟩ := hus [] t after hmid.symm ht
        exact absurd rfl hbefore
      | cons n nls =>
        obtain ⟨rfl, rfl⟩ := List.cons.inj hmid
        rw [List.append_nil] at hts₀ h
        have hnls' : Newlines nls := fun n hn => hnls n (by simp [hn])
        have hnone : Newlines [] := nofun
        have hclings := clings_newlines hts₀ hus₀ h hnone hnls'
        rw [List.append_nil] at hclings
        exact ⟨hts₀, by simp [hus₀], hclings⟩
    | cons t' mid =>
      obtain ⟨rfl, rfl⟩ := List.cons.inj hmid
      obtain ⟨hbefore, hafter, hclings⟩ := hts before t mid rfl ht
      exact ⟨hbefore, by simp [hafter], (clings_append_right hafter).trans hclings⟩

/-! ## Parentheses -/

def depth (ts : List Token) : Int :=
  (ts.countP (·.kind = .openParen) : Int) - ts.countP (·.kind = .closeParen)

theorem depth_append (ts us : List Token) : depth (ts ++ us) = depth ts + depth us := by
  simp only [depth, List.countP_append]
  omega

theorem depth_cons (t : Token) (ts : List Token) : depth (t :: ts) = depth [t] + depth ts :=
  depth_append [t] ts

def isParen (t : Token) : Bool := t.kind = .openParen || t.kind = .closeParen

theorem depth_of_isParen (h : isParen t = false) : depth [t] = 0 := by
  simp only [isParen, Bool.or_eq_false_iff, decide_eq_false_iff_not] at h
  simp [depth, h]

theorem depth_open (h : t.kind = .openParen) : depth [t] = 1 := by
  simp [depth, h]

theorem depth_close (h : t.kind = .closeParen) : depth [t] = -1 := by
  simp [depth, h]

/-- No parenthesis is open at the end. -/
def Settled (ts : List Token) : Prop := ∀ us, us <:+ ts → depth us ≤ 0

theorem Settled.nil : Settled [] := by
  intro us hus
  rw [List.suffix_nil.mp hus]
  decide

theorem Settled.append (hts : Settled ts) (hus : Settled us) : Settled (ts ++ us) := by
  rintro vs ⟨front, heq⟩
  rcases List.append_eq_append_iff.mp heq with ⟨mid, rfl, rfl⟩ | ⟨mid, rfl, rfl⟩
  · have h₁ := hts mid (List.suffix_append _ _)
    have h₂ := hus us List.suffix_rfl
    rw [depth_append]
    omega
  · exact hus vs (List.suffix_append _ _)

theorem Settled.cons (h : isParen t = false) (hts : Settled ts) : Settled (t :: ts) := by
  intro us hus
  rcases List.suffix_cons_iff.mp hus with rfl | hus
  · have := hts ts List.suffix_rfl
    rw [depth_cons, depth_of_isParen h]
    omega
  · exact hts us hus

theorem Settled.of_no_paren (h : ∀ t ∈ ts, isParen t = false) : Settled ts := by
  induction ts with
  | nil => exact .nil
  | cons t ts ih =>
    obtain ⟨ht, hts⟩ := List.forall_mem_cons.mp h
    exact .cons ht (ih hts)

theorem Newlines.settled (h : Newlines ts) : Settled ts :=
  .of_no_paren fun t ht => by simp [isParen, h t ht]

theorem Settled.paren (hopen : t.kind = .openParen) (hclose : u.kind = .closeParen)
    (hts : Settled ts) :
    Settled (t :: (ts ++ [u])) := by
  have hu := depth_close hclose
  have ht := depth_open hopen
  have hend : Settled [u] := by
    intro us hus
    rcases List.suffix_cons_iff.mp hus with rfl | hus
    · omega
    · exact Settled.nil us hus
  intro us hus
  rcases List.suffix_cons_iff.mp hus with rfl | hus
  · have := hts ts List.suffix_rfl
    rw [depth_cons, depth_append]
    omega
  · exact hts.append hend us hus

/-! ## Expressions -/

/-- Tokens that were read as an expression or as arguments: they start and end like one, their
parentheses match, and newlines stand only where nothing clings together. -/
structure Formed (ts : List Token) : Prop where
  starts : ∃ t ∈ ts.head?, startsUnary t.kind
  ends : Ended ts
  settled : Settled ts
  loose : Loose ts

theorem Formed.ne_nil (h : Formed ts) : ts ≠ [] := by
  rintro rfl
  cases h.ends

theorem starts_append (h : ∃ t ∈ ts.head?, startsUnary t.kind) (us : List Token) :
    ∃ t ∈ (ts ++ us).head?, startsUnary t.kind := by
  obtain ⟨t, ht, hstart⟩ := h
  cases ts with
  | nil => cases ht
  | cons => exact ⟨t, ht, hstart⟩

/-- A token that can be on a line of its own, up to its operand on the right. -/
structure Links (t : Token) (before : List Token) : Prop where
  isParen : isParen t = false
  newline : t.kind ≠ .newline
  endsOperand : endsOperand t.kind = false
  equals : t.kind ≠ .equals
  sign : t.kind = .minus → Ended before

theorem loose_single (h : t.kind ≠ .newline) : Loose [t] :=
  .of_no_newline (by simpa using h)

theorem Formed.behind (h : Formed ts) (hstarts : ∃ t ∈ front.head?, startsUnary t.kind)
    (hsettled : Settled front) (hloose : Loose front) (hnls : Newlines nls)
    (hclings : nls = [] ∨ Clings front ts = false) : Formed (front ++ (nls ++ ts)) := by
  refine ⟨starts_append hstarts _, ?_, hsettled.append (hnls.settled.append h.settled), ?_⟩
  · rw [← List.append_assoc, ended_append _ h.ne_nil]
    exact h.ends
  · rcases hclings with rfl | hclings
    · exact hloose.append h.loose
    · have hfront : front ≠ [] := by
        rintro rfl
        obtain ⟨_, ⟨⟩, _⟩ := hstarts
      exact hloose.glue h.loose hfront h.ne_nil hnls hclings

/-- Two operands with an operator, a pipe or a comma between them. -/
theorem Formed.link (h : Formed ts) (hus : Formed us) (hloose : Loose (ts ++ lead ++ [t]))
    (hlead : Newlines lead) (hnls : Newlines nls) (ht : Links t (ts ++ lead)) :
    Formed (ts ++ lead ++ [t] ++ (nls ++ us)) := by
  refine hus.behind ?_ ?_ hloose hnls (.inr ?_)
  · rw [List.append_assoc]
    exact starts_append h.starts _
  · exact (h.settled.append hlead.settled).append (.cons ht.isParen .nil)
  · exact clings_concat_start ht.endsOperand ht.equals ht.sign hus.starts

theorem split_skipNewlines (h : skipNewlines ts = us) : ∃ nls, ts = nls ++ us ∧ Newlines nls := by
  subst h
  induction ts with
  | nil => exact ⟨[], rfl, nofun⟩
  | cons t ts ih =>
    by_cases ht : t.kind = .newline
    · obtain ⟨nls, heq, hnls⟩ := ih
      rw [skipNewlines, List.dropWhile_cons_of_pos (by simp [ht])]
      exact ⟨t :: nls, congrArg (t :: ·) heq, List.forall_mem_cons.mpr ⟨ht, hnls⟩⟩
    · rw [skipNewlines_eq (by simpa using ht)]
      exact ⟨[], rfl, nofun⟩

theorem clings_of_free (h : Ended ts)
    (hu : u.kind = .pipe ∨ u.kind = .comma ∨ u.kind = .closeParen) :
    Clings ts [u] = false := by
  refine clings_of_ended h ?_
  rintro _ ⟨⟩ k hk
  have hequals : k ≠ .equals := by
    rintro rfl
    cases hk
  rcases hu with hu | hu | hu <;> simp [clings, belongsTo, hu, hequals]

/-- Behind an operand, the operator that goes on with the expression: alone on its line or not. -/
theorem Level.next?_links {l : Level} (h : l.next? ts = some (op, rest)) (hbefore : Formed before) :
    ∃ lead t,
    ts = lead ++ t :: rest ∧ Newlines lead ∧ Links t (before ++ lead) ∧
      Loose (before ++ lead ++ [t]) := by
  -- Only a pipe may stand behind newlines; the other operators follow the operand at once.
  have hbinary : ∀ op? : TokenKind → Option BinaryOp, (op? = sumOf? ∨ op? = productOf?) → ∀ p,
      firstOp op? ts = some p → ∃ lead t,
        ts = lead ++ t :: p.2 ∧ Newlines lead ∧ Links t (before ++ lead) ∧
          Loose (before ++ lead ++ [t]) := by
    intro op? hop p hfirst
    cases ts with
    | nil => cases hfirst
    | cons t ts =>
      obtain ⟨op, hkind, rfl⟩ := Option.map_eq_some_iff.mp hfirst
      obtain ⟨kind, span⟩ := t
      have hlinks : Links ⟨kind, span⟩ before := by
        rcases hop with rfl | rfl <;> cases kind <;> cases hkind <;>
          exact ⟨rfl, by simp, rfl, by simp, fun _ => hbefore.ends⟩
      refine ⟨[], _, rfl, nofun, by rwa [List.append_nil], ?_⟩
      rw [List.append_nil]
      exact hbefore.loose.append (loose_single hlinks.newline)
  cases l with
  | expr =>
    obtain ⟨rest', hpipe, heq⟩ := Option.map_eq_some_iff.mp h
    cases heq
    rw [pipe?_eq] at hpipe
    obtain ⟨span, hskip⟩ := after_eq_some hpipe
    obtain ⟨lead, hts, hlead⟩ := split_skipNewlines hskip
    refine ⟨lead, _, hts, hlead, ⟨rfl, by simp, rfl, by simp, by simp⟩, ?_⟩
    rw [List.append_assoc]
    exact hbefore.loose.glue (loose_single (by simp)) hbefore.ne_nil (by simp) hlead
      (clings_of_free hbefore.ends (.inl rfl))
  | sum =>
    obtain ⟨p, hop, heq⟩ := Option.map_eq_some_iff.mp h
    cases heq
    exact hbinary sumOf? (.inl rfl) p hop
  | product =>
    obtain ⟨p, hop, heq⟩ := Option.map_eq_some_iff.mp h
    cases heq
    exact hbinary productOf? (.inr rfl) p hop
  | power | unary | primary => cases h

/-- What stands in parentheses, behind an opening one and perhaps the name of a function. -/
theorem Formed.enclose (h : Formed ts) (hfront : Settled front) (hloose : Loose (front ++ [o]))
    (hstarts : ∃ t ∈ (front ++ [o]).head?, startsUnary t.kind) (ho : o.kind = .openParen)
    (hc : c.kind = .closeParen) (hnls : Newlines nls) (hnls' : Newlines nls') :
    Formed (front ++ [o] ++ (nls ++ ts) ++ (nls' ++ [c])) := by
  have hopen : Clings (front ++ [o]) ts = false :=
    clings_concat_start (by rw [ho]; rfl) (by simp [ho]) (by simp [ho]) h.starts
  have hinner : Loose (front ++ [o] ++ (nls ++ ts)) :=
    hloose.glue h.loose (by simp) h.ne_nil hnls hopen
  have hends : Ended (front ++ [o] ++ (nls ++ ts)) := by
    rw [← List.append_assoc, ended_append _ h.ne_nil]
    exact h.ends
  refine ⟨?_, ?_, ?_, ?_⟩
  · rw [List.append_assoc]
    exact starts_append hstarts _
  · rw [← List.append_assoc, ended_concat, hc]
    rfl
  · have hbody := Settled.paren ho hc (hnls.settled.append (h.settled.append hnls'.settled))
    simpa using hfront.append hbody
  · exact hinner.glue (loose_single (by simp [hc])) (by simp) (by simp) hnls'
      (clings_of_free hends (.inr (.inr hc)))

theorem Formed.comma (h : Formed ts) (hlead : Newlines lead) (hnls : Newlines nls) (hus : Formed us)
    (span : Span) : Formed (ts ++ lead ++ [⟨.comma, span⟩] ++ (nls ++ us)) := by
  refine h.link hus ?_ hlead hnls ⟨rfl, by simp, rfl, by simp, by simp⟩
  rw [List.append_assoc]
  exact h.loose.glue (loose_single (by simp)) h.ne_nil (by simp) hlead
    (clings_of_free h.ends (.inr (.inl rfl)))

theorem Formed.single (hstart : startsUnary t.kind) (hend : endsOperand t.kind) : Formed [t] := by
  have hparen : isParen t = false := by
    obtain ⟨kind, span⟩ := t
    cases kind with
    | openParen => cases hend
    | closeParen => cases hstart
    | _ => rfl
  have hnewline : t.kind ≠ .newline := by
    intro hkind
    rw [hkind] at hend
    cases hend
  exact ⟨⟨t, rfl, hstart⟩, hend, .cons hparen .nil, loose_single hnewline⟩

theorem literal?_formed (h : literal? t = some e) : Formed [t] := by
  obtain ⟨kind, span⟩ := t
  cases kind with
  | number | text | keywordTrue | keywordFalse | hole => exact .single rfl rfl
  | _ => cases h

theorem Formed.signed (h : Formed ts) (sign : Span) : Formed (⟨.minus, sign⟩ :: ts) := by
  have hnone : Newlines [] := nofun
  exact h.behind ⟨_, rfl, rfl⟩ (.cons rfl .nil) (loose_single (by simp)) hnone (.inl rfl)

theorem Formed.labelled (h : Formed ts) (hnls : Newlines nls) (name : String) (start at_ : Span) :
    Formed (⟨.ident name, start⟩ :: ⟨.colon, at_⟩ :: (nls ++ ts)) := by
  have hclings : Clings ([⟨.ident name, start⟩] ++ [⟨.colon, at_⟩]) ts = false :=
    clings_concat_start rfl (by simp) (by simp) h.starts
  exact h.behind ⟨_, rfl, rfl⟩ (.cons rfl (.cons rfl .nil))
    (.of_no_newline (by simp)) hnls (.inr hclings)

theorem Formed.call (h : Formed ts) (callee : String) (span open_ close : Span)
    (hnls : Newlines nls) (hnls' : Newlines nls') (hnls'' : Newlines nls'') :
    Formed (⟨.ident callee, span⟩ :: ⟨.openParen, open_⟩ ::
      (nls ++ ts ++ (nls' ++ nls'' ++ [⟨.closeParen, close⟩]))) := by
  have hname : Loose ([⟨.ident callee, span⟩] ++ [⟨.openParen, open_⟩]) := .of_no_newline (by simp)
  have hnewlines : Newlines (nls' ++ nls'') := by
    intro t ht
    rcases List.mem_append.mp ht with ht | ht
    · exact hnls' t ht
    · exact hnls'' t ht
  exact h.enclose (c := ⟨.closeParen, close⟩) (.cons rfl .nil) hname ⟨_, rfl, rfl⟩
    rfl rfl hnls hnewlines

theorem formed_call₀ (callee : String) (span open_ close : Span) (hnls : Newlines nls) :
    Formed (⟨.ident callee, span⟩ :: ⟨.openParen, open_⟩ :: (nls ++ [⟨.closeParen, close⟩])) := by
  refine ⟨⟨_, rfl, rfl⟩, ?_, .cons rfl (.paren rfl rfl hnls.settled), ?_⟩
  · rw [← List.cons_append, ← List.cons_append, ended_concat]
    rfl
  · have hfront : Loose [⟨.ident callee, span⟩, ⟨.openParen, open_⟩] := .of_no_newline (by simp)
    exact hfront.glue (loose_single (by simp)) (by simp) (by simp) hnls rfl

mutual

theorem Reads.formed : Reads l ts e rest → ∃ taken, ts = taken ++ rest ∧ Formed taken
  | .loop _ h hmore => by
    obtain ⟨taken, rfl, hformed⟩ := h.formed
    obtain ⟨taken', rfl, hall⟩ := hmore.formed hformed
    exact ⟨taken ++ taken', by simp, hall⟩
  | .base h _ => h.formed
  | .power h hcaret hmore => by
    obtain ⟨taken, hts, hformed⟩ := h.formed
    obtain ⟨taken', hskip, hformed'⟩ := hmore.formed
    obtain ⟨span, hrest⟩ := after_eq_some hcaret
    obtain ⟨nls, hrest', hnls⟩ := split_skipNewlines hskip
    -- A newline may stand behind the operator and nowhere else between the two sides.
    have hlinks : Links ⟨.caret, span⟩ (taken ++ []) := ⟨rfl, by simp, rfl, by simp, by simp⟩
    have hloose : Loose (taken ++ [] ++ [⟨.caret, span⟩]) := by
      rw [List.append_nil]
      exact hformed.loose.append (loose_single (by simp))
    refine ⟨_, ?_, hformed.link hformed' hloose nofun hnls hlinks⟩
    rw [hts, hrest, hrest']
    simp
  | .negative => ⟨[_, _], rfl, .signed (.single rfl rfl) _⟩
  | .negated _ h => by
    obtain ⟨taken, rfl, hformed⟩ := h.formed
    exact ⟨_ :: taken, rfl, hformed.signed _⟩
  | .primary _ h => h.formed
  | .literal h => ⟨[_], rfl, literal?_formed h⟩
  | .ident _ => ⟨[_], rfl, .single rfl rfl⟩
  | .call₀ h => by
    rename_i close callee span open_
    obtain ⟨nls, rfl, hnls⟩ := split_skipNewlines h
    refine ⟨_, ?_, formed_call₀ callee span open_ close hnls⟩
    simp
  | .call _ hargs hclose => by
    rename_i close callee span open_ _
    obtain ⟨taken, nls', hskip, hformed, hnls'⟩ := hargs.formed
    obtain ⟨nls, hts, hnls⟩ := split_skipNewlines hskip
    obtain ⟨nls'', hrest, hnls''⟩ := split_skipNewlines hclose
    refine ⟨_, ?_, hformed.call callee span open_ close hnls hnls' hnls''⟩
    rw [hts, hrest]
    simp
  | .paren h hclose => by
    rename_i close open_
    obtain ⟨taken, hskip, hformed⟩ := h.formed
    obtain ⟨nls, hts, hnls⟩ := split_skipNewlines hskip
    obtain ⟨nls', hrest, hnls'⟩ := split_skipNewlines hclose
    have hopen : Loose ([] ++ [⟨.openParen, open_⟩]) := loose_single (by simp)
    refine ⟨_, ?_, hformed.enclose (c := ⟨.closeParen, close⟩) .nil hopen
      ⟨_, rfl, rfl⟩ rfl rfl hnls hnls'⟩
    rw [hts, hrest]
    simp

theorem Continues.formed : Continues l a ts e rest → Formed before →
    ∃ taken, ts = taken ++ rest ∧ Formed (before ++ taken)
  | .stop _, hbefore => ⟨[], rfl, by rwa [List.append_nil]⟩
  | .step hnext hread hmore, hbefore => by
    obtain ⟨lead, t, hts, hlead, hlinks, hloose⟩ := Level.next?_links hnext hbefore
    obtain ⟨taken, hskip, hformed⟩ := hread.formed
    obtain ⟨nls, hrest, hnls⟩ := split_skipNewlines hskip
    obtain ⟨taken', hrest', hall⟩ := hmore.formed (hbefore.link hformed hloose hlead hnls hlinks)
    refine ⟨lead ++ [t] ++ (nls ++ taken) ++ taken', ?_, by simpa using hall⟩
    rw [hts, hrest, hrest']
    simp

theorem ReadsArgs.formed : ReadsArgs ts args rest →
    ∃ taken nls, ts = taken ++ (nls ++ rest) ∧ Formed taken ∧ Newlines nls
  | .one h _ => by
    obtain ⟨taken, rfl, hformed⟩ := h.formed
    obtain ⟨nls, hrest, hnls⟩ := split_skipNewlines rfl
    exact ⟨taken, nls, congrArg _ hrest, hformed, hnls⟩
  | .cons h hcomma hmore => by
    obtain ⟨taken, hts, hformed⟩ := h.formed
    obtain ⟨taken', nls', hskip, hformed', hnls'⟩ := hmore.formed
    obtain ⟨span, hrest⟩ := after_eq_some hcomma
    obtain ⟨lead, hrest, hlead⟩ := split_skipNewlines hrest
    obtain ⟨nls, hrest', hnls⟩ := split_skipNewlines hskip
    refine ⟨_, nls', ?_, hformed.comma hlead hnls hformed' span, hnls'⟩
    rw [hts, hrest, hrest']
    simp

theorem ReadsArg.formed : ReadsArg ts a rest → ∃ taken, ts = taken ++ rest ∧ Formed taken
  | .named hlabel h => by
    rename_i name start _ _
    obtain ⟨taken, hskip, hformed⟩ := h.formed
    obtain ⟨nls, hrest, hnls⟩ := split_skipNewlines hskip
    obtain ⟨at_, hts⟩ := label?_eq_some hlabel
    refine ⟨_, ?_, hformed.labelled hnls name start at_⟩
    rw [hts, hrest]
    simp
  | .positional _ h => h.formed

end

/-! ## Statements -/

def Unclosed (ts : List Token) : Prop :=
  ∃ us, us <:+ ts ∧ us ≠ [] ∧ ∀ vs, vs <+: us → vs ≠ [] → 0 < depth vs

theorem Settled.not_unclosed (h : Settled ts) : ¬Unclosed ts := by
  rintro ⟨us, hus, hne, hopen⟩
  have := h us hus
  have := hopen us List.prefix_rfl hne
  omega

theorem Unclosed.of_append (h : Unclosed (ts ++ us)) (hts : Settled ts) : Unclosed us := by
  obtain ⟨vs, ⟨front, heq⟩, hne, hopen⟩ := h
  rcases List.append_eq_append_iff.mp heq with ⟨mid, rfl, rfl⟩ | ⟨mid, rfl, rfl⟩
  · by_cases hmid : mid = []
    · subst hmid
      exact ⟨us, List.suffix_rfl, hne, hopen⟩
    · have h₁ := hts mid (List.suffix_append _ _)
      have h₂ := hopen mid (List.prefix_append _ _) hmid
      omega
  · exact ⟨vs, List.suffix_append _ _, hne, hopen⟩

theorem Unclosed.ne_nil (h : Unclosed ts) : ts ≠ [] := by
  rintro rfl
  exact Settled.nil.not_unclosed h

/-- Tokens that were read as a statement: inside parentheses, newlines stand only where nothing
clings together. -/
structure Spaced (ts : List Token) : Prop where
  settled : Settled ts
  loose : ∀ before t after, ts = before ++ t :: after → t.kind = .newline → Unclosed before →
    after ≠ [] ∧ Clings before after = false

theorem Spaced.of_settled (h : ∀ us vs, ts = us ++ vs → Settled us) : Spaced ts :=
  ⟨h ts [] (by simp), fun before t after heq _ hopen =>
    absurd hopen (h before (t :: after) heq).not_unclosed⟩

theorem Spaced.append (hts : Spaced ts) (hus : Spaced us) : Spaced (ts ++ us) := by
  refine ⟨hts.settled.append hus.settled, fun before t after heq ht hopen => ?_⟩
  rcases List.append_eq_append_iff.mp heq with ⟨mid, rfl, rfl⟩ | ⟨mid, rfl, hmid⟩
  · have hopen' := hopen.of_append hts.settled
    obtain ⟨hafter, hclings⟩ := hus.loose mid t after rfl ht hopen'
    exact ⟨hafter, clings_append_left hopen'.ne_nil hclings _⟩
  · cases mid with
    | nil =>
      rw [List.append_nil] at hts
      exact absurd hopen hts.settled.not_unclosed
    | cons t' mid =>
      obtain ⟨rfl, rfl⟩ := List.cons.inj hmid
      obtain ⟨hafter, hclings⟩ := hts.loose before t mid rfl ht hopen
      exact ⟨by simp [hafter], (clings_append_right hafter).trans hclings⟩

theorem Loose.spaced (h : Loose ts) (hsettled : Settled ts) : Spaced ts :=
  ⟨hsettled, fun before t after heq ht _ => (h before t after heq ht).2⟩

theorem Formed.assigned (h : Formed ts) (hnls : Newlines nls) (name : String) (span at_ : Span) :
    Spaced (⟨.ident name, span⟩ :: ⟨.equals, at_⟩ :: (nls ++ ts)) := by
  have hfront : ∀ t ∈ ⟨.ident name, span⟩ :: ⟨.equals, at_⟩ :: nls, isParen t = false := by
    simp only [List.forall_mem_cons]
    exact ⟨rfl, rfl, fun t ht => by simp [isParen, hnls t ht]⟩
  have hspaced : Spaced (⟨.ident name, span⟩ :: ⟨.equals, at_⟩ :: nls) :=
    .of_settled fun us vs heq => .of_no_paren fun u hu =>
      hfront u (heq ▸ List.mem_append_left vs hu)
  exact hspaced.append (h.loose.spaced h.settled)

theorem ReadsParam.formed (h : ReadsParam ts p rest) :
    ∃ taken, ts = taken ++ rest ∧ Formed taken := by
  cases h with
  | bare => exact ⟨[_], rfl, .single rfl rfl⟩
  | default =>
    exact ⟨[_, _, _], rfl, ⟨_, rfl, rfl⟩, rfl, .of_no_paren (by simp [isParen]),
      .of_no_newline (by simp)⟩
  | negative =>
    exact ⟨[_, _, _, _], rfl, ⟨_, rfl, rfl⟩, rfl, .of_no_paren (by simp [isParen]),
      .of_no_newline (by simp)⟩

theorem ReadsParams.formed (h : ReadsParams ts ps rest) :
    ∃ taken nls, ts = taken ++ (nls ++ rest) ∧ Formed taken ∧ Newlines nls := by
  induction h with
  | one h _ =>
    obtain ⟨taken, rfl, hformed⟩ := h.formed
    obtain ⟨nls, hrest, hnls⟩ := split_skipNewlines rfl
    exact ⟨taken, nls, congrArg _ hrest, hformed, hnls⟩
  | cons h hcomma _ ih =>
    obtain ⟨taken, hts, hformed⟩ := h.formed
    obtain ⟨taken', nls', hskip, hformed', hnls'⟩ := ih
    obtain ⟨span, hrest⟩ := after_eq_some hcomma
    obtain ⟨lead, hrest, hlead⟩ := split_skipNewlines hrest
    obtain ⟨nls, hrest', hnls⟩ := split_skipNewlines hskip
    refine ⟨_, nls', ?_, hformed.comma hlead hnls hformed' span, hnls'⟩
    rw [hts, hrest, hrest']
    simp

theorem ReadsHeader.formed (h : ReadsHeader ts params rest) (name : String) (span open_ : Span) :
    ∃ taken, ts = taken ++ rest ∧ Formed (⟨.ident name, span⟩ :: ⟨.openParen, open_⟩ :: taken) := by
  cases h with
  | @none _ close hclose =>
    obtain ⟨nls, rfl, hnls⟩ := split_skipNewlines hclose
    refine ⟨_, ?_, formed_call₀ name span open_ close hnls⟩
    simp
  | @some _ _ _ close _ hparams hclose =>
    obtain ⟨taken, nls', hskip, hformed, hnls'⟩ := hparams.formed
    obtain ⟨nls, rfl, hnls⟩ := split_skipNewlines hskip
    obtain ⟨nls'', rfl, hnls''⟩ := split_skipNewlines hclose
    refine ⟨_, ?_, hformed.call name span open_ close hnls hnls' hnls''⟩
    simp

theorem ReadsStatement.spaced (h : ReadsStatement ts s rest) :
    ∃ taken, ts = taken ++ rest ∧ Spaced taken := by
  cases h with
  | @define _ _ arrow _ _ _ start name span open_ hheader hbody =>
    obtain ⟨taken, hskip, hformed⟩ := hbody.formed
    obtain ⟨nls, hrest, hnls⟩ := split_skipNewlines hskip
    obtain ⟨header, rfl, hhead⟩ := hheader.formed name span open_
    have hfront :
        Loose (⟨.keywordFn, start⟩ :: ⟨.ident name, span⟩ :: ⟨.openParen, open_⟩ :: header ++
          [⟨.arrow, arrow⟩]) :=
      ((loose_single (by simp)).append hhead.loose).append (loose_single (by simp))
    have hloose := hfront.glue hformed.loose (by simp) hformed.ne_nil hnls
      (clings_concat_start rfl (by simp) (by simp) hformed.starts)
    have harrow : Settled [⟨.arrow, arrow⟩] := .cons rfl .nil
    -- No parenthesis is left open, neither in the header nor in the body.
    have hsettled := (hhead.settled.append harrow).append (hnls.settled.append hformed.settled)
    refine ⟨_, ?_, hloose.spaced (hsettled.cons rfl)⟩
    rw [hrest]
    simp
  | @assign _ _ _ name span at_ h =>
    obtain ⟨taken, hskip, hformed⟩ := h.formed
    obtain ⟨nls, rfl, hnls⟩ := split_skipNewlines hskip
    refine ⟨_, ?_, hformed.assigned hnls name span at_⟩
    simp
  | expr _ _ h =>
    obtain ⟨taken, rfl, hformed⟩ := h.formed
    exact ⟨taken, rfl, hformed.loose.spaced hformed.settled⟩

/-! ## Programs -/

def Separators (ts : List Token) : Prop := ∀ t ∈ ts, isSeparator t

theorem Separators.spaced (h : Separators ts) : Spaced ts := by
  refine .of_settled fun us vs heq => .of_no_paren fun t ht => ?_
  have hsep := h t (heq ▸ List.mem_append_left vs ht)
  cases hkind : t.kind <;> simp_all [isSeparator, isParen]

theorem split_separators (ts : List Token) :
    ∃ seps, ts = seps ++ ts.dropWhile isSeparator ∧ Separators seps :=
  ⟨ts.takeWhile isSeparator, List.takeWhile_append_dropWhile.symm,
    fun t ht => List.all_eq_true.mp List.all_takeWhile t ht⟩

/-- In a program that is read completely, a newline in parentheses parts nothing that clings
together. -/
theorem turns_spaced (ts : List Token) (hcomplete : (turns ts).all Turn.isComplete) :
    Spaced ts := by
  obtain ⟨seps, hseps, hsep⟩ := split_separators ts
  cases hdrop : ts.dropWhile isSeparator with
  | nil =>
    rw [hdrop, List.append_nil] at hseps
    exact hseps ▸ hsep.spaced
  | cons t us =>
    cases hread : plain (statement (t :: us)) with
    | error f =>
      rw [turns_fault hdrop hread] at hcomplete
      cases hcomplete
    | ok p =>
      obtain ⟨s, rest⟩ := p
      have hlt := plain_length hread
      have hle : (t :: us).length ≤ ts.length := hdrop ▸ (List.dropWhile_sublist _).length_le
      rw [turns_read hdrop hread, List.all_cons, Bool.and_eq_true] at hcomplete
      rw [skipStatement_of_isComplete hcomplete.1] at hcomplete
      obtain ⟨taken, htaken, hspaced⟩ := (readsStatement_of_read hread).spaced
      rw [hseps, hdrop, htaken]
      exact hsep.spaced.append (hspaced.append (turns_spaced rest hcomplete.2))
termination_by ts.length

end SignalPatch.Grammar
