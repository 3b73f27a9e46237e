import SignalPatch.Proofs.Reading
import SignalPatch.Proofs.Recovery

/-!
# Progress of the parser

Whatever tokens there are, reading them ends at the first end mark, or where one is put behind the
last token. Positions are counted up to there. A reader that stands at a position stands further on
when it has read, and a fault names the token that stands where it came about; however far it looks
ahead, what stands behind the end mark makes no difference to it (`ReadersStay`). So the loop over
the statements goes forward in each turn, and each turn adds a statement, a finding, or one of each
(`Loops`).
-/

namespace SignalPatch

mutual

theorem Expr.Like.refl : ∀ e : Expr, Expr.Like .same e e
  | .number _ _ => .number rfl trivial
  | .bool _ _ => .bool rfl
  | .text _ _ => .text rfl
  | .ident _ _ => .ident rfl
  | .hole _ => .hole rfl
  | .binary _ a b _ => .binary (Expr.Like.refl a) (Expr.Like.refl b) rfl
  | .call _ args _ => .call (ArgsLike.refl args) rfl trivial
  | .pipe a b _ => .pipe (Expr.Like.refl a) (Expr.Like.refl b) rfl

theorem ArgsLike.refl : ∀ args : List (Arg Expr), ArgsLike .same args args
  | [] => .nil
  | ⟨_, e, _⟩ :: args => .cons (Expr.Like.refl e) rfl (ArgsLike.refl args)

end

/-! ## Positions -/

namespace Grammar

/-- The tokens with an end mark behind them, unless the last one is an end mark. -/
def closed (tokens : List Token) : List Token :=
  if tokens.getLast?.map Token.kind = some .finish then tokens
  else tokens ++ [⟨.finish, (tokens.getLast?.map Token.span).getD .origin⟩]

def finishAt (tokens : List Token) : Nat := (closed tokens).findIdx (·.kind == .finish)

/-- What there is to read at a position. -/
def leftAt (tokens : List Token) (pos : Nat) : List Token := (beforeFinish tokens).drop pos

variable {tokens : List Token} {pos start stop : Nat}

theorem kind_beforeFinish (h : t ∈ beforeFinish tokens) : t.kind ≠ .finish := by
  simpa using List.mem_takeWhile_imp h

theorem find?_beforeFinish (tokens : List Token) :
    (beforeFinish tokens).find? (·.kind == .finish) = none :=
  List.find?_eq_none.mpr fun _ ht => by simpa using kind_beforeFinish ht

theorem closed_eq (tokens : List Token) :
    ∃ more, closed tokens = beforeFinish tokens ++ ⟨.finish, stopSpan tokens⟩ :: more := by
  have hsplit : beforeFinish tokens ++ tokens.dropWhile (·.kind != .finish) = tokens :=
    List.takeWhile_append_dropWhile
  -- There may be no end mark, one at the end, or one with tokens behind it.
  cases hrest : tokens.dropWhile (·.kind != .finish) with
  | nil =>
    rw [hrest, List.append_nil] at hsplit
    have hlast : tokens.getLast?.map Token.kind ≠ some .finish := by
      intro h
      obtain ⟨t, ht, hkind⟩ := Option.map_eq_some_iff.mp h
      exact kind_beforeFinish (hsplit.symm ▸ List.mem_of_getLast? ht) hkind
    have hnone := find?_beforeFinish tokens
    rw [hsplit] at hnone
    exact ⟨[], by rw [closed, if_neg hlast, stopSpan, hnone, hsplit]⟩
  | cons mark rest =>
    rw [hrest] at hsplit
    have hmark : mark.kind = .finish := by
      have := List.head_dropWhile_not (fun t : Token => t.kind != .finish)
        (l := tokens) (by simp [hrest])
      simpa [hrest] using this
    have hfind : tokens.find? (·.kind == .finish) = some mark := by
      rw [← hsplit, List.find?_append, find?_beforeFinish]
      simp [hmark]
    have hstop : (⟨.finish, stopSpan tokens⟩ : Token) = mark := by rw [stopSpan, hfind, ← hmark]
    unfold closed
    split
    · exact ⟨rest, by rw [hstop, hsplit]⟩
    · refine ⟨rest ++ [⟨.finish, (tokens.getLast?.map Token.span).getD .origin⟩], ?_⟩
      rw [hstop, ← List.cons_append, ← List.append_assoc, hsplit]

theorem finishAt_eq (tokens : List Token) : finishAt tokens = (beforeFinish tokens).length := by
  obtain ⟨more, hclosed⟩ := closed_eq tokens
  have hnone : (beforeFinish tokens).findIdx (·.kind == .finish) = (beforeFinish tokens).length :=
    List.findIdx_eq_length.mpr fun _ ht => by simpa using kind_beforeFinish ht
  rw [finishAt, hclosed, List.findIdx_append, hnone, if_neg (Nat.lt_irrefl _), List.findIdx_cons]
  simp

theorem closed_finishAt (tokens : List Token) :
    (closed tokens)[finishAt tokens]? = some ⟨.finish, stopSpan tokens⟩ := by
  obtain ⟨more, hclosed⟩ := closed_eq tokens
  rw [finishAt_eq, hclosed, List.getElem?_append_right (Nat.le_refl _), Nat.sub_self]
  rfl

theorem length_leftAt (tokens : List Token) (pos : Nat) :
    (leftAt tokens pos).length = finishAt tokens - pos := by
  rw [leftAt, List.length_drop, finishAt_eq]

theorem leftAt_getElem? (h : (leftAt tokens pos)[k]? = some t) :
    pos + k < finishAt tokens ∧ (closed tokens)[pos + k]? = some t := by
  obtain ⟨more, hclosed⟩ := closed_eq tokens
  rw [leftAt, List.getElem?_drop] at h
  have hlt := (List.getElem?_eq_some_iff.mp h).1
  rw [finishAt_eq, hclosed, List.getElem?_append_left hlt]
  exact ⟨hlt, h⟩

theorem leftAt_head? (h : pos ≤ finishAt tokens) :
    (closed tokens)[pos]? = some ((leftAt tokens pos).head?.getD ⟨.finish, stopSpan tokens⟩) := by
  cases hleft : leftAt tokens pos with
  | nil =>
    have hlength := length_leftAt tokens pos
    rw [hleft, List.length_nil] at hlength
    have hpos : pos = finishAt tokens := by omega
    rw [hpos]
    exact closed_finishAt tokens
  | cons t rest => exact (leftAt_getElem? (k := 0) (by rw [hleft]; rfl)).2

theorem exists_leftAt (hpos : pos ≤ finishAt tokens) (h : us <:+ leftAt tokens pos) :
    ∃ k, leftAt tokens k = us ∧ pos ≤ k ∧ k + us.length = finishAt tokens := by
  have hlength := h.length_le
  rw [length_leftAt] at hlength
  refine ⟨finishAt tokens - us.length, ?_, by omega, by omega⟩
  conv_rhs => rw [List.suffix_iff_eq_drop.mp h]
  rw [length_leftAt, leftAt, leftAt, List.drop_drop]
  congr 1
  omega

/-- All there is at a position, if `more` stands behind the first end mark. -/
def rowAt (tokens more : List Token) (pos : Nat) : List Token :=
  ((closed tokens).take (finishAt tokens + 1) ++ more).drop pos

theorem take_closed (tokens more : List Token) :
    (closed tokens).take (finishAt tokens + 1) ++ more =
    beforeFinish tokens ++ ⟨.finish, stopSpan tokens⟩ :: more := by
  obtain ⟨behind, hclosed⟩ := closed_eq tokens
  rw [hclosed, finishAt_eq, List.take_length_add_append]
  simp

theorem rowAt_eq (hpos : pos ≤ finishAt tokens) (more : List Token) :
    rowAt tokens more pos = leftAt tokens pos ++ ⟨.finish, stopSpan tokens⟩ :: more := by
  rw [rowAt, take_closed, List.drop_append_of_le_length (finishAt_eq tokens ▸ hpos), leftAt]

/-! ## Readers -/

def Fault.Within (whole : List Token) (f : Fault) : Prop :=
  ∃ us, us <:+ whole ∧ f.found = us.head? ∧ (f.left = us.length ∨ f.left + 1 = us.length)

def Simulation.within (whole : List Token) : Simulation .same where
  strong ts ts' := ts' = ts ∧ ts <:+ whole
  weak ts ts' := ts' = ts ∧ ts <:+ whole
  lost := False
  fault f _ := f.Within whole
  weak_of_strong h := h
  cons := by
    rintro t ts _ ⟨rfl, hsuffix⟩
    exact ⟨t, ts, rfl, .same t, rfl, (List.suffix_cons _ _).trans hsuffix⟩
  stops := by
    rintro _ ⟨rfl, -⟩ t ⟨⟩
  ends := by
    rintro _ _ ⟨rfl, -⟩ t ⟨⟩
  here := by
    rintro ts _ - ⟨rfl, hsuffix⟩ reason -
    exact ⟨_, hsuffix, rfl, .inl rfl⟩
  past := by
    rintro t ts t' ts' - ⟨-, hsuffix⟩ - reason
    exact ⟨_, hsuffix, rfl, .inr rfl⟩
  missing := by
    rintro _ - ⟨rfl, hsuffix⟩
    exact ⟨_, hsuffix, rfl, .inl rfl⟩
  keep _ hf := hf
  skip := by
    rintro ts _ ⟨rfl, hsuffix⟩
    exact ⟨rfl, (List.dropWhile_suffix _).trans hsuffix⟩
  order _ _ _ := trivial
  pipe := by
    rintro _ ts ⟨rfl, hsuffix⟩
    cases hp : pipe? ts with
    | none => exact .inl ⟨rfl, rfl⟩
    | some rest => exact .inr ⟨rest, rest, rfl, rfl, rfl, (pipe?_suffix hp).trans hsuffix⟩

inductive Inside (whole : List Token) : Except Fault (α × List Token) → Prop
  | ok {v : α} {rest : List Token} : rest <:+ whole → Inside whole (.ok (v, rest))
  | fault : f.Within whole → Inside whole (.error f)

theorem Outcome.inside {V : α → α → Prop} {x y : Except Fault (α × List Token)}
    (h : Outcome (Simulation.within whole).fault False E V (Simulation.within whole).weak x y) :
    Inside whole x := by
  cases h with
  | ok _ hrest => exact .ok hrest.2
  | fault hf => exact .fault hf
  | lost h => exact h.elim
  | ended h => exact h.elim

/-- A reader at `pos` takes `least` tokens or more and stands at a later position, or it stops at a
fault, at a token from which or behind which reading will go on. It never gets past the first end
mark. -/
inductive StaysIn (tokens : List Token) (pos least : Nat) : Except Fault (α × List Token) → Prop
  | ok (stop : Nat) : pos + least ≤ stop → stop ≤ finishAt tokens →
      StaysIn tokens pos least (.ok (v, leftAt tokens stop))
  | fault (place resumed : Nat) : pos ≤ place → place ≤ finishAt tokens →
      (closed tokens)[place]? = some (f.found.getD ⟨.finish, stopSpan tokens⟩) →
      (resumed = place ∨ resumed = place + 1) → resumed ≤ finishAt tokens →
      f.left = finishAt tokens - resumed →
      StaysIn tokens pos least (.error f)

theorem Fault.Within.staysIn (hpos : pos ≤ finishAt tokens)
    (h : Fault.Within (leftAt tokens pos) f) :
    StaysIn tokens pos least (.error f : Except Fault (α × List Token)) := by
  obtain ⟨us, hsuffix, hfound, hleft⟩ := h
  obtain ⟨k, hus, hk, hlength⟩ := exists_leftAt hpos hsuffix
  refine .fault k (finishAt tokens - f.left) hk (by omega) ?_ (by omega) (by omega) (by omega)
  rw [leftAt_head? (by omega), hus, hfound]

theorem Inside.staysIn {x : Except Fault (α × List Token)} (h : Inside (leftAt tokens pos) x)
    (hpos : pos ≤ finishAt tokens)
    (hleast : ∀ v rest, x = .ok (v, rest) → rest.length + least ≤ (leftAt tokens pos).length) :
    StaysIn tokens pos least x := by
  cases h with
  | @ok v rest hrest =>
    have hshort := hleast v rest rfl
    obtain ⟨k, rfl, hk, hlength⟩ := exists_leftAt hpos hrest
    rw [length_leftAt, length_leftAt] at hshort
    exact .ok k (by omega) (by omega)
  | fault hf => exact hf.staysIn hpos

theorem Inside.stays {x : Except Fault (α × List Token)} (h : Inside (leftAt tokens pos) x)
    (hpos : pos ≤ finishAt tokens) : StaysIn tokens pos 0 x := by
  refine h.staysIn hpos fun v rest heq => ?_
  subst heq
  cases h with
  | ok hrest => exact hrest.length_le

theorem Inside.advances {x : Reading α (leftAt tokens pos)}
    (h : Inside (leftAt tokens pos) (plain x)) (hpos : pos ≤ finishAt tokens) :
    StaysIn tokens pos 1 (plain x) :=
  h.staysIn hpos fun _ _ heq => plain_length heq

/-- What is read where the tokens end, and where a mark and `more` follow: the same value, or a
fault for the same reason at the same token, which is the mark where there was none. -/
inductive EndsAlike (mark : Token) (more : List Token) :
    Except Fault (α × List Token) → Except Fault (α × List Token) → Prop
  | ok : EndsAlike mark more (.ok (v, rest)) (.ok (v, rest ++ mark :: more))
  | fault : f'.reason = f.reason → f'.built = f.built → f'.found = some (f.found.getD mark) →
      (f'.left = f.left + (more.length + 1) ∨ f.lacksDefault ∧ f'.left = more.length) →
      EndsAlike mark more (.error f) (.error f')

theorem EndsAlike.here (reason : FaultReason) (ts : List Token) : EndsAlike mark more
    (.error (.here reason ts) : Except Fault (α × List Token))
      (.error (.here reason (ts ++ mark :: more))) := by
  refine .fault rfl rfl ?_ (.inl ?_)
  · cases ts <;> rfl
  · simp [Fault.here]

theorem Outcome.endsAlike {V : α → α → Prop} {x y : Except Fault (α × List Token)}
    (hmark : endsReading mark.kind)
    (h : Outcome (Simulation.ofEnd hmark more).fault False E V
      (Simulation.ofEnd hmark more).weak x y)
    (hV : ∀ v v', V v v' → v = v') : EndsAlike mark more x y := by
  cases h with
  | ok hv hrest =>
    cases hV _ _ hv
    cases hrest
    exact .ok
  | @fault f f' hf =>
    refine .fault hf.reason hf.built hf.found ?_
    rw [hf.left]
    cases hlacks : f.lacksDefault with
    | true => exact .inr ⟨rfl, rfl⟩
    | false => exact .inl rfl
  | lost h => exact h.elim
  | ended h => exact h.elim

/-- The reader stays in the bounds, and what stands behind the first end mark makes no difference to
it. -/
structure StaysAt (tokens : List Token) (pos least : Nat)
    (read : List Token → Except Fault (α × List Token)) :
    Prop where
  stays : StaysIn tokens pos least (read (leftAt tokens pos))
  unread : ∀ more, EndsAlike ⟨.finish, stopSpan tokens⟩ more (read (leftAt tokens pos))
    (read (rowAt tokens more pos))

/-- Every reader that stands at `pos` stays in the bounds. No reader expects the end mark itself. -/
structure ReadersStay (tokens : List Token) (pos : Nat) : Prop where
  level : ∀ l : Level, StaysAt tokens pos 1 l.read
  continued : ∀ (l : Level) (e : Expr), StaysAt tokens pos 0 (l.continued e)
  arguments : StaysAt tokens pos 0 fun ts => plain (arguments ts)
  argumentList : StaysAt tokens pos 1 fun ts => plain (argumentList ts)
  argument : StaysAt tokens pos 1 fun ts => plain (argument ts)
  expect : ∀ kind what, kind ≠ .finish → StaysAt tokens pos 1 fun ts => plain (expect kind what ts)
  expectFinish : ∀ what, StaysIn tokens pos 1
    (plain (Grammar.expect .finish what (leftAt tokens pos)))
  expectName : ∀ what, StaysAt tokens pos 1 fun ts => plain (expectName what ts)
  defaultValue : StaysAt tokens pos 1 fun ts => plain (defaultValue ts)
  parameter : StaysAt tokens pos 1 fun ts => plain (parameter ts)
  parameterList : StaysAt tokens pos 1 fun ts => plain (parameterList ts)
  parameters : StaysAt tokens pos 0 fun ts => plain (parameters ts)
  definition : ∀ start, StaysAt tokens pos 1 fun ts => plain (definition start ts)
  statement : StaysAt tokens pos 1 fun ts => plain (statement ts)

theorem expect_inside (kind : TokenKind) (what : Expectation) (ts : List Token) :
    Inside ts (plain (expect kind what ts)) := by
  cases ts with
  | nil => exact .fault ⟨[], List.suffix_refl _, rfl, .inl rfl⟩
  | cons t ts =>
    rw [expect]
    split
    · exact .ok (List.suffix_cons t ts)
    · exact .fault ⟨t :: ts, List.suffix_refl _, rfl, .inl rfl⟩

theorem expectName_inside (what : Expectation) (ts : List Token) :
    Inside ts (plain (expectName what ts)) := by
  unfold expectName
  split
  · exact .ok (List.suffix_cons _ _)
  · exact .fault ⟨_, List.suffix_refl _, rfl, .inl rfl⟩

theorem Level.read_inside (l : Level) (ts : List Token) : Inside ts (l.read ts) :=
  (Simulation.read_like (S := .within ts) l ts ⟨rfl, List.suffix_refl ts⟩).inside

theorem statement_inside (ts : List Token) : Inside ts (plain (statement ts)) := by
  have hself : (Simulation.within ts).weak ts ts := ⟨rfl, List.suffix_refl _⟩
  cases ts with
  | nil =>
    rw [plain_statement_other rfl]
    exact ((Simulation.read_like .expr [] hself).map fun _ _ he => Statement.Like.expr he).inside
  | cons t ts => exact (Simulation.statement_like hself).inside

theorem expect_endsAlike (hkind : kind ≠ mark.kind) (what : Expectation) (ts more : List Token) :
    EndsAlike mark more (plain (expect kind what ts))
      (plain (expect kind what (ts ++ mark :: more))) := by
  cases ts with
  | nil =>
    rw [List.nil_append, expect, expect, if_neg hkind.symm]
    exact .here _ []
  | cons t ts =>
    rw [List.cons_append, expect, expect]
    split
    · exact .ok
    · exact .here _ (t :: ts)

theorem expectName_endsAlike (hmark : endsReading mark.kind) (what : Expectation)
    (ts more : List Token) :
    EndsAlike mark more (plain (expectName what ts))
      (plain (expectName what (ts ++ mark :: more))) := by
  have hother : ∀ t : Token, (∀ name, t.kind ≠ .ident name) → ∀ rest,
      plain (expectName what (t :: rest)) = .error (.here (.expected what) (t :: rest)) := by
    rintro ⟨kind, span⟩ hkind rest
    cases kind with
    | ident name => exact absurd rfl (hkind name)
    | _ => rfl
  cases ts with
  | nil =>
    rw [List.nil_append, hother mark fun name => Simulation.ne_of_endsReading hmark rfl]
    exact .here _ []
  | cons t ts =>
    by_cases hkind : ∀ name, t.kind ≠ .ident name
    · rw [List.cons_append, hother t hkind, hother t hkind]
      exact .here _ (t :: ts)
    · obtain ⟨kind, span⟩ := t
      obtain ⟨name, rfl⟩ := not_forall_not.mp hkind
      exact .ok

theorem statement_endsAlike (hmark : endsReading mark.kind) (ts more : List Token) :
    EndsAlike mark more (plain (statement ts)) (plain (statement (ts ++ mark :: more))) := by
  cases ts with
  | nil =>
    have hfn : after .keywordFn (mark :: more) = none :=
      if_neg (Simulation.ne_of_endsReading hmark rfl)
    have hlabel : label? .equals (mark :: more) = none := by
      obtain ⟨kind, span⟩ := mark
      cases kind with
      | semicolon | finish => rfl
      | _ => cases hmark
    rw [List.nil_append, plain_statement_other rfl, plain_statement_other hfn, hlabel]
    have hread := Simulation.read_like (S := .ofEnd hmark more) .expr [] rfl
    exact (hread.map fun _ _ he => Statement.Like.expr he).endsAlike hmark fun _ _ hs => hs.eq
  | cons t ts => exact (statement_before_end hmark t ts more).endsAlike hmark fun _ _ hs => hs.eq

theorem Outcome.loose {S : Simulation L} (h : S.Alike V x y) : S.Loose V x y := by
  cases h with
  | ok hv hrest => exact .ok hv (S.weak_of_strong hrest)
  | fault hf => exact .fault hf
  | lost h => exact .lost h
  | ended h hE => exact hE.elim

/-- A reader stays if it goes the same way on any two lists that are read alike: on what is left and
itself, and on what is left and all there could be behind it. -/
theorem StaysAt.of_like {read : List Token → Except Fault (α × List Token)} {V : α → α → Prop}
    (hpos : pos ≤ finishAt tokens)
    (hlike : ∀ {S : Simulation .same} {ts' : List Token}, S.strong (leftAt tokens pos) ts' →
      S.Loose V (read (leftAt tokens pos)) (read ts'))
    (hV : ∀ v v', V v v' → v = v')
    (hstays : Inside (leftAt tokens pos) (read (leftAt tokens pos)) →
      StaysIn tokens pos least (read (leftAt tokens pos))) :
    StaysAt tokens pos least read := by
  have hmark : endsReading (⟨.finish, stopSpan tokens⟩ : Token).kind := rfl
  refine ⟨hstays (hlike (S := .within _) ⟨rfl, List.suffix_refl _⟩).inside, fun more => ?_⟩
  exact (hlike (S := .ofEnd hmark more) (rowAt_eq hpos more)).endsAlike hmark hV

theorem readersStay (hpos : pos ≤ finishAt tokens) : ReadersStay tokens pos := by
  constructor
  case level =>
    refine fun l => .of_like hpos (fun h => ?_) (fun _ _ => Expr.Like.eq) fun h =>
      h.staysIn hpos fun _ _ => Level.read_length
    exact (Simulation.read_like l _ (Simulation.weak_of_strong _ h)).loose
  case continued =>
    refine fun l e => .of_like hpos (fun h => ?_) (fun _ _ => Expr.Like.eq) (·.stays hpos)
    exact (Simulation.continued_like l _ (.refl e) h).loose
  case arguments =>
    exact .of_like hpos (fun h => Simulation.arguments_like (Simulation.weak_of_strong _ h))
      (fun _ _ => ArgsLike.eq) (·.stays hpos)
  case argumentList =>
    exact .of_like hpos (fun h => Simulation.argumentList_like (Simulation.weak_of_strong _ h))
      (fun _ _ => ArgsLike.eq) (·.advances hpos)
  case argument =>
    exact .of_like hpos (fun h => (Simulation.argument_like (Simulation.weak_of_strong _ h)).loose)
      (fun _ _ => Arg.Like.eq) (·.advances hpos)
  case defaultValue =>
    refine .of_like hpos (fun h => (Simulation.defaultValue_like h).loose) ?_ (·.advances hpos)
    rintro p p' ⟨hvalue, hspan, -⟩
    exact Prod.ext hvalue.symm hspan
  case parameter =>
    exact .of_like hpos (fun h => (Simulation.parameter_like (Simulation.weak_of_strong _ h)).loose)
      (fun _ _ => Parameter.Like.eq) (·.advances hpos)
  case parameterList =>
    exact .of_like hpos (fun h => Simulation.parameterList_like (Simulation.weak_of_strong _ h))
      (fun _ _ => parameters_eq) (·.advances hpos)
  case parameters =>
    exact .of_like hpos (fun h => Simulation.parameters_like (Simulation.weak_of_strong _ h))
      (fun _ _ => parameters_eq) (·.stays hpos)
  case definition =>
    refine fun start => .of_like hpos (fun h => ?_) (fun _ _ => Statement.Like.eq) (·.advances hpos)
    exact (Simulation.definition_like rfl (Simulation.weak_of_strong _ h)).loose
  -- What is said of lists that are read alike does not cover these where no token is left.
  case expect =>
    refine fun kind what hkind => ⟨(expect_inside kind what _).advances hpos, fun more => ?_⟩
    exact rowAt_eq hpos more ▸ expect_endsAlike hkind what _ more
  case expectFinish => exact fun what => (expect_inside .finish what _).advances hpos
  case expectName =>
    refine fun what => ⟨(expectName_inside what _).advances hpos, fun more => ?_⟩
    exact rowAt_eq hpos more ▸ expectName_endsAlike rfl what _ more
  case statement =>
    refine ⟨(statement_inside _).advances hpos, fun more => ?_⟩
    exact rowAt_eq hpos more ▸ statement_endsAlike rfl _ more

end Grammar

/-! ## The loop over the statements -/

def Parsed.pass (stop : Span) (p : Parsed) (turn : Grammar.Turn) : Parsed :=
  ⟨p.patch.addTurn turn, p.findings ++ (turn.finding? stop).toList⟩

inductive Parsed.Adds (p p' : Parsed) : Prop
  | statement (id : NodeId) : p'.patch.statements = p.patch.statements ++ [id] →
      p'.findings = p.findings → Adds p p'
  | finding (f : Finding) : p'.patch.statements = p.patch.statements →
      p'.findings = p.findings ++ [f] → Adds p p'
  | both (id : NodeId) (f : Finding) : p'.patch.statements = p.patch.statements ++ [id] →
      p'.findings = p.findings ++ [f] → Adds p p'

theorem Parsed.adds_pass (stop : Span) (p : Parsed) (turn : Grammar.Turn) :
    p.Adds (p.pass stop turn) := by
  cases turn with
  | complete s => exact .statement _ rfl (List.append_nil _)
  | trailing s next => exact .both _ _ rfl rfl
  | abandoned fault => exact .finding _ rfl rfl

namespace Grammar

/-- The turn of the statement at `start`, and where the next one begins: at the first separator from
where the statement ended or was given up. -/
inductive TurnAt (tokens : List Token) (start : Nat) : Turn → Nat → Prop
  | read (stop : Nat) : plain (statement (leftAt tokens start)) = .ok (s, leftAt tokens stop) →
      start < stop →
      stop ≤ finishAt tokens → leftAt tokens next = skipStatement (leftAt tokens stop) →
      TurnAt tokens start (finished s (leftAt tokens stop)) next
  | abandoned (resumed : Nat) : plain (statement (leftAt tokens start)) = .error f →
      start ≤ resumed → resumed ≤ finishAt tokens → f.left = finishAt tokens - resumed →
      leftAt tokens next = skipStatement (leftAt tokens resumed) →
        TurnAt tokens start (.abandoned f) next

/-- The loop from `pos` on takes `n` turns. It passes the separators before each statement, and is
further on after it; it ends where nothing but separators is left. -/
inductive Loops (tokens : List Token) : Nat → Parsed → Nat → Parsed → Prop
  | done : (leftAt tokens pos).dropWhile isSeparator = [] → Loops tokens pos p 0 p
  | turn (start next : Nat) : leftAt tokens start = (leftAt tokens pos).dropWhile isSeparator →
      pos ≤ start → TurnAt tokens start turn next → start < next → next ≤ finishAt tokens →
      p.Adds (p.pass (stopSpan tokens) turn) →
      Loops tokens next (p.pass (stopSpan tokens) turn) n p' →
      Loops tokens pos p (n + 1) p'

theorem Loops.le (h : Loops tokens pos p n p') (hpos : pos ≤ finishAt tokens) :
    pos + n ≤ finishAt tokens := by
  induction h with
  | done => exact hpos
  | turn start next _ _ _ _ hnext _ _ ih =>
    have := ih hnext
    omega

theorem exists_next (hpos : pos ≤ finishAt tokens) :
    ∃ next, leftAt tokens next = skipStatement (leftAt tokens pos) ∧ pos ≤ next ∧
      next ≤ finishAt tokens := by
  obtain ⟨next, hnext, hle, hlength⟩ := exists_leftAt hpos (List.dropWhile_suffix (!isSeparator ·))
  exact ⟨next, hnext, hle, by omega⟩

theorem resume_leftAt (hpos : pos ≤ resumed) (hresumed : resumed ≤ finishAt tokens) :
    resume (leftAt tokens pos) (finishAt tokens - resumed) =
      skipStatement (leftAt tokens resumed) := by
  rw [resume, length_leftAt, leftAt, leftAt, List.drop_drop]
  congr 2
  omega

theorem exists_turnAt (hstart : start ≤ finishAt tokens)
    (hdrop : ts.dropWhile isSeparator = t :: rest) (hleft : leftAt tokens start = t :: rest) :
    ∃ turn next, TurnAt tokens start turn next ∧ start < next ∧
      next ≤ finishAt tokens ∧ turns ts = turn :: turns (leftAt tokens next) := by
  have hstays := (readersStay hstart).statement.stays
  cases hread : plain (statement (leftAt tokens start)) with
  | ok p =>
    rw [hread] at hstays
    cases hstays with
    | ok stop hstop hle =>
      obtain ⟨next, hnext, hlt, hfinish⟩ := exists_next hle
      refine ⟨_, next, .read stop hread hstop hle hnext, by omega, hfinish, ?_⟩
      rw [turns_read hdrop (hleft ▸ hread), hnext]
  | error f =>
    rw [hread] at hstays
    cases hstays with
    | fault place resumed hplace _ _ hresumed hle hf =>
      have hbehind : start ≤ resumed := by omega
      obtain ⟨next, hnext, _, hfinish⟩ := exists_next hle
      have hresume := resume_leftAt hbehind hle
      -- Reading may go on at the token where it began, but that is no separator.
      have hshort : (leftAt tokens next).length < (leftAt tokens start).length := by
        rw [hnext, ← hresume, hleft]
        exact resume_length_lt rest _ (head_dropWhile_separator hdrop)
      rw [length_leftAt, length_leftAt] at hshort
      refine ⟨_, next, .abandoned resumed hread hbehind hle hf hnext, by omega, hfinish, ?_⟩
      rw [turns_fault hdrop (hleft ▸ hread), hnext, ← hresume, ← hf, hleft]

theorem loops_turns (p : Parsed) (hpos : pos ≤ finishAt tokens) :
    ∃ n, Loops tokens pos p n
      ((turns (leftAt tokens pos)).foldl (Parsed.pass (stopSpan tokens)) p) := by
  obtain ⟨start, hstart, hle, hlength⟩ := exists_leftAt hpos (List.dropWhile_suffix isSeparator)
  cases hdrop : (leftAt tokens pos).dropWhile isSeparator with
  | nil =>
    rw [turns_done hdrop]
    exact ⟨0, .done hdrop⟩
  | cons t rest =>
    obtain ⟨turn, next, hturn, hlt, hfinish, hturns⟩ :=
      exists_turnAt (by omega) hdrop (hstart.trans hdrop)
    obtain ⟨n, hloops⟩ := loops_turns (p.pass (stopSpan tokens) turn) hfinish
    rw [hturns]
    exact ⟨n + 1, .turn start next hstart hle hturn hlt hfinish (p.adds_pass _ _) hloops⟩
termination_by finishAt tokens - pos

theorem foldl_pass (stop : Span) (read : List Turn) (p : Parsed) : read.foldl (Parsed.pass stop) p =
    ⟨read.foldl Patch.addTurn p.patch, p.findings ++ read.filterMap (Turn.finding? stop)⟩ := by
  induction read generalizing p with
  | nil => simp
  | cons turn read ih =>
    rw [List.foldl_cons, ih, List.foldl_cons, List.filterMap_cons]
    cases hfinding : turn.finding? stop <;> simp [Parsed.pass, hfinding]

/-! ## Whole token lists -/

theorem parse_closed (tokens more : List Token) :
    parse ((closed tokens).take (finishAt tokens + 1) ++ more) = parse tokens := by
  have hread : beforeFinish (beforeFinish tokens ++ ⟨.finish, stopSpan tokens⟩ :: more) =
      beforeFinish tokens := by
    conv_lhs =>
      rw [beforeFinish,
        List.takeWhile_append_of_pos fun _ ht => by simpa using kind_beforeFinish ht]
    simp
  have hstop : stopSpan (beforeFinish tokens ++ ⟨.finish, stopSpan tokens⟩ :: more) =
      stopSpan tokens := by
    conv_lhs => rw [stopSpan, List.find?_append, find?_beforeFinish]
    rfl
  rw [take_closed, parse, hread, hstop, parse]

structure ParsesInBounds (tokens : List Token) : Prop where
  /-- There is a first end mark. -/
  finish : (closed tokens)[finishAt tokens]? = some ⟨.finish, stopSpan tokens⟩
  /-- The token `k` places behind a reader stands before that mark. -/
  sees : ∀ pos k t, (leftAt tokens pos)[k]? = some t →
    pos + k < finishAt tokens ∧ (closed tokens)[pos + k]? = some t
  readers : ∀ pos ≤ finishAt tokens, ReadersStay tokens pos
  loop : ∃ n ≤ finishAt tokens, Loops tokens 0 ⟨.empty, []⟩ n (parse tokens)
  unread : ∀ more, parse ((closed tokens).take (finishAt tokens + 1) ++ more) = parse tokens

theorem parse_stays_in_bounds (tokens : List Token) : ParsesInBounds tokens where
  finish := closed_finishAt tokens
  sees _ _ _ h := leftAt_getElem? h
  readers _ hpos := readersStay hpos
  loop := by
    obtain ⟨n, hloops⟩ := loops_turns ⟨.empty, []⟩ (Nat.zero_le (finishAt tokens))
    rw [foldl_pass] at hloops
    have hn := hloops.le (Nat.zero_le _)
    exact ⟨n, by omega, hloops⟩
  unread := parse_closed tokens

end Grammar

end SignalPatch
