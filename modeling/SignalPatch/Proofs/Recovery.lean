import Mathlib.Data.List.TakeWhile
import SignalPatch.Proofs.Linking

/-!
# Going on after a fault

Before a semicolon a statement is read as it is at the end of the tokens, and if it is given up
there, reading goes on behind the semicolon. So what stands on both sides of a semicolon is read as
it would be alone. There is one exception: where a default value is missing, the semicolon is taken
for it, and the statement behind it is lost as well.
-/

namespace SignalPatch

namespace Grammar

variable {mark : Token}

/-! ## Faults before the end of a statement -/

def Fault.lacksDefault (f : Fault) : Bool := f.reason = .expected .defaultValue && f.found.isNone

/-- The second fault is the first one before a mark with `n` more tokens behind it. Where a default
value is missing, the mark is taken too. -/
structure Fault.Before (mark : Token) (n : Nat) (f f' : Fault) : Prop where
  reason : f'.reason = f.reason
  built : f'.built = f.built
  found : f'.found = some (f.found.getD mark)
  left : f'.left = if f.lacksDefault then n else f.left + (n + 1)
  ended : f.found = none → f.left = 0

theorem Fault.lacksDefault_here {reason : FaultReason} (h : reason ≠ .expected .defaultValue)
    (ts : List Token) :
    (Fault.here reason ts).lacksDefault = false := by
  simp [lacksDefault, here, h]

theorem eq_of_forall₂_same (h : List.Forall₂ (Expr.Like .same) es es') : es' = es := by
  have heq := h.imp fun _ _ he => he.eq
  rw [List.forall₂_eq_eq_eq] at heq
  exact heq.symm

theorem skipNewlines_before_end (ts : List Token) (hmark : endsReading mark.kind)
    (more : List Token) :
    skipNewlines (ts ++ mark :: more) = skipNewlines ts ++ mark :: more := by
  have hnewline : mark.kind ≠ .newline := Simulation.ne_of_endsReading hmark rfl
  rw [skipNewlines_append]
  split
  · rename_i hnil
    rw [hnil, skipNewlines, List.dropWhile_cons_of_neg (by simpa using hnewline)]
    rfl
  · rfl

/-- A semicolon or an end mark ends what stands before it like the end of the tokens. -/
def Simulation.ofEnd (hmark : endsReading mark.kind) (more : List Token) : Simulation .same where
  strong ts ts' := ts' = ts ++ mark :: more
  weak ts ts' := ts' = ts ++ mark :: more
  lost := False
  fault := Fault.Before mark more.length
  weak_of_strong h := h
  cons := by
    rintro t ts _ rfl
    exact ⟨t, _, rfl, .same t, rfl⟩
  stops := by
    rintro _ rfl t ⟨⟩
    simp [stopsReading, hmark]
  ends := by
    rintro _ _ rfl t ⟨⟩
    exact hmark
  here := by
    rintro ts _ _ rfl reason hreason
    refine ⟨rfl, rfl, ?_, ?_, fun hnone => ?_⟩
    · cases ts <;> rfl
    · rw [Fault.lacksDefault_here hreason]
      simp [Fault.here]
    · simpa [Fault.here] using hnone
  past := by
    rintro t ts t' _ _ ⟨⟩ - reason
    exact ⟨rfl, rfl, rfl, by simp [Fault.lacksDefault], by simp⟩
  missing := by
    rintro _ _ rfl
    exact ⟨rfl, rfl, rfl, by simp [Fault.lacksDefault, Fault.here], fun _ => rfl⟩
  keep hbefore hf := by
    refine ⟨hf.reason, ?_, hf.found, hf.left, hf.ended⟩
    simp only [Fault.keep, eq_of_forall₂_same hbefore, hf.built]
  skip := by
    rintro ts _ rfl
    exact skipNewlines_before_end ts hmark more
  order _ _ _ := trivial
  pipe := by
    rintro ts _ rfl
    rw [pipe?_eq, pipe?_eq, skipNewlines_before_end ts hmark]
    cases skipNewlines ts with
    | nil => exact .inl ⟨rfl, if_neg (Simulation.ne_of_endsReading hmark rfl)⟩
    | cons t rest =>
      simp only [List.cons_append, after]
      split
      · exact .inr ⟨_, _, rfl, rfl, rfl⟩
      · exact .inl ⟨rfl, rfl⟩

theorem statement_before_end (hmark : endsReading mark.kind) (t : Token) (ts more : List Token) :
    (Simulation.ofEnd hmark more).Alike (Statement.Like .same) (plain (statement (t :: ts)))
      (plain (statement (t :: ts ++ mark :: more))) :=
  Simulation.statement_like (S := .ofEnd hmark more) rfl

/-! ## Turns before a semicolon -/

def Turn.lacksDefault : Turn → Bool
  | .abandoned f => f.lacksDefault
  | _ => false

/-- The tokens end in a parameter that has no default value behind its equals sign. -/
def LacksDefault (ts : List Token) : Prop := (turns ts).any Turn.lacksDefault

instance (ts : List Token) : Decidable (LacksDefault ts) := inferInstanceAs (Decidable (_ = true))

/-- What is still read of the tokens `ts` when a semicolon and they follow `before`. -/
def stillRead (before ts : List Token) : List Token :=
  if LacksDefault before then skipStatement ts else ts

inductive Turn.Agrees : Turn → Turn → Prop
  | refl : Turn.Agrees t t
  | abandoned : f'.reason = f.reason → f'.built = f.built →
      Turn.Agrees (.abandoned f) (.abandoned f')

theorem skipStatement_append (ts : List Token) (hsep : isSeparator sep) (more : List Token) :
    skipStatement (ts ++ sep :: more) = skipStatement ts ++ sep :: more := by
  unfold skipStatement
  rw [List.dropWhile_append]
  split
  · rename_i hempty
    rw [List.isEmpty_iff.mp hempty, List.nil_append, List.dropWhile_cons_of_neg (by simp [hsep])]
  · rfl

theorem resume_append (ts : List Token) (hsep : isSeparator sep) (more : List Token) (left : Nat) :
    resume (ts ++ sep :: more) (left + (more.length + 1)) = resume ts left ++ sep :: more := by
  have hdrop : (ts ++ sep :: more).length - (left + (more.length + 1)) = ts.length - left := by
    simp only [List.length_append, List.length_cons]
    omega
  rw [resume, resume, hdrop, List.drop_append_of_le_length (Nat.sub_le _ _),
    skipStatement_append _ hsep]

theorem resume_taken (ts : List Token) (sep : Token) (more : List Token) :
    resume (ts ++ sep :: more) more.length = skipStatement more := by
  have hdrop : (ts ++ sep :: more).length - more.length = (ts ++ [sep]).length := by
    simp only [List.length_append, List.length_cons, List.length_nil]
    omega
  rw [resume, hdrop, List.append_cons ts sep more, List.drop_left]

theorem resume_zero (ts : List Token) : resume ts 0 = [] := by
  simp [resume, skipStatement]

theorem turns_nil : turns [] = [] := turns_done rfl

theorem turns_separator (hsep : isSeparator sep) (ts : List Token) : turns (sep :: ts) = turns ts :=
  turns_congr (List.dropWhile_cons_of_pos hsep)

theorem stillRead_of_turns (hlast : turns before = turn :: turns rest)
    (hturn : turn.lacksDefault = false) (ts : List Token) :
    stillRead before ts = stillRead rest ts := by
  have hlacks : LacksDefault before ↔ LacksDefault rest := by
    simp only [LacksDefault, hlast, List.any_cons, hturn, Bool.false_or]
  simp only [stillRead, hlacks]

theorem turns_semicolon (hmark : mark.kind = .semicolon) (ts more : List Token) :
    ∃ read, List.Forall₂ Turn.Agrees (turns ts) read ∧
      turns (ts ++ mark :: more) = read ++ turns (stillRead ts more) := by
  have hsep : isSeparator mark := by simp [isSeparator, hmark]
  cases hts : ts.dropWhile isSeparator with
  | nil =>
    have hnone : turns ts = [] := turns_done hts
    refine ⟨[], by rw [hnone]; exact .nil, ?_⟩
    have hrest : stillRead ts more = more := by simp [stillRead, LacksDefault, hnone]
    rw [hrest, List.nil_append, ← turns_separator hsep more]
    apply turns_congr
    rw [List.dropWhile_append, hts]
    rfl
  | cons t rest =>
    have ht := head_dropWhile_separator hts
    have hle : (t :: rest).length ≤ ts.length := hts ▸ (List.dropWhile_sublist _).length_le
    have hts' : (ts ++ mark :: more).dropWhile isSeparator = t :: (rest ++ mark :: more) := by
      rw [List.dropWhile_append, hts]
      rfl
    have hlike := statement_before_end (by rw [hmark]; rfl) t rest more
    cases hs : plain (statement (t :: rest)) with
    | ok p =>
      obtain ⟨s, rest'⟩ := p
      have hlt := plain_length hs
      have hskip := skipStatement_length_le rest'
      rw [hs] at hlike
      generalize hs' : plain (statement (t :: rest ++ mark :: more)) = out at hlike
      cases hlike with
      | ended h => exact h.elim
      | ok hstatement hrest' =>
        obtain rfl := hstatement.eq
        subst hrest'
        obtain ⟨read, hagrees, hturns⟩ := turns_semicolon hmark (skipStatement rest') more
        have hhead : turns ts = finished s rest' :: turns (skipStatement rest') := turns_read hts hs
        refine ⟨finished s rest' :: read, hhead ▸ .cons .refl hagrees, ?_⟩
        have hturn : (finished s rest').lacksDefault = false := by
          cases rest' with
          | nil => rfl
          | cons => simp only [finished]; split <;> rfl
        rw [stillRead_of_turns hhead hturn, turns_read hts' hs', finished_append s rest' hsep,
          skipStatement_append rest' hsep, hturns, List.cons_append]
    | error f =>
      have hlt := resume_length_lt rest f.left ht
      rw [hs] at hlike
      generalize hs' : plain (statement (t :: rest ++ mark :: more)) = out at hlike
      have hhead : turns ts = .abandoned f :: turns (resume (t :: rest) f.left) :=
        turns_fault hts hs
      cases hlike with
      | lost h => exact h.elim
      | @fault _ f' hf =>
        have hhead' := turns_fault hts' hs'
        have hagree : Turn.Agrees (.abandoned f) (.abandoned f') := .abandoned hf.reason hf.built
        rw [hf.left] at hhead'
        cases hlacks : f.lacksDefault with
        | false =>
          obtain ⟨read, hagrees, hturns⟩ := turns_semicolon hmark (resume (t :: rest) f.left) more
          refine ⟨.abandoned f' :: read, hhead ▸ .cons hagree hagrees, ?_⟩
          rw [hlacks, if_neg Bool.false_ne_true] at hhead'
          rw [stillRead_of_turns hhead hlacks, hhead', ← List.cons_append,
            resume_append _ hsep, hturns, List.cons_append]
        | true =>
          -- nothing is left before the semicolon, and the semicolon itself is taken
          have hfound : f.found = none := by simp_all [Fault.lacksDefault]
          have hlast : turns ts = [.abandoned f] := by
            rw [hhead, hf.ended hfound, resume_zero, turns_nil]
          have hrest : stillRead ts more = skipStatement more := by
            simp [stillRead, LacksDefault, hlast, Turn.lacksDefault, hlacks]
          refine ⟨[.abandoned f'], hlast ▸ .cons hagree .nil, ?_⟩
          rw [hlacks, if_pos rfl] at hhead'
          rw [hrest, hhead', ← List.cons_append, resume_taken]
          rfl
termination_by ts.length

end Grammar

/-! ## Programs on both sides of a semicolon -/

open Grammar

theorem Patch.addTurn_agrees (h : Turn.Agrees t t') (p : Patch) : p.addTurn t' = p.addTurn t := by
  cases h with
  | refl => rfl
  | abandoned _ hbuilt => simp only [Patch.addTurn, hbuilt]

theorem Patch.foldl_agrees (h : List.Forall₂ Turn.Agrees ts ts') (p : Patch) :
    ts'.foldl Patch.addTurn p = ts.foldl Patch.addTurn p := by
  induction h generalizing p with
  | nil => rfl
  | cons ht _ ih => rw [List.foldl_cons, List.foldl_cons, Patch.addTurn_agrees ht, ih]

def Finding.code (f : Finding) : String := f.issue.code

theorem Grammar.Fault.code_finding (h : f'.reason = f.reason) (stop stop' : Span) :
    (Fault.finding stop' f').code = (Fault.finding stop f).code := by
  simp only [Finding.code, Fault.finding, h]
  cases f.reason <;> rfl

theorem Grammar.Turn.Agrees.code (h : Turn.Agrees t t') (stop stop' : Span) :
    (t'.finding? stop').map Finding.code = (t.finding? stop).map Finding.code := by
  cases h with
  | refl =>
    cases t with
    | complete => rfl
    | trailing => rfl
    | abandoned f => exact congrArg some (Fault.code_finding rfl stop stop')
  | abandoned hreason _ => exact congrArg some (Fault.code_finding hreason stop stop')

theorem Grammar.codes_agree (h : List.Forall₂ Turn.Agrees ts ts') (stop stop' : Span) :
    (ts'.filterMap (Turn.finding? stop')).map Finding.code =
      (ts.filterMap (Turn.finding? stop)).map Finding.code := by
  simp only [List.map_filterMap]
  induction h with
  | nil => rfl
  | cons ht _ ih => simp only [List.filterMap_cons, ht.code stop stop', ih]

/-- One result of parsing is another and then a third: the nodes and the statements of the third
come behind those of the second, with larger numbers, and so do the codes of its findings. -/
structure Parsed.Joins (whole first second : Parsed) : Prop where
  patch : whole.patch = first.patch.join second.patch ⟨0, 0⟩
  codes : whole.findings.map Finding.code = first.findings.map Finding.code ++
    second.findings.map Finding.code

theorem Token.Like.unmoved (ts : List Token) : List.Forall₂ (Token.Like (.moved ⟨0, 0⟩)) ts ts := by
  induction ts with
  | nil => exact .nil
  | cons t ts ih =>
    exact .cons ⟨rfl, rfl, fun _ => rfl, fun _ => trivial, fun _ => trivial, fun _ => trivial⟩ ih

theorem Patch.foldl_join (ts : List Token) (p : Patch) :
    (turns ts).foldl Patch.addTurn p = p.join ((turns ts).foldl Patch.addTurn .empty) ⟨0, 0⟩ :=
  ((Patch.Like.empty _ p).foldl (turns_like (Token.Like.unmoved ts))).eq_join

theorem Grammar.beforeFinish_eq {ts : List Token} (h : ∀ t ∈ ts, t.kind ≠ .finish) :
    beforeFinish ts = ts := by
  refine List.takeWhile_eq_self_iff.mpr fun t ht => ?_
  simpa using h t ht

theorem Grammar.mem_stillRead (h : t ∈ stillRead before ts) : t ∈ ts := by
  unfold stillRead at h
  split at h
  · exact (List.dropWhile_sublist _).subset h
  · exact h

/-- What stands before a semicolon and what stands behind it are read as they would be alone, errors
or not; but where the first lacks a default value at its end, the statement behind the semicolon is
not read. -/
theorem parse_joins (before ts : List Token) (mark : Token) (hmark : mark.kind = .semicolon)
    (hbefore : ∀ t ∈ before, t.kind ≠ .finish) (hts : ∀ t ∈ ts, t.kind ≠ .finish) :
    (parse (before ++ mark :: ts)).Joins (parse before) (parse (stillRead before ts)) := by
  have hall : ∀ t ∈ before ++ mark :: ts, t.kind ≠ .finish := by
    intro t ht
    rcases List.mem_append.mp ht with ht | ht
    · exact hbefore t ht
    · rcases List.mem_cons.mp ht with rfl | ht
      · simp [hmark]
      · exact hts t ht
  obtain ⟨read, hagrees, hturns⟩ := turns_semicolon hmark before ts
  simp only [parse, beforeFinish_eq hall, beforeFinish_eq hbefore,
    beforeFinish_eq fun t ht => hts t (mem_stillRead ht), hturns]
  refine ⟨?_, ?_⟩
  · dsimp only
    rw [List.foldl_append, Patch.foldl_agrees hagrees, Patch.foldl_join]
  · dsimp only
    have hsame : List.Forall₂ Turn.Agrees (turns (stillRead before ts))
        (turns (stillRead before ts)) :=
      List.forall₂_same.mpr fun _ _ => .refl
    rw [List.filterMap_append, List.map_append]
    exact congrArg₂ (· ++ ·) (codes_agree hagrees _ _) (codes_agree hsame _ _)

def unplaced (kinds : List TokenKind) : List Token := kinds.map (⟨·, .origin⟩)

def unclosedSum : List Token :=
  unplaced [.ident "y", .equals, .openParen, .hole, .plus, .newline, .minus]

def assignment : List Token := unplaced [.ident "x", .equals, .keywordTrue]

def semicolon : Token := ⟨.semicolon, .origin⟩

theorem unclosedSum_joins :
    ((∀ t ∈ unclosedSum, t.kind ≠ .finish) ∧ ∀ t ∈ assignment, t.kind ≠ .finish) ∧
      (parse (unclosedSum ++ semicolon :: assignment)).Joins (parse unclosedSum)
        (parse (stillRead unclosedSum assignment)) ∧
      stillRead unclosedSum assignment = assignment := by
  have hsum : ∀ t ∈ unclosedSum, t.kind ≠ .finish := by decide
  have hassignment : ∀ t ∈ assignment, t.kind ≠ .finish := by decide
  exact ⟨⟨hsum, hassignment⟩, parse_joins unclosedSum assignment semicolon rfl hsum hassignment,
    if_neg (by decide +kernel)⟩

def missingDefault : List Token :=
  unplaced [.keywordFn, .ident "f", .openParen, .ident "a", .equals]

/-- The assignment behind the semicolon is lost. -/
theorem missingDefault_not_joins :
    ((∀ t ∈ missingDefault, t.kind ≠ .finish) ∧ ∀ t ∈ assignment, t.kind ≠ .finish) ∧
      ¬ (parse (missingDefault ++ semicolon :: assignment)).Joins (parse missingDefault)
        (parse assignment) := by
  refine ⟨⟨by decide, by decide⟩, fun h => ?_⟩
  have hcount := congrArg (fun p => p.statements.length) h.patch
  revert hcount
  decide +kernel

end SignalPatch
