import SignalPatch.Patch
import SignalPatch.Proofs.Simulation

/-!
# Like tokens make like patches

Token lists of the same kinds, with spans that correspond, are read to the same turns and stored as
the same nodes. The nodes of the second patch may come behind others; the numbers in them are then
larger.
-/

namespace SignalPatch

/-! ## Turns -/

def Likeness.Ordered (L : Likeness) (ts : List Token) : Prop :=
  ts.Pairwise fun t u => L.order t.span u.span

namespace Grammar

inductive Turn.Like (L : Likeness) : Turn → Turn → Prop
  | complete : s.Like L s' → Turn.Like L (.complete s) (.complete s')
  | trailing : s.Like L s' → t.Like L t' → Turn.Like L (.trailing s t) (.trailing s' t')
  | abandoned : f.Like L f' → Turn.Like L (.abandoned f) (.abandoned f')

variable {L : Likeness}

theorem dropWhile_like (p : TokenKind → Bool) (h : List.Forall₂ (Token.Like L) ts ts') :
    List.Forall₂ (Token.Like L) (ts.dropWhile (p ·.kind)) (ts'.dropWhile (p ·.kind)) := by
  induction h with
  | nil => exact .nil
  | cons ht hts ih =>
    simp only [List.dropWhile_cons, ht.kind]
    split
    · exact ih
    · exact .cons ht hts

theorem skipNewlines_like (h : List.Forall₂ (Token.Like L) ts ts') :
    List.Forall₂ (Token.Like L) (skipNewlines ts) (skipNewlines ts') :=
  dropWhile_like (· == .newline) h

theorem dropSeparators_like (h : List.Forall₂ (Token.Like L) ts ts') :
    List.Forall₂ (Token.Like L) (ts.dropWhile isSeparator) (ts'.dropWhile isSeparator) :=
  dropWhile_like (fun kind => kind == .newline || kind == .semicolon) h

theorem skipStatement_like (h : List.Forall₂ (Token.Like L) ts ts') :
    List.Forall₂ (Token.Like L) (skipStatement ts) (skipStatement ts') :=
  dropWhile_like (fun kind => !(kind == .newline || kind == .semicolon)) h

theorem pipe?_eq (ts : List Token) : pipe? ts = after .pipe (skipNewlines ts) := by
  unfold pipe?
  split
  · rename_i heq
    rw [heq, after, if_pos rfl]
  · rename_i hother
    exact (after_eq_none hother).symm

theorem pipe_like (h : List.Forall₂ (Token.Like L) ts ts') : (pipe? ts = none ∧ pipe? ts' = none) ∨
    ∃ rest rest', pipe? ts = some rest ∧ pipe? ts' = some rest' ∧
      List.Forall₂ (Token.Like L) rest rest' := by
  rw [pipe?_eq, pipe?_eq]
  have hskip := skipNewlines_like h
  generalize skipNewlines ts = us at hskip ⊢
  generalize skipNewlines ts' = us' at hskip ⊢
  cases hskip with
  | nil => exact .inl ⟨rfl, rfl⟩
  | cons ht hts =>
    simp only [after, ht.kind]
    split
    · exact .inr ⟨_, _, rfl, rfl, hts⟩
    · exact .inl ⟨rfl, rfl⟩

theorem pipe?_suffix (h : pipe? ts = some rest) : rest <:+ ts := by
  rw [pipe?_eq] at h
  obtain ⟨span, hcons⟩ := after_eq_some h
  have hskip : skipNewlines ts <:+ ts := List.dropWhile_suffix _
  rw [hcons] at hskip
  exact (List.suffix_cons _ _).trans hskip

/-- Tokens of one list that correspond to others one by one are read alike. -/
def Simulation.ofLikeness (L : Likeness) (hwhole : L.Ordered whole) : Simulation L where
  strong ts ts' := List.Forall₂ (Token.Like L) ts ts' ∧ ts <:+ whole
  weak ts ts' := List.Forall₂ (Token.Like L) ts ts' ∧ ts <:+ whole
  lost := False
  fault := Fault.Like L
  weak_of_strong h := h
  cons := by
    rintro t ts _ ⟨⟨⟩, hsuffix⟩
    exact ⟨_, _, rfl, ‹_›, ‹_›, (List.suffix_cons _ _).trans hsuffix⟩
  stops := by
    rintro _ ⟨⟨⟩, -⟩ t ht
    cases ht
  ends := by
    rintro _ _ ⟨⟨⟩, -⟩ t ht
    cases ht
  here _ h _ _ := by
    obtain ⟨h, -⟩ := h
    refine ⟨rfl, ?_, h.length_eq.symm, .nil⟩
    cases h with
    | nil => exact .none
    | cons ht _ => exact .some ht
  past := by
    rintro t ts t' ts' _ ⟨_ | ⟨_, hts⟩, -⟩ ht reason
    exact ⟨rfl, .some ht, hts.length_eq.symm, .nil⟩
  missing := by
    rintro _ _ ⟨⟨⟩, -⟩
    exact ⟨rfl, .none, rfl, .nil⟩
  keep hbefore hf := ⟨hf.reason, hf.found, hf.left, List.rel_append hbefore hf.built⟩
  skip h := ⟨skipNewlines_like h.1, (List.dropWhile_suffix _).trans h.2⟩
  order := by
    rintro t ts _ u rest _ ⟨-, ht⟩ ⟨-, hu⟩ hlength
    -- of two ends of one list the shorter is an end of the longer
    have hsuffix := List.suffix_of_suffix_length_le hu ((List.suffix_cons t ts).trans ht) hlength
    exact (List.pairwise_cons.mp (hwhole.sublist ht.sublist)).1 u
      (hsuffix.subset List.mem_cons_self)
  pipe := by
    rintro ts ts' ⟨h, hsuffix⟩
    rcases pipe_like h with hnone | ⟨rest, rest', hp, hp', hrest⟩
    · exact .inl hnone
    · exact .inr ⟨rest, rest', hp, hp', hrest, (pipe?_suffix hp).trans hsuffix⟩

theorem finished_like (hs : s.Like L s') (h : List.Forall₂ (Token.Like L) ts ts') :
    (finished s ts).Like L (finished s' ts') := by
  cases h with
  | nil => exact .complete hs
  | @cons t t' _ _ ht _ =>
    have hsep : isSeparator t' = isSeparator t := by simp [isSeparator, ht.kind]
    simp only [finished, hsep]
    split
    · exact .complete hs
    · exact .trailing hs ht

theorem resume_like (h : List.Forall₂ (Token.Like L) ts ts') (left : Nat) :
    List.Forall₂ (Token.Like L) (resume ts left) (resume ts' left) := by
  unfold resume
  rw [← h.length_eq]
  exact skipStatement_like (List.forall₂_drop _ h)

theorem turns_like_suffix (hwhole : L.Ordered whole) (hsuffix : ts <:+ whole)
    (h : List.Forall₂ (Token.Like L) ts ts') :
    List.Forall₂ (Turn.Like L) (turns ts) (turns ts') := by
  have hdrop := dropSeparators_like h
  cases hts : ts.dropWhile isSeparator with
  | nil =>
    rw [hts] at hdrop
    cases hts' : ts'.dropWhile isSeparator with
    | nil =>
      rw [turns_done hts, turns_done hts']
      exact .nil
    | cons =>
      rw [hts'] at hdrop
      cases hdrop
  | cons t rest =>
    have ht := head_dropWhile_separator hts
    have hle : (t :: rest).length ≤ ts.length := hts ▸ (List.dropWhile_sublist _).length_le
    have hsuffix' : t :: rest <:+ whole := hts ▸ (List.dropWhile_suffix _).trans hsuffix
    rw [hts] at hdrop
    obtain ⟨t', rest', hts', -, -⟩ := (Simulation.ofLikeness L hwhole).cons ⟨hdrop, hsuffix'⟩
    rw [hts'] at hdrop
    -- both sides read a statement, or both fail with as many tokens left
    have hs := Simulation.statement_like (S := .ofLikeness L hwhole) ⟨hdrop, hsuffix'⟩
    cases hx : plain (statement (t :: rest)) with
    | ok p =>
      obtain ⟨s, r⟩ := p
      have hlt := plain_length hx
      have := skipStatement_length_le r
      cases hx' : plain (statement (t' :: rest')) with
      | error f =>
        rw [hx, hx'] at hs
        cases hs with
        | ended h => cases h
      | ok p' =>
        rw [hx, hx'] at hs
        obtain ⟨s', r'⟩ := p'
        rw [turns_read hts hx, turns_read hts' hx']
        cases hs with
        | ok hs hr =>
          exact .cons (finished_like hs hr.1)
            (turns_like_suffix hwhole ((List.dropWhile_suffix _).trans hr.2)
              (skipStatement_like hr.1))
        | ended h => cases h
    | error f =>
      have := resume_length_lt rest f.left ht
      cases hx' : plain (statement (t' :: rest')) with
      | ok p =>
        rw [hx, hx'] at hs
        cases hs with
        | lost h => cases h
      | error f' =>
        rw [hx, hx'] at hs
        rw [turns_fault hts hx, turns_fault hts' hx']
        cases hs with
        | fault hf =>
          rw [hf.left]
          exact .cons (.abandoned hf) (turns_like_suffix hwhole
            (((List.dropWhile_suffix _).trans (List.drop_suffix _ _)).trans hsuffix')
              (resume_like hdrop f.left))
        | lost h => cases h
termination_by ts.length

theorem turns_like (h : List.Forall₂ (Token.Like L) ts ts')
    (hordered : L.Ordered ts := by exact List.pairwise_of_forall fun _ _ => trivial) :
    List.Forall₂ (Turn.Like L) (turns ts) (turns ts') :=
  turns_like_suffix hordered List.suffix_rfl h

end Grammar

/-! ## Nodes -/

structure Arg.Moved (L : Likeness) (k : Nat) (a a' : Arg NodeId) : Prop where
  name : a'.name = a.name
  value : a'.value = a.value + k
  span : L.span a.span a'.span

inductive Node.Like (L : Likeness) (k : Nat) : Node → Node → Prop
  | number : L.span s s' → L.number v → Node.Like L k ⟨.number v, s⟩ ⟨.number v, s'⟩
  | bool : L.span s s' → Node.Like L k ⟨.bool v, s⟩ ⟨.bool v, s'⟩
  | text : L.text v s s' → Node.Like L k ⟨.text v, s⟩ ⟨.text v, s'⟩
  | ident : L.span s s' → Node.Like L k ⟨.ident name, s⟩ ⟨.ident name, s'⟩
  | hole : L.span s s' → Node.Like L k ⟨.hole, s⟩ ⟨.hole, s'⟩
  | binary : L.span s s' → Node.Like L k ⟨.binary op a b, s⟩ ⟨.binary op (a + k) (b + k), s'⟩
  | call : List.Forall₂ (Arg.Moved L k) args args' → L.span s s' → L.call callee s s' →
      Node.Like L k ⟨.call callee args, s⟩ ⟨.call callee args', s'⟩
  | pipe : L.span s s' → Node.Like L k ⟨.pipe a b, s⟩ ⟨.pipe (a + k) (b + k), s'⟩
  | assign : L.span s s' → Node.Like L k ⟨.assign name v, s⟩ ⟨.assign name (v + k), s'⟩
  | define : List.Forall₂ (Parameter.Like L) params params' → L.span s s' →
      Node.Like L k ⟨.define name params body, s⟩ ⟨.define name params' (body + k), s'⟩

/-- The second arena holds `base`, and then what the first holds. -/
def Arena.Like (L : Likeness) (base : List Node) (nodes nodes' : Arena) : Prop :=
  ∃ tail, nodes'.toList = base ++ tail ∧ List.Forall₂ (Node.Like L base.length) nodes.toList tail

variable {L : Likeness}

theorem Arena.Like.size (h : Arena.Like L base nodes nodes') :
    nodes'.size = nodes.size + base.length := by
  obtain ⟨tail, htail, hlike⟩ := h
  rw [← Array.length_toList, htail, List.length_append, ← hlike.length_eq, Array.length_toList]
  exact Nat.add_comm _ _

theorem Arena.Like.add {node node' : Node} (h : Arena.Like L base nodes nodes')
    (hnode : Node.Like L base.length node node') :
    Arena.Like L base (Arena.add nodes node).1 (Arena.add nodes' node').1 ∧
      (Arena.add nodes' node').2 = (Arena.add nodes node).2 + base.length := by
  have hsize := h.size
  obtain ⟨tail, htail, hlike⟩ := h
  refine ⟨⟨tail ++ [node'], ?_, ?_⟩, hsize⟩
  · simp [Arena.add, htail]
  · simpa [Arena.add] using List.rel_append hlike (.cons hnode .nil)

mutual

theorem Expr.Like.store : Expr.Like L e e' → Arena.Like L base nodes nodes' →
    Arena.Like L base (e.store nodes).1 (e'.store nodes').1 ∧
      (e'.store nodes').2 = (e.store nodes).2 + base.length
  | .number hs hv, h => h.add (.number hs hv)
  | .bool hs, h => h.add (.bool hs)
  | .text hs, h => h.add (.text hs)
  | .ident hs, h => h.add (.ident hs)
  | .hole hs, h => h.add (.hole hs)
  | .binary ha hb hs, h => by
    obtain ⟨h₁, ha'⟩ := ha.store h
    obtain ⟨h₂, hb'⟩ := hb.store h₁
    simp only [Expr.store, ha', hb']
    exact h₂.add (.binary hs)
  | .call hargs hs hcall, h => by
    obtain ⟨h₁, hargs'⟩ := hargs.store h
    exact h₁.add (.call hargs' hs hcall)
  | .pipe ha hb hs, h => by
    obtain ⟨h₁, ha'⟩ := ha.store h
    obtain ⟨h₂, hb'⟩ := hb.store h₁
    simp only [Expr.store, ha', hb']
    exact h₂.add (.pipe hs)

theorem ArgsLike.store : ArgsLike L args args' → Arena.Like L base nodes nodes' →
    Arena.Like L base (storeArgs nodes args).1 (storeArgs nodes' args').1 ∧
      List.Forall₂ (Arg.Moved L base.length) (storeArgs nodes args).2 (storeArgs nodes' args').2
  | .nil, h => ⟨h, .nil⟩
  | .cons he hs hargs, h => by
    obtain ⟨h₁, hvalue⟩ := he.store h
    obtain ⟨h₂, hrest⟩ := hargs.store h₁
    exact ⟨h₂, .cons ⟨rfl, hvalue, hs⟩ hrest⟩

end

theorem Statement.Like.store (hs : Statement.Like L s s') (h : Arena.Like L base nodes nodes') :
    Arena.Like L base (s.store nodes).1 (s'.store nodes').1 ∧
      (s'.store nodes').2 = (s.store nodes).2 + base.length := by
  cases hs with
  | define _ hparams hbody hspan =>
    obtain ⟨h₁, hbody'⟩ := hbody.store h
    simp only [Statement.store, hbody']
    exact h₁.add (.define hparams hspan)
  | assign _ hvalue hspan =>
    obtain ⟨h₁, hvalue'⟩ := hvalue.store h
    simp only [Statement.store, hvalue']
    exact h₁.add (.assign hspan)
  | expr hvalue => exact hvalue.store h

/-- The second patch is `base`, and then the first. -/
structure Patch.Like (L : Likeness) (base p p' : Patch) : Prop where
  nodes : Arena.Like L base.nodes.toList p.nodes p'.nodes
  statements : p'.statements = base.statements ++ p.statements.map (· + base.nodes.size)

theorem Patch.Like.empty (L : Likeness) (base : Patch) : Patch.Like L base .empty base :=
  ⟨⟨[], by simp, .nil⟩, by simp [Patch.empty]⟩

theorem Patch.Like.addStatement (h : Patch.Like L base p p') (hs : Statement.Like L s s') :
    Patch.Like L base (p.addStatement s) (p'.addStatement s') := by
  obtain ⟨hnodes, hid⟩ := hs.store h.nodes
  refine ⟨hnodes, ?_⟩
  simp [Patch.addStatement, h.statements, hid]

theorem Patch.Like.addFragments (h : Patch.Like L base p p')
    (hes : List.Forall₂ (Expr.Like L) es es') :
    Patch.Like L base (p.addFragments es) (p'.addFragments es') := by
  refine ⟨?_, h.statements⟩
  have hnodes := h.nodes
  unfold Patch.addFragments
  dsimp only
  generalize p.nodes = nodes at hnodes
  generalize p'.nodes = nodes' at hnodes
  induction hes generalizing nodes nodes' with
  | nil => exact hnodes
  | cons he _ ih => exact ih _ _ (he.store hnodes).1

theorem Patch.Like.addTurn (h : Patch.Like L base p p') (ht : Grammar.Turn.Like L t t') :
    Patch.Like L base (p.addTurn t) (p'.addTurn t') := by
  cases ht with
  | complete hs => exact h.addStatement hs
  | trailing hs _ => exact h.addStatement hs
  | abandoned hf => exact h.addFragments hf.built

theorem Patch.Like.foldl (h : Patch.Like L base p p')
    (hts : List.Forall₂ (Grammar.Turn.Like L) turns turns') :
    Patch.Like L base (turns.foldl Patch.addTurn p) (turns'.foldl Patch.addTurn p') := by
  induction hts generalizing p p' with
  | nil => exact h
  | cons ht _ ih => exact ih (h.addTurn ht)

/-! ## Findings -/

structure Finding.Like (L : Likeness) (f f' : Finding) : Prop where
  issue : f'.issue = f.issue
  span : L.span f.span f'.span

theorem Grammar.Fault.Like.finding (h : Grammar.Fault.Like L f f') (hstop : L.span stop stop') :
    (f.finding stop).Like L (f'.finding stop') := by
  obtain ⟨reason, found, left, built⟩ := f
  obtain ⟨reason', found', left', built'⟩ := f'
  obtain ⟨rfl, hfound, -, -⟩ := h
  cases hfound with
  | none => exact ⟨rfl, hstop⟩
  | some ht =>
    refine ⟨?_, ht.span⟩
    simp only [Fault.finding, Option.getD_some, ht.kind]

theorem Grammar.findings_like (hstop : L.span stop stop') (h : List.Forall₂ (Turn.Like L) ts ts') :
    List.Forall₂ (Finding.Like L) (ts.filterMap (Turn.finding? stop))
      (ts'.filterMap (Turn.finding? stop')) := by
  induction h with
  | nil => exact .nil
  | cons ht _ ih =>
    cases ht with
    | complete => exact ih
    | trailing _ ht => exact .cons ⟨by rw [ht.kind], ht.span⟩ ih
    | abandoned hf => exact .cons (hf.finding hstop) ih

end SignalPatch
