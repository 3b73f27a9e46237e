import SignalPatch.Proofs.LockStep
import SignalPatch.Proofs.MeaningPreservation

/-!
# Identities that other statements leave alone

An assignment keeps the identities of its states when other statements come, go or change places, as
long as the functions stay the same. When the walk over a program reaches it, the nodes that have
buffers lie before it, and the names that were numbered belong to expression statements or to other
variables. So the walks of two programs start it alike, and go on in step.
-/

namespace SignalPatch

open Lowering

/-! ## Nodes with buffers -/

theorem le_or_le_of_rank (h : rank n k ≤ rank n i) (hi : i < n) : k ≤ i ∨ n ≤ k := by
  unfold rank at h
  rw [if_pos hi] at h
  split at h <;> omega

/-- Nodes that got buffers on the way from `l` to `l'` have at most this rank. -/
def Remembers (n highest : Nat) (l l' : Lowered) : Prop :=
  ∀ k, (l'.memo.lookup k).isSome → (l.memo.lookup k).isSome ∨ rank n k ≤ highest

theorem Remembers.of_eq (h : l'.memo = l.memo) : Remembers n r l l' :=
  fun _ hk => .inl (h ▸ hk)

theorem Remembers.trans (h : Remembers n r l l') (h' : Remembers n r l' l'') :
    Remembers n r l l'' := by
  intro k hk
  rcases h' k hk with hk | hk
  · exact h k hk
  · exact .inr hk

theorem Remembers.mono (h : Remembers n r l l') (hr : r ≤ r') : Remembers n r' l l' :=
  fun k hk => (h k hk).imp_right fun h => Nat.le_trans h hr

mutual

theorem Lowers.remembers :
    Lowers R bank site i l b l' → Normal R T n i → Remembers n (rank n i) l l'
  | .memo _, _ => .of_eq rfl
  | .fresh _ h, hi => by
    intro k hk
    rw [List.lookup_cons] at hk
    by_cases hki : k = i
    · exact .inr (hki ▸ Nat.le_refl _)
    · rw [beq_false_of_ne hki] at hk
      exact h.remembers hi k hk

theorem Makes.remembers : Makes R bank site i l b l' → Normal R T n i → Remembers n (rank n i) l l'
  | .number _ h, _ => .of_eq h.memo_eq
  | .bool _ h, _ => .of_eq h.memo_eq
  | .ident _ _ _ _, _ => .of_eq rfl
  | .binary hnode hlhs hrhs h, hi => by
    obtain ⟨⟨hl, hlle⟩, hr, hrle⟩ := hi.operands hnode
    exact (((hlhs.remembers hl).mono hlle).trans ((hrhs.remembers hr).mono hrle)).trans
      (.of_eq h.memo_eq)
  | .op hnode _ _ _ _ hargs h, hi =>
    (hargs.remembers (hi.arguments hnode)).trans
      (.of_eq (h.memo_eq.trans (Lowered.issueFor_memo _ _ _)))
  | .pattern _ _ _ _ _ h, _ => .of_eq h.memo_eq
  | .control _ _ _ _ _ h, _ => .of_eq h.memo_eq
  | .expand hnode _ _ hargs _ _ _, hi => (hargs.remembers (hi.arguments hnode)).trans (.of_eq rfl)

theorem LowersArgs.remembers : LowersArgs R bank site args l bs l' →
    (∀ x ∈ args, Normal R T n x.value ∧ rank n x.value ≤ r) → Remembers n r l l'
  | .nil, _ => .of_eq rfl
  | .cons h hs, hargs => by
    obtain ⟨⟨hx, hle⟩, hargs⟩ := List.forall_mem_cons.mp hargs
    exact ((h.remembers hx).mono hle).trans (hs.remembers hargs)

end

/-! ## The walk up to a statement -/

/-- The path belongs to an expression statement, or to a variable in scope. -/
def Numbered (vars : Scope) (key : String) : Prop :=
  Below ["main"] key ∨ ∃ x, IsPlain x ∧ (∃ s ∈ vars, s.hash = Text.fingerprint x) ∧
    Below ["main", x] key

theorem Numbered.mono (h : Numbered vars key) (hvars : ∀ s ∈ vars, s ∈ vars') :
    Numbered vars' key := by
  refine h.imp_right ?_
  rintro ⟨x, hx, ⟨s, hs, hhash⟩, hbelow⟩
  exact ⟨x, hx, ⟨s, hvars s hs, hhash⟩, hbelow⟩

theorem Numbered.ne (h : Numbered vars key) (hx : IsPlain x)
    (hfree : vars.find? (Text.fingerprint x) = none) (path : List String) (leaf : String) :
    key ≠ Lowered.key ("main" :: x :: path) leaf := by
  rcases h with hbelow | ⟨y, hy, ⟨s, hs, hhash⟩, hbelow⟩
  · exact hbelow.ne_variable hx
  · refine hbelow.ne_other hy hx ?_
    rintro rfl
    simpa [hhash] using List.find?_eq_none.mp hfree s hs

/-- Between two statements: nodes with buffers lie before the number `c` or were made by resolution,
and every path that was numbered belongs to a statement before. -/
structure Walked (n c : Nat) (vars : Scope) (l : Lowered) : Prop where
  values : ∀ s ∈ vars, s.isValue
  memo : ∀ k : Nat, (l.memo.lookup k).isSome → k < c ∨ n ≤ k
  issued : ∀ key ∈ l.issued, Numbered vars key
  paced : l.sequences.length ≤ l.instructions.length

namespace Walked

theorem start (n : Nat) : Walked n 0 [] {} :=
  ⟨by simp, by simp, by simp, Nat.le_refl _⟩

theorem forward (h : Walked n c vars l) (hc : c ≤ c') : Walked n c' vars l :=
  { h with memo := fun k hk => (h.memo k hk).imp_left fun hlt => Nat.lt_of_lt_of_le hlt hc }

theorem count_eq_zero (h : Walked n c vars l) (hx : IsPlain x)
    (hfree : vars.find? (Text.fingerprint x) = none) (path : List String) (leaf : String) :
    l.count ("main" :: x :: path) leaf = 0 :=
  List.count_eq_zero.mpr fun hkey => (h.issued _ hkey).ne hx hfree path leaf rfl

theorem memo_eq_none {i : Nat} (h : Walked n c vars l) (hc : c ≤ i) (hn : i < n) :
    l.memo.lookup i = none := by
  cases hk : l.memo.lookup i with
  | none => rfl
  | some b =>
    have := h.memo i (by rw [hk]; rfl)
    omega

theorem alike {P₁ P₂ : Arena} (h₁ : Walked P₁.size c₁ vars₁ l₁) (h₂ : Walked P₂.size c₂ vars₂ l₂)
    (hx : IsPlain x) (hfree₁ : vars₁.find? (Text.fingerprint x) = none)
    (hfree₂ : vars₂.find? (Text.fingerprint x) = none) :
    Alike (frame P₁ P₂ c₁ c₂) ["main", x] l₁ l₂ where
  counts through leaf := (h₁.count_eq_zero hx hfree₁ through leaf).trans
    (h₂.count_eq_zero hx hfree₂ through leaf).symm
  memo i j ha := by
    obtain ⟨⟨d, hi, hj⟩, hlt₁, hlt₂⟩ := ha
    rw [h₁.memo_eq_none (hi ▸ Nat.le_add_right _ _) hlt₁,
      h₂.memo_eq_none (hj ▸ Nat.le_add_right _ _) hlt₂]
  paced₁ := h₁.paced
  paced₂ := h₂.paced

end Walked

section

variable (hE : Elaborated P ids R) (hprogram : StoredList P 0 program ids) (hnames : R.PlainNames)

include hE hprogram hnames

theorem Walked.visit {v : Visit} {i : Nat} (h : Walked P.size c vars v.before)
    (hstored : Stored P c e i) (hrew : Rewritten P R (.above R.symbols.globals vars) none i v.node)
    (hok : VisitOk R P.size v) (hv : v.result R bank = (some b, l'))
    (hpath : ∀ key, Below v.site.path key → Numbered vars' key) (hvars : ∀ s ∈ vars, s ∈ vars')
    (hvalues : ∀ s ∈ vars', s.isValue) :
    Walked P.size (i + 1) vars' l' := by
  have hR := hE.normal hprogram
  obtain ⟨hnormal, hle⟩ := hrew.normal (hE.globals.signaturesOk h.values) hstored (by simp)
  obtain ⟨_, -, hsite⟩ := hok.node
  have hlow := hok.lowers hR hv
  have hci := hstored.le
  refine ⟨hvalues, fun k hk => ?_, fun key hkey => ?_, hlow.grows.paced_of h.paced⟩
  · rcases hlow.remembers hnormal k hk with hk | hrank
    · exact (h.memo k hk).imp_left (by omega)
    · refine (le_or_le_of_rank hrank (Nat.lt_of_le_of_lt hle hstored.lt_size)).imp_left
        fun hkj => ?_
      exact Nat.lt_succ_of_le (Nat.le_trans hkj hle)
  · rcases hlow.numbers hR hnames hsite.seesValues key hkey with hkey | hbelow
    · exact (h.issued key hkey).mono hvars
    · exact hpath key hbelow

end

/-- The visit lowers the tree `e` for the variable `x`, on the way to the code `F`. -/
structure Assigns (P : Arena) (R : Resolved) (bank : SampleRegistry) (x : String) (e : Expr)
    (F : Lowered) (v : Visit) : Prop where
  name : IsPlain x
  site : v.site.SeesValues R
  path : v.site.path = ["main", x]
  lowers : ∃ b, Lowers R bank v.site v.node v.before b (v.result R bank).2
  grows : (v.result R bank).2.Grows F
  tree : ∃ c i vars, Stored P c e i ∧ Rewritten P R (.above R.symbols.globals vars) none i v.node ∧
    Walked P.size c vars v.before ∧ vars.find? (Text.fingerprint x) = none

section

variable (hE : Elaborated P ids R) (hprogram : StoredList P 0 program ids) (hnames : R.PlainNames)

include hE hprogram hnames

theorem Visited.assigns (hres : StatementsResolved P R vars is is') :
    ∀ {a ss symbols l vs l'}, StoredList P a ss is → (∀ s ∈ ss, s.Plain) →
      Visited R bank symbols l is' vs l' → (∀ v, some v ∈ vs → VisitOk R P.size v) →
      Walked P.size a vars l → ∀ {k : Nat} {x e span}, ss[k]? = some (.assign x e span) →
      ∃ v, vs[k]? = some (some v) ∧ Assigns P R bank x e l' v := by
  have hR := hE.normal hprogram
  -- Along the resolved statements: `Walked` is what each of them hands on to the next.
  induction hres with
  | nil =>
    rintro a ss symbols l vs l' ⟨⟩ _ _ _ _ k x e span hk
    simp at hk
  | define hP hnode _ ih =>
    rintro a ss symbols l vs l' (_ | ⟨hab, hst, hrest⟩) hplain hvisited hvs hwalk k x e span hk
    have hwalk' := hwalk.forward (Nat.le_trans hab (Nat.le_succ_of_le hst.le))
    obtain ⟨body, rfl, -, -⟩ := hst.of_define hP
    cases hvisited with
    | define _ hvisited =>
      cases k with
      | zero => cases hk
      | succ k =>
        exact ih hrest (List.forall_mem_cons.mp hplain).2 hvisited
          (fun v hv => hvs v (List.mem_cons_of_mem _ hv)) hwalk' hk
    | assign hnode' => cases hnode.symm.trans hnode'
    | expr hkind => simp [Arena.kind_eq hnode, NodeKind.isStatement] at hkind
  | assign hP hnode hrew hfree _ ih =>
    rintro a ss symbols l vs l' (_ | ⟨hab, hst, hrest⟩) hplain hvisited hvs hwalk k x e span hk
    obtain ⟨value, rfl, rfl, hstored⟩ := hst.of_assign hP
    cases hvisited with
    | define hnode' => cases hnode.symm.trans hnode'
    | assign hnode' hv hvisited =>
      cases hnode.symm.trans hnode'
      obtain ⟨hx, hplain⟩ := List.forall_mem_cons.mp hplain
      have hvs' := fun v hv => hvs v (List.mem_cons_of_mem _ hv)
      have hok := hvs _ List.mem_cons_self
      obtain ⟨_, -, hsite⟩ := hok.node
      have hwalk' := hwalk.forward hab
      cases k with
      | zero =>
        cases hk
        refine ⟨_, rfl, hx, hsite.seesValues, rfl, ?_, ?_, _, _, _, hstored, hrew, hwalk', hfree⟩
        · rw [hv]
          exact ⟨_, hok.lowers hR hv⟩
        · rw [hv]
          exact (hvisited.lowered hR hvs').grows
      | succ k =>
        refine ih hrest hplain hvisited hvs'
          (.forward (hwalk'.visit hE hprogram hnames hstored hrew hok hv
          ?_ (fun s hs => List.mem_cons_of_mem _ hs) ?_) (Nat.le_succ _)) hk
        · exact fun key hkey => .inr ⟨_, hx, ⟨_, List.mem_cons_self, rfl⟩, hkey⟩
        · exact List.forall_mem_cons.mpr ⟨rfl, hwalk.values⟩
    | expr hkind => simp [Arena.kind_eq hnode, NodeKind.isStatement] at hkind
  | expr hrew _ ih =>
    rintro a ss symbols l vs l' (_ | ⟨hab, hst, hrest⟩) hplain hvisited hvs hwalk k x e span hk
    obtain ⟨node, hP, hkind⟩ := hrew.read
    obtain ⟨e, rfl, hstored⟩ := hst.of_expr hP hkind
    obtain ⟨node', hnode, hkind'⟩ := hrew.root (by simp)
    cases hvisited with
    | define hnode' | assign hnode' =>
      cases hnode.symm.trans hnode'
      cases hkind'
    | expr _ hv hvisited =>
      cases k with
      | zero => cases hk
      | succ k =>
        have hnext := (hwalk.forward hab).visit hE hprogram hnames hstored hrew
          (hvs _ List.mem_cons_self) hv (fun _ hkey => .inl hkey) (fun _ hs => hs) hwalk.values
        exact ih hrest (List.forall_mem_cons.mp hplain).2 hvisited
          (fun v hv => hvs v (List.mem_cons_of_mem _ hv)) hnext hk

end

/-! ## The same assignment in two programs -/

theorem Elaborated.plainNames (hE : Elaborated P ids R) (hs : StoredList P 0 program ids)
    (hplain : ∀ s ∈ program, s.Plain) : R.PlainNames := by
  intro callee f hcalls
  obtain ⟨s, hnamed, hm⟩ := Option.map_eq_some_iff.mp hcalls
  cases hE.globals.known s (Scope.named?_eq_some hnamed).1 with
  | builtin b hb => cases hb.symm.trans hm
  | function i name params body span hi hP hsym =>
    subst hsym
    cases hm
    obtain ⟨_, st, hst, -, hstored⟩ := hs.statement hi
    obtain ⟨_, rfl, -, -⟩ := hstored.of_define hP
    exact hplain _ hst

section

variable (hE₁ : Elaborated P₁ ids₁ R₁) (hs₁ : StoredList P₁ 0 program₁ ids₁)
  (hE₂ : Elaborated P₂ ids₂ R₂) (hs₂ : StoredList P₂ 0 program₂ ids₂)
  (hdefs : SameDefinitions program₁ program₂)

include hE₁ hs₁ hE₂ hs₂ hdefs

theorem twinPrograms : TwinPrograms P₁ P₂ R₁ R₂ where
  normal₁ := hE₁.normal hs₁
  normal₂ := hE₂.normal hs₂
  read₁ := hE₁.read
  read₂ := hE₂.read
  meanings := twinMeanings hE₁ hs₁ hE₂ hs₂ hdefs
  bodies h hdef₁ hdef₂ := h.twins hE₁ hs₁ hE₂ hs₂ hdefs hdef₁ hdef₂

/-- Assignments of one tree to one variable add the same states to the code of both programs. -/
theorem Assigns.adds (h₁ : Assigns P₁ R₁ bank x e₁ F₁ v₁) (h₂ : Assigns P₂ R₂ bank x e₂ F₂ v₂)
    (he : e₁.shape = e₂.shape) :
    ∃ states ids, F₁.Adds v₁.before (v₁.result R₁ bank).2 states ids ∧
      F₂.Adds v₂.before (v₂.result R₂ bank).2 states ids := by
  obtain ⟨b₁, hlow₁⟩ := h₁.lowers
  obtain ⟨b₂, hlow₂⟩ := h₂.lowers
  obtain ⟨c₁, i₁, vars₁, hstored₁, hrew₁, hwalk₁, hfree₁⟩ := h₁.tree
  obtain ⟨c₂, i₂, vars₂, hstored₂, hrew₂, hwalk₂, hfree₂⟩ := h₂.tree
  have hlevel : (frame P₁ P₂ c₁ c₂).Level c₁ c₂ := ⟨0, rfl, rfl⟩
  have hrewritten := hrew₁.twins hE₁ hs₁ hE₂ hs₂ hdefs hwalk₁.values hwalk₂.values hrew₂
    (hstored₁.twins hstored₂ he hlevel).2
  have hsites : TwinSites R₁ R₂ ["main", x] v₁.site v₂.site := by
    refine ⟨h₁.site, h₂.site, [], ?_, ?_⟩
    · rw [h₁.path, List.append_nil]
    · rw [h₂.path, List.append_nil]
  exact (hlow₁.inStep (twinPrograms hE₁ hs₁ hE₂ hs₂ hdefs) hlow₂ hrewritten hsites
    (hwalk₁.alike hwalk₂ h₁.name hfree₁ hfree₂) h₁.grows h₂.grows).adds

end

/-- Lowering statement `k` of the program put these instructions into the code, and these sequences
beside it. -/
def Compiled.Emits (c : Compiled) (linked : LinkedSource) (bank : SampleRegistry) (k : Nat)
    (is : List Instruction) (ss : List SequenceInit) : Prop :=
  ∃ v, (linked.patch.resolve.visits bank)[k]? = some (some v) ∧
    (v.result linked.patch.resolve bank).2.instructions = v.before.instructions ++ is ∧
    (v.result linked.patch.resolve bank).2.sequences.map (.shift linked.boundary) =
      v.before.sequences.map (.shift linked.boundary) ++ ss ∧
    (∃ code, Bytecode.decode c.bytecode = .ok code ∧ v.before.instructions ++ is <+: code) ∧
    v.before.sequences.map (.shift linked.boundary) ++ ss <+: c.sequences

theorem Instruction.state?_shift (boundary : Boundary) (sequences : List SequenceInit)
    (ins : Instruction) :
    ins.state? (sequences.map (.shift boundary)) = ins.state? sequences := by
  rw [state?, state?, stateId?_shift]

theorem Accepted.emits (h : Accepted linked bank c)
    (hv : (linked.patch.resolve.visits bank)[k]? = some (some v))
    (hgrows : (v.result linked.patch.resolve bank).2.Grows (linked.patch.resolve.walked bank))
    (hadds : (linked.patch.resolve.walked bank).Adds v.before (v.result linked.patch.resolve bank).2
      states ids) :
    ∃ is ss, c.Emits linked bank k is ss ∧ is.filterMap (·.state? c.sequences) = states ∧
      ss.map (·.stateId) = ids := by
  obtain ⟨is, ss, hinstructions, hsequences, hstates, hids⟩ := hadds
  refine ⟨is, ss.map (.shift linked.boundary), ⟨v, hv, hinstructions, ?_, ?_, ?_⟩, ?_, ?_⟩
  · rw [hsequences, List.map_append]
  · refine ⟨_, h.bytecode ▸ Bytecode.decode_encode _, ?_⟩
    rw [← hinstructions]
    exact hgrows.instructions
  · rw [← List.map_append, ← hsequences, h.sequences]
    exact hgrows.sequences.map _
  · simp only [h.sequences, Instruction.state?_shift]
    exact hstates
  · rw [List.map_map]
    exact hids

theorem Accepted.assigns {k : Nat} (h : Accepted linked bank c)
    (hk : linked.program[k]? = some (.assign x e span)) :
    ∃ v, (linked.patch.resolve.visits bank)[k]? = some (some v) ∧
      Assigns linked.patch.nodes linked.patch.resolve bank x e
        (linked.patch.resolve.walked bank) v := by
  have hE := parse_resolve_elaborated _ h.resolved
  have hstored := parse_stored (scan linked.text).tokens
  have hplain := statements_plain linked.text
  have hR := hE.normal hstored
  exact Visited.assigns hE hstored (hE.plainNames hstored hplain) hE.statements hstored hplain
    (hR.visited h.lowered) (hR.statementsOk bank).visits (.start _) hk

theorem exists_assign_of_shape {program : List Statement} {k : Nat}
    (h : (program.map Statement.shape)[k]? = some (.assign x e)) :
    ∃ e' span, program[k]? = some (.assign x e' span) ∧ e'.shape = e := by
  rw [List.getElem?_map] at h
  obtain ⟨s, hs, hshape⟩ := Option.map_eq_some_iff.mp h
  cases s with
  | assign name e' span =>
    cases hshape
    exact ⟨e', span, hs, rfl⟩
  | _ => cases hshape

/-- Two programs that define the same functions give the states of an assignment they have in common
the same identities, whatever other statements stand around it. -/
theorem compile_stableIdentities (source₁ source₂ filename₁ filename₂ : String)
    (bank : SampleRegistry) (h₁ : (compile source₁ filename₁ bank).success)
    (h₂ : (compile source₂ filename₂ bank).success)
    (hdefs : SameDefinitions (LinkedSource.standard source₁).program
      (LinkedSource.standard source₂).program)
    (k₁ k₂ : Nat) (x : String) (e : Shape)
    (hk₁ : ((LinkedSource.standard source₁).program.map Statement.shape)[k₁]? = some (.assign x e))
    (hk₂ : ((LinkedSource.standard source₂).program.map Statement.shape)[k₂]? =
      some (.assign x e)) :
    ∃ is₁ ss₁ is₂ ss₂,
      (compile source₁ filename₁ bank).Emits (.standard source₁) bank k₁ is₁ ss₁ ∧
      (compile source₂ filename₂ bank).Emits (.standard source₂) bank k₂ is₂ ss₂ ∧
      is₁.filterMap (·.state? (compile source₁ filename₁ bank).sequences) =
        is₂.filterMap (·.state? (compile source₂ filename₂ bank).sequences) ∧
      ss₁.map (·.stateId) = ss₂.map (·.stateId) := by
  have hc₁ := compile_accepted h₁
  have hc₂ := compile_accepted h₂
  obtain ⟨e₁, span₁, hs₁, he₁⟩ := exists_assign_of_shape hk₁
  obtain ⟨e₂, span₂, hs₂, he₂⟩ := exists_assign_of_shape hk₂
  obtain ⟨v₁, hv₁, ha₁⟩ := hc₁.assigns hs₁
  obtain ⟨v₂, hv₂, ha₂⟩ := hc₂.assigns hs₂
  -- The two visits add the same states and identities, whatever else the programs do.
  obtain ⟨states, ids, hadds₁, hadds₂⟩ := Assigns.adds (parse_resolve_elaborated _ hc₁.resolved)
    (parse_stored _) (parse_resolve_elaborated _ hc₂.resolved) (parse_stored _) hdefs ha₁ ha₂
    (he₁.trans he₂.symm)
  obtain ⟨is₁, ss₁, hemits₁, hstates₁, hids₁⟩ := hc₁.emits hv₁ ha₁.grows hadds₁
  obtain ⟨is₂, ss₂, hemits₂, hstates₂, hids₂⟩ := hc₂.emits hv₂ ha₂.grows hadds₂
  exact ⟨is₁, ss₁, is₂, ss₂, hemits₁, hemits₂, hstates₁.trans hstates₂.symm, hids₁.trans hids₂.symm⟩

/-! ## Programs behind the preamble -/

mutual

theorem Expr.Like.shape : Expr.Like L e e' → e'.shape = e.shape
  | .number _ _ | .bool _ | .text _ | .ident _ | .hole _ => rfl
  | .binary ha hb _ | .pipe ha hb _ => by rw [Expr.shape, Expr.shape, ha.shape, hb.shape]
  | .call hargs _ _ => by rw [Expr.shape, Expr.shape, hargs.shapes]

theorem ArgsLike.shapes : ArgsLike L args args' → argShapes args' = argShapes args
  | .nil => rfl
  | .cons he _ hargs => by rw [argShapes, argShapes, he.shape, hargs.shapes]

end

theorem map_shape_like (h : List.Forall₂ (Parameter.Like L) params params') :
    params'.map Parameter.shape = params.map Parameter.shape := by
  induction h with
  | nil => rfl
  | cons hp _ ih => simp only [List.map_cons, Parameter.shape, hp.name, hp.default, ih]

theorem Statement.Like.shape (h : Statement.Like L s s') : s'.shape = s.shape := by
  cases h with
  | define _ hparams hbody =>
    rw [Statement.shape, Statement.shape, map_shape_like hparams, hbody.shape]
  | assign _ hvalue => rw [Statement.shape, Statement.shape, hvalue.shape]
  | expr he => rw [Statement.shape, Statement.shape, he.shape]

theorem shapes_like {read read' : List Grammar.Turn}
    (h : List.Forall₂ (Grammar.Turn.Like L) read read') :
    (read'.filterMap Grammar.Turn.statement?).map Statement.shape =
      (read.filterMap Grammar.Turn.statement?).map Statement.shape := by
  induction h with
  | nil => rfl
  | cons hturn _ ih =>
    cases hturn with
    | complete h | trailing h =>
      simp only [List.filterMap_cons, Grammar.Turn.statement?, List.map_cons, ih, h.shape]
    | abandoned => exact ih

theorem standard_shapes (h : ¬ StartsWithPipe source) :
    (LinkedSource.standard source).program.map Statement.shape =
      (Grammar.statements (scan Preamble.standard).tokens).map Statement.shape ++
        (Grammar.statements (scan source).tokens).map Statement.shape := by
  have hturns : Grammar.turns (tokensOf (LinkedSource.standard source).text) = _ :=
    LinkedSource.turns_text turns_standard (Decidable.not_not.mp h)
  have hlike :=
    Grammar.turns_like (Token.Like.moved (LinkedSource.standard source).boundary (tokensOf source))
  simp only [LinkedSource.program, Grammar.statements, beforeFinish_scan, hturns,
    List.filterMap_append, List.map_append]
  exact congrArg _ (shapes_like hlike)

theorem standard_shapes_of_chars (hsource : source.toList = cs)
    (hpipe : Grammar.pipe? ((pieces .origin cs).filterMap Piece.token?) = none)
    (h : ((Grammar.turns ((pieces .origin cs).filterMap Piece.token?)).filterMap
      Grammar.Turn.statement?).map Statement.shape = shapes) :
    (LinkedSource.standard source).program.map Statement.shape =
      (Grammar.statements (scan Preamble.standard).tokens).map Statement.shape ++ shapes := by
  have htokens : tokensOf source = (pieces .origin cs).filterMap Piece.token? := by
    rw [tokensOf, hsource]
  have hstart : ¬ StartsWithPipe source := by rwa [StartsWithPipe, htokens, not_not]
  have hstatements : Grammar.statements (scan source).tokens =
      (Grammar.turns (tokensOf source)).filterMap Grammar.Turn.statement? := by
    rw [Grammar.statements, beforeFinish_scan]
  rw [standard_shapes hstart, hstatements, htokens, h]

def soloPluck : String := "a = pluck(pat(\"c4 e4\"))\na |> out(%)"

def pluckedDuo : String :=
  "pluck(pat(\"c4 e4\")) |> out(%)\nb = saw(pat(\"c4\"))\na = pluck(pat(\"c4 e4\"))\na + b |> out(%)"

theorem length_preamble : (Grammar.statements (scan Preamble.standard).tokens).length = 4 := by
  rw [Grammar.statements, beforeFinish_scan, tokensOf, Preamble.characters.2]
  decide +kernel

theorem pluckedDuo_stableIdentities :
    (compile soloPluck "solo" .drums).success ∧ (compile pluckedDuo "duo" .drums).success ∧
      ∃ is₁ ss₁ is₂ ss₂,
        (compile soloPluck "solo" .drums).Emits (.standard soloPluck) .drums 4 is₁ ss₁ ∧
        (compile pluckedDuo "duo" .drums).Emits (.standard pluckedDuo) .drums 6 is₂ ss₂ ∧
        is₁.filterMap (·.state? (compile soloPluck "solo" .drums).sequences) =
          is₂.filterMap (·.state? (compile pluckedDuo "duo" .drums).sequences) ∧
        ss₁.map (·.stateId) = ss₂.map (·.stateId) := by
  have hcompiled₁ : (compile soloPluck "solo" .drums).success :=
    compile_success String.toList_ofList (by simp) (by decide +kernel)
  have hcompiled₂ : (compile pluckedDuo "duo" .drums).success :=
    compile_success String.toList_ofList (by simp) (by decide +kernel)
  have hsolo : (LinkedSource.standard soloPluck).program.map Statement.shape = _ ++
      [.assign "a" (.call "pluck" [(none, .call "pat" [(none, .text "c4 e4")])]),
        .expr (.pipe (.ident "a") (.call "out" [(none, .hole)]))] :=
    standard_shapes_of_chars String.toList_ofList (by decide +kernel) (by with_unfolding_all rfl)
  have hduo : (LinkedSource.standard pluckedDuo).program.map Statement.shape = _ ++
      [.expr (.pipe (.call "pluck" [(none, .call "pat" [(none, .text "c4 e4")])])
        (.call "out" [(none, .hole)])),
        .assign "b" (.call "saw" [(none, .call "pat" [(none, .text "c4")])]),
        .assign "a" (.call "pluck" [(none, .call "pat" [(none, .text "c4 e4")])]),
        .expr (.pipe (.binary .add (.ident "a") (.ident "b")) (.call "out" [(none, .hole)]))] :=
    standard_shapes_of_chars String.toList_ofList (by decide +kernel) (by with_unfolding_all rfl)
  refine ⟨hcompiled₁, hcompiled₂, compile_stableIdentities _ _ _ _ _ hcompiled₁ hcompiled₂ ?_
    4 6 "a" (.call "pluck" [(none, .call "pat" [(none, .text "c4 e4")])]) ?_ ?_⟩
  · -- neither program defines a function
    intro name params body
    rw [hsolo, hduo]
    simp
  · rw [hsolo, List.getElem?_append_right (by simp [length_preamble])]
    simp [length_preamble]
  · rw [hduo, List.getElem?_append_right (by simp [length_preamble])]
    simp [length_preamble]

end SignalPatch
