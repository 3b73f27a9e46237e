import SignalPatch.Proofs.NormalForm
import SignalPatch.Proofs.StaticCheck

/-!
# Resolving a resolved patch

A patch that was resolved without errors is left as it is by a second resolution
(`resolve_idempotent`). Where the first one has rewritten a tree, nothing is left to do in it: no
hole and no pipe, each call with one unnamed argument for each parameter. So the steps of the second
only look things up (`Again`), and they read the texts of patterns that were read before.
-/

namespace SignalPatch

/-! ## Complete calls -/

namespace Binding

theorem foldl_seat_complete {args : List (Arg NodeId)} (hnone : ∀ a ∈ args, a.name = none)
    (callee : String) (params : Signature) (before : List NodeId) :
    args.foldl (seat callee params)
        { slots := before.map some ++ args.map fun _ => none, positional := before.length } =
      { slots := (before ++ args.map Arg.value).map some
        positional := before.length + args.length } := by
  induction args generalizing before with
  | nil => simp
  | cons a args ih =>
    have hseat : seat callee params
        { slots := before.map some ++ (a :: args).map fun _ => none
          positional := before.length } a =
        { slots := (before ++ [a.value]).map some ++ args.map fun _ => none
          positional := (before ++ [a.value]).length } := by
      simp [seat, hnone a (by simp), seatPositional]
    rw [List.foldl_cons, hseat, ih fun b hb => hnone b (List.mem_cons_of_mem _ hb)]
    simp [Nat.add_assoc, Nat.add_comm]

theorem foldl_fill_complete (span : Span) (nodes : Arena) (values : List NodeId)
    (ps : List (Formal × Nat)) (hps : ∀ p ∈ ps, p.2 < values.length) :
    ps.foldl (fill span) { nodes, slots := values.map some } =
      { nodes, slots := values.map some } := by
  induction ps with
  | nil => rfl
  | cons p ps ih =>
    obtain ⟨hp, hps⟩ := List.forall_mem_cons.mp hps
    have hfill : fill span { nodes, slots := values.map some } p =
        { nodes, slots := values.map some } := by
      simp [fill, hp]
    rw [List.foldl_cons, hfill, ih hps]

theorem bind_complete {args : List (Arg NodeId)} {params : Signature}
    (hnone : ∀ a ∈ args, a.name = none) (hlen : args.length = params.length) (callee : String)
    (span : Span) (nodes : Arena) :
    bind callee params args span nodes = ⟨nodes, [], some (args.map Arg.value)⟩ := by
  have hseated : seatAll callee params args =
      { slots := (args.map Arg.value).map some, positional := args.length } := by
    have hslots : params.map (fun _ => none) = args.map fun _ => (none : Option NodeId) := by
      simp [List.map_const', hlen]
    have hall := foldl_seat_complete hnone callee params []
    rw [seatAll, hslots]
    simpa using hall
  have hfilled : fillAll params span nodes ((args.map Arg.value).map some) =
      { nodes, slots := (args.map Arg.value).map some } := by
    refine foldl_fill_complete span nodes _ _ fun p hp => ?_
    have := (List.mem_zipIdx hp).2.1
    simp
    omega
  have hvalues : ((args.map Arg.value).map some).mapM id = some (args.map Arg.value) := by
    rw [List.mapM_map]
    exact (List.mapM_pure (m := Option) (f := id)).trans (by simp)
  simp only [bind, hseated, hfilled, surplus, shortage, hlen, Nat.lt_irrefl,
    ↓reduceIte, List.isEmpty_nil, List.append_nil, List.map_nil, hvalues]

end Binding

/-! ## What is asked of literals -/

theorem Arena.setKind_eq {nodes : Arena} {i : NodeId} {kind : NodeKind}
    (h : nodes[i]? = some ⟨kind, s⟩) :
    nodes.setKind i kind = nodes := by
  refine Array.ext_getElem? fun k => ?_
  by_cases hk : k = i
  · subst hk
    rw [getElem?_setKind_self h, h]
  · exact getElem?_setKind_ne _ _ hk

theorem Arena.face_mono {nodes nodes' : Arena} {v : NodeId} {f : Face} (h : nodes.face v = f)
    (hf : f ≠ .other)
    (hl : ∀ (k : Nat) node, nodes[k]? = some node → node.kind.isLiteral → nodes'[k]? = some node) :
    nodes'.face v = f := by
  unfold face at h
  cases hk : nodes.kind v with
  | text _ | number _ =>
    rw [face_eq (hl v _ (getElem?_of_kind hk (by simp)) rfl), ← h, hk]
  | _ =>
    rw [hk] at h
    exact absurd h.symm hf

theorem Meaning.Accepts.mono {nodes nodes' : Arena} {m : Meaning} {values : List NodeId}
    (h : m.Accepts (values.map nodes.face))
    (hl : ∀ (k : Nat) node, nodes[k]? = some node → node.kind.isLiteral → nodes'[k]? = some node) :
    m.Accepts (values.map nodes'.face) := by
  cases m with
  | builtin b =>
    change b.kind.Accepts _ at h ⊢
    cases hb : b.kind with
    | op _ => trivial
    | pattern =>
      rw [hb] at h
      cases values with
      | nil => nofun
      | cons v _ =>
        rintro _ ⟨⟩
        obtain ⟨t, p, ht, hp⟩ := h _ rfl
        exact ⟨t, p, Arena.face_mono ht nofun hl, hp⟩
    | control kind =>
      rw [hb] at h
      cases values with
      | nil => trivial
      | cons v vs =>
        obtain ⟨⟨t, ht⟩, numbers, hnumbers⟩ := h
        refine ⟨⟨t, Arena.face_mono ht nofun hl⟩, numbers, ?_⟩
        rw [← hnumbers]
        refine List.map_congr_left fun w hw => Arena.face_mono rfl ?_ hl
        obtain ⟨x, -, hx⟩ := List.mem_map.mp (hnumbers ▸ List.mem_map_of_mem hw)
        rw [← hx]
        nofun
  | _ => trivial

namespace Resolving

/-! ## Steps of a second resolution -/

/-- A state of a second resolution of `R`, with `T` in scope: no error has been found, and the
patterns that have been read are read in `R`. -/
structure Retraces (R : Resolved) (T : SymbolTable) (r : Resolution) : Prop where
  nodes : r.nodes = R.patch.nodes
  symbols : r.symbols = T
  clean : Clean r.findings
  read : PatternsRead r.nodes r.patterns
  known : ∀ k, (r.patterns.lookup k).isSome → (R.patterns.lookup k).isSome

/-- In a second resolution of `R`, the step `x` gives `a` and changes nothing but the names in
scope. Behind it the patterns of the texts `K` have been read. -/
def Again (R : Resolved) (T : SymbolTable) (x : Resolving α) (a : α) (T' : SymbolTable)
    (K : NodeId → Prop) : Prop :=
  ∀ r, Retraces R T r → ∃ r', x.run r = (a, r') ∧ Retraces R T' r' ∧
    ∀ k, (r.patterns.lookup k).isSome ∨ K k → (r'.patterns.lookup k).isSome

namespace Again

variable {R : Resolved} {T T₁ T₂ : SymbolTable} {K L : NodeId → Prop} {x : Resolving α}
  {f : α → Resolving β}

theorem stay (h : ∀ r, Retraces R T r → x.run r = (a, r)) : Again R T x a T fun _ => False :=
  fun r hr => ⟨r, h r hr, hr, by simp⟩

theorem collect (h : Again R T x a T₁ fun _ => False) :
    Again R T x a T₁ fun k => Again R T x a T₁ (· = k) := by
  intro r hr
  obtain ⟨r', hrun, hr', hkeys⟩ := h r hr
  refine ⟨r', hrun, hr', fun k hk => hk.elim (fun hk => hkeys k (.inl hk)) fun hk => ?_⟩
  obtain ⟨_, hrun', -, hkeys'⟩ := hk r hr
  cases hrun.symm.trans hrun'
  exact hkeys' k (.inr rfl)

theorem mono (h : Again R T x a T₁ K) (hK : ∀ k, L k → K k) : Again R T x a T₁ L := by
  intro r hr
  obtain ⟨r', hrun, hr', hkeys⟩ := h r hr
  exact ⟨r', hrun, hr', fun k hk => hkeys k (hk.imp_right (hK k))⟩

theorem bind (h : Again R T x a T₁ K) (hf : Again R T₁ (f a) b T₂ L) :
    Again R T (x >>= f) b T₂ fun k => K k ∨ L k := by
  intro r hr
  obtain ⟨r₁, hrun₁, hr₁, hkeys₁⟩ := h r hr
  obtain ⟨r₂, hrun₂, hr₂, hkeys₂⟩ := hf r₁ hr₁
  refine ⟨r₂, by rw [run_bind, hrun₁, hrun₂], hr₂, fun k hk => hkeys₂ k ?_⟩
  rcases hk with hk | hk | hk
  · exact .inl (hkeys₁ k (.inl hk))
  · exact .inl (hkeys₁ k (.inr hk))
  · exact .inr hk

theorem andThen (h : Again R T x a T₁ K) (hf : ∀ r, Retraces R T₁ r → (f a).run r = (b, r)) :
    Again R T (x >>= f) b T₁ K :=
  (h.bind (stay hf)).mono fun _ => .inl

theorem kindOf {f : NodeKind → Resolving β} (hnode : R.patch.nodes[i]? = some node)
    (hf : Again R T (f node.kind) b T₁ K) : Again R T (Resolving.kindOf i >>= f) b T₁ K := by
  intro r hr
  rw [run_bind, run_kindOf, hr.nodes, Arena.kind_eq hnode]
  exact hf r hr

theorem setKind {i : NodeId} {kind : NodeKind} (hnode : R.patch.nodes[i]? = some ⟨kind, s⟩)
    (hr : Retraces R T r) :
    (Resolving.setKind i kind).run r = ((), r) := by
  rw [run_setKind, hr.nodes, Arena.setKind_eq hnode, ← hr.nodes]

theorem forM {ids : List NodeId} {f : NodeId → Resolving Unit}
    (h : ∀ i ∈ ids, Again R T (f i) () T fun _ => False) :
    Again R T (ids.forM f) () T fun k => ∃ i ∈ ids, Again R T (f i) () T (· = k) := by
  induction ids with
  | nil => exact (stay fun r _ => rfl).mono (by simp)
  | cons i ids ih =>
    obtain ⟨hi, hids⟩ := List.forall_mem_cons.mp h
    exact (hi.collect.bind (f := fun _ => ids.forM f) (ih hids)).mono fun k => by simp

theorem mapM {xs : List α} {f : α → Resolving α}
    (h : ∀ x ∈ xs, Again R T (f x) x T fun _ => False) :
    Again R T (xs.mapM f) xs T fun k => ∃ x ∈ xs, Again R T (f x) x T (· = k) := by
  induction xs with
  | nil => exact (stay fun r _ => rfl).mono (by simp)
  | cons x xs ih =>
    obtain ⟨hx, hxs⟩ := List.forall_mem_cons.mp h
    rw [List.mapM_cons]
    have hrest := (ih hxs).andThen (b := x :: xs) (f := fun ys => pure (x :: ys)) fun r _ => rfl
    exact (hx.collect.bind hrest).mono fun k => by simp

end Again

/-! ## Calls -/

/-- The pattern of the text is read between the two states. -/
def New (r r' : Resolution) (k : NodeId) : Prop :=
  (r'.patterns.lookup k).isSome ∧ ¬ (r.patterns.lookup k).isSome

theorem New.split (h : New r r₂ k) : New r r₁ k ∨ New r₁ r₂ k := by
  by_cases hk : (r₁.patterns.lookup k).isSome
  · exact .inl ⟨hk, h.2⟩
  · exact .inr ⟨h.1, hk⟩

theorem not_new (h : r'.patterns = r.patterns) : ¬ New r r' k := by
  rw [New, h]
  exact fun hk => hk.2 hk.1

theorem checkBound_new (h : New r ((checkBound callee m s (some values)).run r).2 k) :
    ∃ b vs, m = .builtin b ∧ b.kind = .pattern ∧ values = k :: vs := by
  cases m with
  | builtin b =>
    change New r ((checkBuiltin callee b values s).run r).2 k at h
    unfold checkBuiltin at h
    cases hb : b.kind with
    | op _ =>
      rw [hb] at h
      exact absurd h (not_new rfl)
    | pattern =>
      rw [hb] at h
      cases values with
      | nil => exact absurd h (not_new rfl)
      | cons v vs =>
        refine ⟨b, vs, rfl, hb, ?_⟩
        change New r ((readPattern v).run r).2 k at h
        obtain ⟨_, _, hrun, hother⟩ := readPattern_frame v r
        rw [New, hrun] at h
        -- Only the entry of the text that was read is new.
        by_cases hk : k = v
        · rw [hk]
        · rw [hother k hk] at h
          exact absurd h.1 h.2
    | control kind =>
      rw [hb] at h
      obtain ⟨_, _, hrun⟩ := declareHostParam_frame callee kind values s r
      have hpatterns := congrArg Resolution.patterns hrun
      exact absurd h (not_new hpatterns)
  | _ => exact absurd h (not_new rfl)

theorem checkBound_again {R : Resolved} {values : List NodeId}
    (haccepts : m.Accepts (values.map R.patch.nodes.face)) (hchecked : m.Checked R values)
    (T : SymbolTable) (callee : String) (s : Span) :
    Again R T (checkBound callee m s (some values)) () T
      fun k => ∃ r, New r ((checkBound callee m s (some values)).run r).2 k := by
  intro r hr
  have hw := checkBound_ok 0 0 callee m s (some values) r
  have hnodes := (checkBound_nodes callee m s (some values) r).trans hr.nodes
  have hclean := (checkBound_clean callee m s values r).mpr ⟨hr.clean, hr.nodes ▸ haccepts⟩
  -- a pattern function reads its text, and it was read before
  have hread : ∀ r₀ k, New r₀ ((checkBound callee m s (some values)).run r₀).2 k →
      (((checkBound callee m s (some values)).run r).2.patterns.lookup k).isSome ∧
        (R.patterns.lookup k).isSome := by
    intro r₀ k hk
    obtain ⟨b, vs, rfl, hb, rfl⟩ := checkBound_new hk
    unfold Meaning.Checked at hchecked
    simp only [hb] at hchecked
    obtain ⟨_, _, p, -, hp, -⟩ := hchecked k rfl
    have hrun : (checkBound callee (.builtin b) s (some (k :: vs))).run r =
        (readPattern k).run r := by
      change (checkBuiltin callee b (k :: vs) s).run r = _
      unfold checkBuiltin
      rw [hb]
      rfl
    rw [hrun] at hclean ⊢
    obtain ⟨_, _, -, hsome⟩ := (readPattern_ok 0 0 k r).2 hclean
    exact ⟨hsome, by simp [hp]⟩
  refine ⟨_, rfl, ⟨hnodes, hw.symbols.trans hr.symbols, hclean, hw.read hr.read, fun k hk => ?_⟩,
    fun k hk => ?_⟩
  · by_cases hold : (r.patterns.lookup k).isSome
    · exact hr.known k hold
    · exact (hread r k ⟨hk, hold⟩).2
  · rcases hk with hk | ⟨r₀, hk⟩
    · exact hw.patterns k hk
    · exact (hread r₀ k hk).1

theorem resolveCall_again {R : Resolved} {i : NodeId} {args : List (Arg NodeId)}
    (hm : (T.lookup callee).map Symbol.meaning = some m) (hsig : m.signature? = some params)
    (hnode : R.patch.nodes[i]? = some ⟨.call callee args, s⟩) (hlen : args.length = params.length)
    (hargs : ∀ a ∈ args, a.name = none ∧ a.span = R.patch.nodes.span a.value)
    (hcheck : Again R T (checkBound callee m s (some (args.map Arg.value))) () T K) :
    Again R T (resolveCall i callee args) () T K := by
  intro r hr
  have hnode' := hr.nodes ▸ hnode
  have hcalled := resolveCall_called hnode' args
  obtain ⟨r', hrun, hr', hkeys⟩ := hcheck r hr
  have hout : ((resolveCall i callee args).run r).2 = r' := by
    generalize ((resolveCall i callee args).run r).2 = r₃ at hcalled ⊢
    rw [← hr.symbols] at hm
    cases hcalled with
    | refused hnone _ => rw [hnone m hm] at hsig; cases hsig
    | bound hm' hsig' hbind =>
      cases hm.symm.trans hm'
      cases hsig.symm.trans hsig'
      -- The arguments are those that the first run wrote: unnamed and one for each parameter.
      have hcomplete : args.map (fun a => ⟨none, a.value, r.nodes.span a.value⟩) = args := by
        refine (List.map_congr_left fun a ha => ?_).trans args.map_id
        obtain ⟨hname, hspan⟩ := hargs a ha
        rw [hr.nodes, ← hspan, ← hname]
        rfl
      rw [run_bindCall, Arena.setKind_eq hnode',
        Binding.bind_complete (fun a ha => (hargs a ha).1) hlen] at hbind
      simp only [boundNodes, Option.map_some, List.map_map, Function.comp_def, hcomplete,
        Arena.setKind_eq hnode', List.append_nil, Option.getD_some] at hbind
      cases hbind
      rw [hrun]
  exact ⟨r', Prod.ext rfl hout, hr', hkeys⟩

/-! ## Trees -/

def NewOr (r r' : Resolution) (hole : Bool) (K : NodeId → Prop) (k : NodeId) : Prop :=
  New r r' k ∨ hole ∧ K k

theorem NewOr.split (h : NewOr r r₂ (hole || hole') K k) :
    NewOr r r₁ hole K k ∨ NewOr r₁ r₂ hole' K k := by
  rw [NewOr, Bool.or_eq_true] at h
  rcases h with h | ⟨h | h, hk⟩
  · exact h.split.imp .inl .inl
  · exact .inl (.inr ⟨h, hk⟩)
  · exact .inr (.inr ⟨h, hk⟩)

theorem not_newOr (h : r'.patterns = r.patterns) : ¬ NewOr r r' false K k := by
  simp [NewOr, not_new h]

/-- With `T` in scope, resolving the tree at `j` again leaves it as it is and reads the patterns of
the texts `K`. -/
def Rereads (R : Resolved) (T : SymbolTable) (n : Nat) (K : NodeId → Prop) (j : NodeId) : Prop :=
  ∀ depth, rank n j < depth → Again R T (resolve depth none j) j T K

section

variable {R : Resolved} {T : SymbolTable} {n : Nat} {K L : NodeId → Prop} {i j : NodeId}

theorem Rereads.mono (h : Rereads R T n K j) (hK : ∀ k, L k → K k) : Rereads R T n L j :=
  fun depth hd => (h depth hd).mono hK

theorem Rereads.of_literal (hnode : R.patch.nodes[j]? = some node) (hl : node.kind.isLiteral) :
    Rereads R T n (fun _ => False) j := by
  rintro (_ | depth) hd
  · cases hd
  · refine .kindOf hnode ?_
    cases hk : node.kind with
    | number _ | bool _ | text _ => exact .stay fun _ _ => rfl
    | _ => rw [hk] at hl; cases hl

theorem Rereads.of_ident (hnode : R.patch.nodes[j]? = some ⟨.ident x, s⟩)
    (hlook : T.lookup x = some symbol) (hvalue : symbol.isValue) :
    Rereads R T n (fun _ => False) j := by
  rintro (_ | depth) hd
  · cases hd
  · refine .kindOf hnode (.stay fun r hr => ?_)
    simp only [run_bind, run_spanOf, checkValue, run_lookup, hr.symbols, hlook, hvalue,
      ↓reduceIte, run_pure]

theorem Rereads.of_binary (hnode : R.patch.nodes[i]? = some ⟨.binary op l m, s⟩)
    (hl : Rereads R T n K l) (hm : Rereads R T n L m) (hli : rank n l < rank n i)
    (hmi : rank n m < rank n i) :
    Rereads R T n (fun k => K k ∨ L k) i := by
  rintro (_ | depth) hd
  · cases hd
  · refine .kindOf hnode ?_
    refine (hl depth (by omega)).bind ((hm depth (by omega)).andThen fun r hr => ?_)
    rw [run_bind, Again.setKind hnode hr]
    rfl

theorem Rereads.of_call {args : List (Arg NodeId)}
    (hnode : R.patch.nodes[i]? = some ⟨.call callee args, s⟩)
    (hargs : ∀ a ∈ args, Rereads R T n (fun _ => False) a.value ∧ rank n a.value < rank n i)
    (hcall : Again R T (resolveCall i callee args) () T K) :
    Rereads R T n (fun k => (∃ a ∈ args, Rereads R T n (· = k) a.value) ∨ K k) i := by
  rintro (_ | depth) hd
  · cases hd
  · have hstep : ∀ {L : NodeId → Prop} (a : Arg NodeId), rank n a.value < rank n i →
        Rereads R T n L a.value →
          Again R T (do return { a with value := ← resolve depth none a.value }) a T L :=
          fun a hlt h =>
      (h depth (by omega)).andThen (f := fun v => pure { a with value := v }) fun _ _ => rfl
    have hall := Again.mapM fun a ha => hstep a (hargs a ha).2 (hargs a ha).1
    have hlast : Again R T (resolveCall i callee args >>= fun _ => pure i) i T K :=
      hcall.andThen fun _ _ => rfl
    have hboth := hall.bind (f := fun xs => resolveCall i callee xs >>= fun _ => pure i) hlast
    refine .kindOf hnode (hboth.mono fun k hk => ?_)
    exact hk.imp_left fun ⟨a, ha, hk⟩ => ⟨a, ha, hstep a (hargs a ha).2 hk⟩

end

theorem CallBound.again {R : Resolved} {i : NodeId} {args : List (Arg NodeId)}
    (h : CallBound R n s callee args i r r') (hk : Kept n i (i + 1) r' R) (hR : R.success)
    (hT : SignaturesOk r.symbols) (hi : i < n)
    (hargs : ∀ a ∈ args, a.value < i ∧ Rereads R r.symbols n (fun _ => False) a.value) :
    Rereads R r.symbols n
      (fun k => (∃ a ∈ args, Rereads R r.symbols n (· = k) a.value) ∨ New r r' k) i := by
  cases h with
  | @intro m params args' r₂ hm hsig hsup hnode hnone hspans _ hpatterns =>
    have hw := checkBound_ok 0 0 callee m s (some (args'.map Arg.value)) r₂
    have haccepts := ((checkBound_clean ..).mp (hk.noError hR)).2.mono fun k node hnode hl =>
      hk.literals k node (hw.literals k node hnode hl) hl
    have hcheck := checkBound_again haccepts (checkBound_checked hk hR) r.symbols callee s
    have hspans := hspans fun a ha => Nat.lt_trans (hargs a ha).1 hi
    have hcall := resolveCall_again hm hsig hnode (by simpa using hsup.length)
      (fun a ha => ⟨hnone a ha, hspans a ha⟩) hcheck
    refine (Rereads.of_call hnode (fun x hx => ?_) hcall).mono fun k hk => ?_
    · rcases hsup.origin (hT.copies callee _ _ hm hsig) (List.mem_map_of_mem hx)
        with ⟨a, ha, hxa⟩ | ⟨v, hv⟩
      · rw [hxa]
        exact ⟨(hargs a ha).2, rank_lt (hargs a ha).1 hi⟩
      · exact ⟨.of_literal hv.2 rfl, rank_fresh hv.1 hi⟩
    · rcases hk with ⟨a, ha, hk⟩ | hk
      · obtain ⟨x, hx, hxa⟩ := List.mem_map.mp (hsup.used a ha)
        exact .inl ⟨x, hx, hxa ▸ hk⟩
      · exact .inr ⟨r₂, hk.1, hpatterns ▸ hk.2⟩

theorem hole_again {R : Resolved} {hole : Option NodeId} (hw : Walk P a e i hole' r j r₁)
    (h : ∀ x, hole = some x → x < a ∧ Rereads R r.symbols P.size K x) :
    ∀ x, hole = some x → x < i + 1 ∧ Rereads R r₁.symbols P.size K x := by
  rw [hw.within.symbols]
  exact fun x hx => ⟨Nat.lt_of_lt_of_le (h x hx).1 (Nat.le_succ_of_le hw.stored.le), (h x hx).2⟩

mutual

/-- What a walk makes of a tree is left as it is. The patterns that the walk has read are read
again, with those of what flows into the holes of the tree. -/
theorem Walk.again {R : Resolved} {K : NodeId → Prop} :
    Walk P a e i hole r j r' → P.size ≤ r.nodes.size →
    Kept P.size a (i + 1) r' R → R.success →
    (∀ x, hole = some x → x < a ∧ Rereads R r.symbols P.size K x) →
    Rereads R r.symbols P.size (NewOr r r' e.hasHole K) j
  | .number _ hr, _, hk, _, _ | .bool _ hr, _, hk, _, _ | .text _ hr, _, hk, _, _ =>
    (Rereads.of_literal ((hk.nodes _ (Nat.le_refl _) (Nat.lt_succ_self _)).trans hr) rfl).mono
      fun k hk => not_newOr rfl hk
  | .ident _ hr, _, hk, hR, _ => by
    have hi := (Array.getElem?_eq_some_iff.mp hr).1
    obtain ⟨hw, hvalue⟩ := checkValue_ok 0 0 _ _ r
    obtain ⟨symbol, hl, hv⟩ := hvalue (hk.noError hR)
    have hnode := (hk.nodes _ (Nat.le_refl _) (Nat.lt_succ_self _)).trans
      ((hw.nodes _ hi (.inr (Nat.zero_le _))).trans hr)
    exact (Rereads.of_ident hnode hl hv).mono fun k hk => not_newOr (by rw [checkValue_frame]) hk
  | .filled _, _, _, _, hhole => (hhole _ rfl).2.mono fun k hk =>
    hk.elim (absurd · (not_new rfl)) And.right
  | .unfilled _, _, hk, hR, _ => absurd (hk.noError hR) (not_clean_report rfl _ _)
  | .binary hl hr h hnode, hn, hk, hR, hhole => by
    obtain ⟨hroot, hn₁, hk₁, hk₂⟩ := hl.keptOperands hr hn h hnode hk
    have hm := (Array.getElem?_eq_some_iff.mp h).1
    have hflow := fun x hx => (hhole x hx).1
    have hrhs := hr.again hn₁ hk₂ hR (hole_again hl hhole)
    rw [hl.within.symbols] at hrhs
    have hlhs := hl.again hn hk₁ hR hhole
    refine (hlhs.of_binary hroot hrhs (rank_lt ?_ hm) (rank_lt ?_ hm)).mono fun k => NewOr.split
    · exact Nat.lt_succ_of_le (Nat.le_trans (hl.le hflow) (Nat.le_of_succ_le hr.stored.le))
    · exact Nat.lt_succ_of_le (hr.le (hole_lt hflow (Nat.le_succ_of_le hl.stored.le)))
  | .pipe hs ht htarget h, hn, hk, hR, hhole => by
    -- what the pipe gives is its target, where the source has been put in for the holes
    obtain ⟨hn₁, hk₁, hk₂⟩ := hs.keptParts ht hn (hk.narrow (Nat.le_refl _) (Nat.le_succ _))
    have hsource := hs.again hn hk₁ hR hhole
    have hthere := ht.again (K := NewOr r _ _ K) hn₁ hk₂ hR fun x hx => by
      cases hx
      exact ⟨Nat.lt_succ_of_le (hs.le fun x hx => (hhole x hx).1), hs.within.symbols ▸ hsource⟩
    rw [hs.within.symbols] at hthere
    refine hthere.mono fun k hk => ?_
    rcases hk with hk | hk
    · exact hk.split.elim (fun hk => .inr ⟨htarget.2, .inl hk⟩) .inl
    · exact .inr ⟨htarget.2, .inr hk⟩
  | .refused _ _ _ _, _, hk, hR, _ => absurd (hk.noError hR) (not_clean_report rfl _ _)
  | .call hargs h hnode hn' hT, hn, hk, hR, hhole => by
    have hi := (Array.getElem?_eq_some_iff.mp h).1
    have hai := hargs.stored.le
    obtain ⟨hw, hbound⟩ := resolveCall_ok hnode hT hi hn' _
    have hk₁ := hk.before hw (Nat.succ_le_of_lt hi) (Nat.le_refl _) (Nat.le_succ _)
      (.inl (Nat.le_refl _)) (by omega)
    have hk₂ := hk.narrow hai (Nat.le_refl _)
    obtain ⟨hvalues, hkeys⟩ := hargs.again (Nat.le_of_lt hi) hn hk₁ hR hhole
    have hlt := hargs.lt fun x hx => (hhole x hx).1
    have hcall := (hbound R hk₂ hR).again hk₂ hR hT hi fun x hx =>
      ⟨hlt x hx, hargs.within.symbols ▸ hvalues x hx⟩
    rw [hargs.within.symbols] at hcall
    refine hcall.mono fun k hk => ?_
    rcases hk with hk | hk
    · exact hk.split.imp (fun hk => hkeys k (.inl hk)) id
    · exact .inl (hkeys k (.inr hk))

theorem WalkArgs.again {R : Resolved} {K : NodeId → Prop} :
    WalkArgs P a args ids b hole r ids' r' → b ≤ P.size →
    P.size ≤ r.nodes.size → Kept P.size a b r' R → R.success →
    (∀ x, hole = some x → x < a ∧ Rereads R r.symbols P.size K x) →
    (∀ x ∈ ids', Rereads R r.symbols P.size (fun _ => False) x.value) ∧
      ∀ k, NewOr r r' (argsHaveHole args) K k →
        ∃ x ∈ ids', Rereads R r.symbols P.size (· = k) x.value
  | .nil, _, _, _, _, _ => ⟨by simp, fun k hk => absurd hk (not_newOr rfl)⟩
  | .cons hv hargs, hb, hn, hk, hR, hhole => by
    have hai := hv.stored.le
    have hib := hargs.stored.le
    have hn₁ := Nat.le_trans hn hv.within.size
    have hk₁ := hk.before hargs.within hb (Nat.le_refl _) hib (.inl (Nat.le_refl _)) (by omega)
    have hhead := hv.again hn hk₁ hR hhole
    obtain ⟨htail, hkeys⟩ := hargs.again hb hn₁ (hk.narrow (by omega) (Nat.le_refl _)) hR
      (hole_again hv hhole)
    rw [hv.within.symbols] at htail hkeys
    refine ⟨List.forall_mem_cons.mpr ⟨hhead.mono nofun, htail⟩, fun k hk => ?_⟩
    rcases NewOr.split hk with hk | hk
    · exact ⟨_, List.mem_cons_self, hhead.mono fun _ h => h ▸ hk⟩
    · obtain ⟨x, hx, hagain⟩ := hkeys k hk
      exact ⟨x, List.mem_cons_of_mem _ hx, hagain⟩

end

theorem TreeRun.again (h : TreeRun P R G scope e i j r r') (hR : R.success) :
    Rereads R (.above G scope) P.size (New r r') j := by
  obtain ⟨a, hwalk, hk⟩ := h.tree
  rw [← h.symbols]
  exact (hwalk.again (K := fun _ => False) h.size hk hR nofun).mono fun k hk => .inl hk

/-! ## Statements -/

section

variable {R : Resolved} {n depth : Nat} {K : NodeId → Prop} (hd : n + 1 < depth)
include hd

theorem Rereads.enough (h : Rereads R T n K j) : Again R T (resolve depth none j) j T K := by
  refine h depth (Nat.lt_of_le_of_lt ?_ hd)
  unfold rank
  split <;> omega

theorem resolveFunction_again (hnode : R.patch.nodes[i]? = some ⟨.define name params body, span⟩)
    (h : Rereads R (.above G (bodyScope params)) n K body) :
    Again R ⟨[], G⟩ (resolveFunction depth i) () ⟨[], G⟩ K := by
  intro r hr
  obtain ⟨r₁, hrun, hr₁, hkeys⟩ := h.enough hd { r with symbols := .above G (bodyScope params) }
    { hr with symbols := rfl }
  have hout := run_resolveFunction (hr.nodes ▸ hnode) hr.symbols depth
  rw [hrun] at hout
  dsimp only at hout
  rw [hr₁.nodes, Arena.setKind_eq hnode, hr₁.symbols, SymbolTable.pop_above, ← hr₁.nodes] at hout
  exact ⟨{ r₁ with symbols := ⟨[], G⟩ }, Prod.ext rfl hout, { hr₁ with symbols := rfl }, hkeys⟩

theorem resolveStatement_again (hnode : R.patch.nodes[i]? = some ⟨.assign x v, span⟩)
    (hfree : vars.find? (Text.fingerprint x) = none) (h : Rereads R (.above G vars) n K v) :
    Again R (.above G vars) (resolveStatement depth i) i
      (.above G (variableSymbol x span :: vars)) K := by
  intro r hr
  obtain ⟨r₁, hrun, hr₁, hkeys⟩ := h.enough hd r hr
  have hdefine := define?_variable G vars x span
  rw [hfree, if_neg (by simp), ← hr₁.symbols] at hdefine
  refine ⟨{ r₁ with symbols := .above G (variableSymbol x span :: vars) }, ?_,
    { hr₁ with symbols := rfl }, hkeys⟩
  rw [resolveStatement_assign (hr.nodes ▸ hnode), hrun]
  dsimp only
  rw [hr₁.nodes, Arena.setKind_eq hnode, ← hr₁.nodes, run_define_some hdefine]

end

theorem BodyRuns.again (h : BodyRuns P R G ss ids r r') (hR : R.success) (hd : P.size + 1 < depth) :
    (∀ i ∈ ids, Defines P i → Again R ⟨[], G⟩ (resolveFunction depth i) () ⟨[], G⟩ fun _ => False) ∧
      ∀ k, New r r' k → ∃ i ∈ ids, Defines P i ∧
        Again R ⟨[], G⟩ (resolveFunction depth i) () ⟨[], G⟩ (· = k) := by
  induction h with
  | nil => exact ⟨by simp, fun k hk => absurd hk (not_new rfl)⟩
  | cons hfirst _ ih =>
    obtain ⟨hbodies, hkeys⟩ := ih
    cases hfirst with
    | define hrun hnode hnode' =>
      have hagain := resolveFunction_again hd hnode' (hrun.again hR)
      refine ⟨List.forall_mem_cons.mpr ⟨fun _ => hagain.mono nofun, hbodies⟩, fun k hk => ?_⟩
      rcases New.split hk with hk | hk
      · exact ⟨_, List.mem_cons_self, ⟨_, _, _, _, hnode⟩, hagain.mono fun _ h => h ▸ hk⟩
      · exact (hkeys k hk).imp fun _ h => ⟨List.mem_cons_of_mem _ h.1, h.2⟩
    | other hdef =>
      exact ⟨List.forall_mem_cons.mpr ⟨fun h => absurd h hdef, hbodies⟩, fun k hk =>
        (hkeys k hk).imp fun _ h => ⟨List.mem_cons_of_mem _ h.1, h.2⟩⟩

theorem StatementRuns.again (h : StatementRuns P R G ss ids ids' vars r vars' r') (hR : R.success)
    (hd : P.size + 1 < depth) :
    Again R (.above G vars) (ids'.mapM (resolveStatement depth)) ids'
      (.above G vars') (New r r') := by
  induction h with
  | nil => exact (Again.stay fun _ _ => rfl).mono fun k => not_new rfl
  | @cons s i j vars r vars₁ r₁ ss ids ids' vars₂ r₂ hfirst _ ih =>
    have hj : Again R (.above G vars) (resolveStatement depth j) j (.above G vars₁) (New r r₁) := by
      cases hfirst with
      | define _ hnode =>
        refine (Again.stay fun r hr => ?_).mono fun k => not_new rfl
        exact resolveStatement_define (hr.nodes ▸ hnode) depth
      | assign hrun _ hnode hfree => exact resolveStatement_again hd hnode hfree (hrun.again hR)
      | taken _ _ _ hfails => exact absurd hR hfails
      | expr hrun =>
        intro r hr
        obtain ⟨node, hnode, hkind⟩ := (hrun.rewritten hR).1.root nofun
        rw [resolveStatement_expr (hr.nodes ▸ hnode) hkind]
        exact (hrun.again hR).enough hd r hr
    rw [List.mapM_cons]
    refine (hj.bind (L := New r₁ r₂) ?_).mono fun k => New.split
    exact ih.andThen (f := fun js => pure (j :: js)) fun r _ => rfl

/-! ## Collecting the functions -/

theorem define_withNodes (h : ((define symbol span).run r).2 = r₁) (nodes : Arena) :
    ((define symbol span).run { r with nodes }).2 = { r₁ with nodes } ∧ r₁.nodes = r.nodes := by
  cases hdefine : r.symbols.define? { symbol with definedAt := some span } with
  | none =>
    rw [run_define_none hdefine] at h
    rw [run_define_none (r := { r with nodes }) hdefine, ← h]
    exact ⟨rfl, rfl⟩
  | some t =>
    rw [run_define_some hdefine] at h
    rw [run_define_some (r := { r with nodes }) hdefine, ← h]
    exact ⟨rfl, rfl⟩

theorem not_defines_of_kind {nodes : Arena} (hnode : nodes[i]? = some node)
    (hkind : node.kind.isStatement = false) :
    ¬ Defines nodes i := by
  rintro ⟨_, _, _, _, hnode'⟩
  cases hnode.symm.trans hnode'
  cases hkind

theorem hoisted_again {R : Resolved} (h : StatementsResolved P R vars ids ids') :
    ∀ r r₁ : Resolution, r.nodes = P → ((ids.forM hoist).run r).2 = r₁ →
      ((ids'.forM hoist).run { r with nodes := R.patch.nodes }).2 =
        { r₁ with nodes := R.patch.nodes } := by
  induction h with
  | nil =>
    rintro r _ - rfl
    rfl
  | define hP hR _ ih =>
    -- Definitions are left as they are, so both runs add the same symbol.
    intro r r₁ hr hrun
    rw [run_forM_cons, run_hoist_define (hr ▸ hP)] at hrun
    generalize hmid : ((define _ _).run _).2 = r₀ at hrun
    obtain ⟨hdefine, hnodes⟩ := define_withNodes hmid R.patch.nodes
    rw [run_forM_cons, run_hoist_define hR, hdefine]
    exact ih r₀ r₁ (hnodes.trans hr) hrun
  | assign hP hR _ _ _ ih =>
    intro r r₁ hr hrun
    rw [run_forM_cons, run_hoist_other (hr ▸ not_defines_assign hP)] at hrun
    rw [run_forM_cons, run_hoist_other (not_defines_assign hR)]
    exact ih r r₁ hr hrun
  | expr hv _ ih =>
    intro r r₁ hr hrun
    obtain ⟨_, hP, hkind⟩ := hv.read
    obtain ⟨_, hR, hkind'⟩ := hv.root nofun
    rw [run_forM_cons, run_hoist_other (hr ▸ not_defines_of_kind hP hkind)] at hrun
    rw [run_forM_cons, run_hoist_other (not_defines_of_kind hR hkind')]
    exact ih r r₁ hr hrun

end Resolving

open Resolving

/-- Two tables of patterns that are read from the same nodes are the same if they have the same
texts. -/
theorem PatternsRead.lookup_eq {nodes : Arena} (h : PatternsRead nodes ps)
    (h' : PatternsRead nodes ps') (hkeys : ∀ k, (ps.lookup k).isSome ↔ (ps'.lookup k).isSome)
    (k : NodeId) : ps.lookup k = ps'.lookup k := by
  cases hp : ps.lookup k with
  | none =>
    exact (Option.not_isSome_iff_eq_none.mp fun h => by simpa [hp] using (hkeys k).mpr h).symm
  | some p =>
    obtain ⟨p', hp'⟩ := Option.isSome_iff_exists.mp ((hkeys k).mp (by simp [hp]))
    obtain ⟨t, s, hnode, hparse⟩ := h k p hp
    obtain ⟨t', s', hnode', hparse'⟩ := h' k p' hp'
    cases hnode.symm.trans hnode'
    cases hparse.symm.trans hparse'
    exact hp'.symm

namespace PatchRun

variable {p : Patch} (h : PatchRun p ss G vars r₁ r₂ r₃) (hR : p.resolve.success)
include h hR

theorem enough : p.nodes.size + 1 < p.resolve.patch.nodes.size + 2 :=
  Nat.lt_succ_of_le (Nat.succ_le_succ (resolve_elaborated h.stored hR).size)

theorem functions_again : Again p.resolve ⟨[], G⟩
    (p.resolve.patch.statements.forM (resolveFunction (p.resolve.patch.nodes.size + 2))) ()
      ⟨[], G⟩ (New r₁ r₂) := by
  have hstatements := (resolve_elaborated h.stored hR).statements
  obtain ⟨hbodies, hkeys⟩ := h.bodyRuns.again hR (h.enough hR)
  refine (Again.forM fun i hi => ?_).mono fun k hk => ?_
  · by_cases hdef : Defines p.resolve.patch.nodes i
    · obtain ⟨_, _, _, _, hnode⟩ := hdef
      obtain ⟨hi', _, hP⟩ := hstatements.mem_of_define hi hnode
      exact hbodies i hi' ⟨_, _, _, _, hP⟩
    · exact .stay fun r hr => Prod.ext rfl (resolveFunction_other (hr.nodes ▸ hdef) _)
  · obtain ⟨i, hi, ⟨_, _, _, _, hP⟩, hagain⟩ := hkeys k hk
    exact ⟨i, hstatements.mem_statements hi hP, hagain⟩

theorem again :
    ∃ r, (program p.resolve.patch.statements (p.resolve.patch.nodes.size + 2)).run
        { nodes := p.resolve.patch.nodes } = (p.resolve.patch.statements, r) ∧
        Retraces p.resolve ⟨[], G⟩ r ∧
      ∀ k, (p.resolve.patterns.lookup k).isSome → (r.patterns.lookup k).isSome := by
  have hE := resolve_elaborated h.stored hR
  -- The second run goes through the three passes of the first: names, bodies, statements.
  have hhoisted := hoisted_again hE.statements { nodes := p.nodes } r₁ rfl h.hoisted
  have hstart : Retraces p.resolve ⟨[], G⟩ { r₁ with nodes := p.resolve.patch.nodes } := by
    refine ⟨rfl, by rw [h.opened], (h.clean hR).1, ?_, ?_⟩ <;> rw [h.opened] <;> nofun
  obtain ⟨r₂', hrun₂, hr₂, hkeys₂⟩ := h.functions_again hR _ hstart
  obtain ⟨r₃', hrun₃, hr₃, hkeys₃⟩ :=
    h.statementRuns.again hR (h.enough hR) { r₂' with symbols := .above G [] }
    { hr₂ with symbols := rfl }
  refine ⟨{ r₃' with symbols := ⟨[], G⟩ }, ?_, { hr₃ with symbols := rfl }, fun k hk => hkeys₃ k ?_⟩
  · have hpush : r₂'.symbols.push = .above G [] := by
      rw [hr₂.symbols]
      rfl
    rw [run_program, hhoisted]
    dsimp only
    rw [hrun₂]
    dsimp only
    rw [hpush, hrun₃]
    dsimp only
    rw [hr₃.symbols, SymbolTable.pop_above]
  · rw [h.patterns] at hk
    have hnew : New r₁ r₃ k := ⟨hk, by rw [h.opened]; nofun⟩
    exact hnew.split.imp (fun hk => hkeys₂ k (.inr hk)) id

end PatchRun

/-- A patch that was resolved without errors is resolved again without errors, to itself and with
the same patterns. -/
theorem resolve_idempotent (tokens : List Token) (h : (parse tokens).patch.resolve.success) :
    (parse tokens).patch.resolve.patch.resolve.success ∧
      (parse tokens).patch.resolve.patch.resolve.patch = (parse tokens).patch.resolve.patch ∧
      ∀ k, (parse tokens).patch.resolve.patch.resolve.patterns.lookup k =
        (parse tokens).patch.resolve.patterns.lookup k := by
  obtain ⟨G, vars, r₁, r₂, r₃, hrun⟩ := Patch.resolve_run (parse_stored tokens)
  have hread := (hrun.kept 0 0).read
  obtain ⟨r, hagain, hr, hkeys⟩ := hrun.again h
  generalize (parse tokens).patch.resolve = R at hread hagain hr hkeys ⊢
  have hresolve : R.patch.resolve =
      ⟨⟨r.nodes, R.patch.statements⟩, r.symbols, r.hostParams, r.patterns, r.findings⟩ := by
    rw [Patch.resolve, hagain]
  rw [hresolve]
  refine ⟨(Resolved.success_iff_clean _).mpr hr.clean, by rw [hr.nodes], ?_⟩
  exact (hr.nodes ▸ hr.read).lookup_eq hread fun k => ⟨hr.known k, hkeys k⟩

/-- A function with a default, called through a pipe on what a pattern gives. -/
def pipedMelody : List Token :=
  ([.keywordFn, .ident "scaled", .openParen, .ident "x", .comma, .ident "by", .equals,
    .number 2, .closeParen,
    .arrow, .ident "x", .star, .ident "by", .newline, .ident "y", .equals, .ident "pat", .openParen,
    .text "60 [67 72]", .closeParen, .pipe, .ident "scaled", .openParen, .hole,
    .closeParen, .newline,
    .ident "out", .openParen, .ident "y", .closeParen] : List TokenKind).map (⟨·, .origin⟩)

theorem resolve_pipedMelody : (parse pipedMelody).patch.resolve.success := by
  decide +kernel

theorem pipedMelody_idempotent : (parse pipedMelody).patch.resolve.success ∧
    (parse pipedMelody).patch.resolve.patch.resolve.patch =
      (parse pipedMelody).patch.resolve.patch :=
  ⟨resolve_pipedMelody, (resolve_idempotent pipedMelody resolve_pipedMelody).2.1⟩

end SignalPatch
