import SignalPatch.Proofs.ArgumentFit
import SignalPatch.Proofs.Rewriting

/-!
# Literals that resolution makes

A call that leaves out an argument gets a fresh literal for it. No other place of the arena refers
to that literal: `Arena.Unshared` says so of an arena, `Resolving.bindCall_unshared` that a call
keeps it so. An arena that was only read has no fresh literals, and its calls refer to nodes of it
(`parse_unshared`).
-/

namespace SignalPatch

def Arena.Passes (nodes : Arena) (i k v : Nat) : Prop :=
  ∃ callee args s, nodes[i]? = some ⟨.call callee args, s⟩ ∧ (args.map Arg.value)[k]? = some v

/-- Each node behind the first `n` is the argument of one call only, and in one place there. -/
structure Arena.Unshared (n : Nat) (nodes : Arena) : Prop where
  bound : nodes.Passes i k v → v < nodes.size
  place : n ≤ v → nodes.Passes i k v → nodes.Passes j l v → i = j ∧ k = l

/-! ## Steps -/

theorem Arena.Passes.of_node {nodes : Arena} {i : NodeId} (h : nodes.Passes i k v)
    (hnode : nodes[i]? = some ⟨.call callee args, s⟩) : (args.map Arg.value)[k]? = some v := by
  obtain ⟨callee', args', s', hnode', hv⟩ := h
  cases hnode.symm.trans hnode'
  exact hv

namespace Arena.Unshared

/-- A step that changes one node only, and gives it arguments that are old or made for it. -/
theorem step {nodes nodes' : Arena} {i : Nat} (h : nodes.Unshared n) (hn : n ≤ nodes.size)
    (hsize : nodes.size ≤ nodes'.size)
    (hother : ∀ j k v, j ≠ i → nodes'.Passes j k v → nodes.Passes j k v)
    (hown : ∀ k v, nodes'.Passes i k v → v < n ∨ nodes.size ≤ v ∧ v < nodes'.size)
    (hplace : ∀ k l v, nodes.size ≤ v → nodes'.Passes i k v → nodes'.Passes i l v → k = l) :
    nodes'.Unshared n := by
  -- an argument of `i` that is not old is new, so no other call has it
  have hfresh : ∀ {j k l v : Nat}, n ≤ v → j ≠ i → nodes'.Passes i k v → ¬ nodes'.Passes j l v := by
    intro j k l v hv hj hi hheld
    have := h.bound (hother j l v hj hheld)
    rcases hown k v hi with hlt | ⟨hge, -⟩ <;> omega
  constructor
  · intro j k v hheld
    by_cases hj : j = i
    · subst hj
      rcases hown k v hheld with hlt | ⟨-, hlt⟩ <;> omega
    · exact Nat.lt_of_lt_of_le (h.bound (hother j k v hj hheld)) hsize
  · intro v j k j' l hv hheld hheld'
    by_cases hj : j = i
    · subst hj
      by_cases hj' : j' = j
      · subst hj'
        refine ⟨rfl, hplace k l v ?_ hheld hheld'⟩
        rcases hown k v hheld with hlt | ⟨hge, -⟩ <;> omega
      · exact absurd hheld' (hfresh hv hj' hheld)
    · by_cases hj' : j' = i
      · subst hj'
        exact absurd hheld (hfresh hv hj hheld')
      · exact h.place hv (hother j k v hj hheld) (hother j' l v hj' hheld')

theorem passes_setKind_ne {nodes : Arena} {i : Nat} (kind : NodeKind) (hj : j ≠ i)
    (h : (nodes.setKind i kind).Passes j k v) : nodes.Passes j k v := by
  obtain ⟨callee, args, s, hnode, hv⟩ := h
  rw [Arena.getElem?_setKind_ne _ _ hj] at hnode
  exact ⟨callee, args, s, hnode, hv⟩

theorem setKind {nodes : Arena} {i : Nat} {old : Node} (h : nodes.Unshared n) (hn : n ≤ nodes.size)
    (hnode : nodes[i]? = some old) (kind : NodeKind)
    (hkind : ∀ callee args, kind = .call callee args → ∀ a ∈ args, a.value < n) :
    (nodes.setKind i kind).Unshared n := by
  have hold : ∀ k v, (nodes.setKind i kind).Passes i k v → v < n := by
    rintro k v ⟨callee, args, s, hcall, hv⟩
    cases (Arena.getElem?_setKind_self hnode kind).symm.trans hcall
    obtain ⟨a, ha, rfl⟩ := List.mem_map.mp (List.mem_of_getElem? hv)
    exact hkind callee args rfl a ha
  refine h.step hn (by simp) (fun j k v hj => passes_setKind_ne kind hj)
    (fun k v hheld => .inl (hold k v hheld)) fun k l v hge hheld _ => ?_
  have := hold k v hheld
  omega

end Arena.Unshared

theorem Resolving.bindCall_unshared {r : Resolution} {i : NodeId}
    (hnode : r.nodes[i]? = some ⟨.call callee args, s⟩) (hparams : Signature.CopiesRequired params)
    (hargs : ∀ a ∈ args, a.value < n) (hn : n ≤ r.nodes.size) (h : r.nodes.Unshared n) :
    ((bindCall i callee params args s).run r).2.nodes.Unshared n := by
  have hi : i < r.nodes.size := (Array.getElem?_eq_some_iff.mp hnode).1
  have hext := Binding.bind_extends callee params args s r.nodes
  -- matching adds literals, and literals hold nothing
  have hgrown : ∀ {j k v}, (Binding.bind callee params args s r.nodes).nodes.Passes j k v →
      r.nodes.Passes j k v := by
    rintro j k v ⟨callee', args', s', hcall, hv⟩
    by_cases hj : j < r.nodes.size
    · exact ⟨callee', args', s', (hext.2 j hj).symm.trans hcall, hv⟩
    · obtain ⟨x, hx⟩ := Binding.bind_fresh (Nat.le_of_not_lt hj) hcall
      cases hx
  rw [run_bindCall]
  dsimp only [boundNodes]
  cases hv : (Binding.bind callee params args s r.nodes).values with
  | none =>
    refine ⟨fun hheld => Nat.lt_of_lt_of_le (h.bound (hgrown hheld)) hext.1,
      fun hge hheld hheld' => ?_⟩
    exact h.place hge (hgrown hheld) (hgrown hheld')
  | some values =>
    have hnode' : (Binding.bind callee params args s r.nodes).nodes[i]? =
        some ⟨.call callee args, s⟩ := (hext.2 i hi).trans hnode
    have hown : ∀ {k v}, (((Binding.bind callee params args s r.nodes).nodes.setKind i (.call callee
        (values.map fun v =>
          ⟨none, v, (Binding.bind callee params args s r.nodes).nodes.span v⟩)))).Passes
          i k v → values[k]? = some v := by
      intro k v hheld
      simpa [Function.comp_def] using hheld.of_node (Arena.getElem?_setKind_self hnode' _)
    refine h.step (i := i) hn (by simpa using hext.1) ?_ ?_ ?_
    · exact fun j k v hj hheld => hgrown (Arena.Unshared.passes_setKind_ne _ hj hheld)
    · intro k v hheld
      obtain ⟨hsup, -⟩ := Binding.bind_supplies hv
      rcases hsup.origin hparams (List.mem_of_getElem? (hown hheld))
        with ⟨a, ha, rfl⟩ | ⟨x, hge, hx⟩
      · exact .inl (hargs a ha)
      · exact .inr ⟨hge, by simpa using (Array.getElem?_eq_some_iff.mp hx).1⟩
    · intro k l v hge hheld hheld'
      refine Binding.bind_literal_place hparams (fun a ha => ?_) hv hge (hown hheld) (hown hheld')
      exact Nat.lt_of_lt_of_le (hargs a ha) hn

/-! ## Arenas that were only read -/

def Arena.Closed (nodes : Arena) : Prop := ∀ i k v, nodes.Passes i k v → v < nodes.size

theorem Arena.Closed.add {nodes : Arena} (h : nodes.Closed) (node : Node)
    (hnode : ∀ callee args, node.kind = .call callee args → ∀ a ∈ args, a.value < nodes.size) :
    (nodes.add node).1.Closed ∧ (nodes.add node).2 < (nodes.add node).1.size := by
  refine ⟨?_, by simp [Arena.add]⟩
  rintro i k v ⟨callee, args, s, hcall, hv⟩
  simp only [Arena.add, Array.size_push, Array.getElem?_push] at hcall ⊢
  split at hcall
  · cases hcall
    obtain ⟨a, ha, rfl⟩ := List.mem_map.mp (List.mem_of_getElem? hv)
    exact Nat.lt_succ_of_lt (hnode callee args rfl a ha)
  · exact Nat.lt_succ_of_lt (h i k v ⟨callee, args, s, hcall, hv⟩)

mutual

theorem Expr.store_closed {nodes : Arena} (h : nodes.Closed) :
    ∀ e : Expr, (e.store nodes).1.Closed ∧ (e.store nodes).2 < (e.store nodes).1.size
  | .number v s => h.add ⟨.number v, s⟩ (by simp)
  | .bool v s => h.add ⟨.bool v, s⟩ (by simp)
  | .text v s => h.add ⟨.text v, s⟩ (by simp)
  | .ident x s => h.add ⟨.ident x, s⟩ (by simp)
  | .hole s => h.add ⟨.hole, s⟩ (by simp)
  | .binary op lhs rhs s => by
    have hlhs := (Expr.store_closed h lhs).1
    have hrhs := (Expr.store_closed hlhs rhs).1
    rw [Expr.store]
    exact hrhs.add _ (by simp)
  | .pipe source target s => by
    have hsource := (Expr.store_closed h source).1
    have htarget := (Expr.store_closed hsource target).1
    rw [Expr.store]
    exact htarget.add _ (by simp)
  | .call callee args s => by
    obtain ⟨hclosed, hvalues⟩ := storeArgs_closed h args
    rw [Expr.store]
    exact hclosed.add _ (by rintro _ _ ⟨⟩; exact hvalues)

theorem storeArgs_closed {nodes : Arena} (h : nodes.Closed) :
    ∀ args : List (Arg Expr), (storeArgs nodes args).1.Closed ∧
      ∀ a ∈ (storeArgs nodes args).2, a.value < (storeArgs nodes args).1.size
  | [] => ⟨h, by simp [storeArgs]⟩
  | ⟨name, value, s⟩ :: args => by
    obtain ⟨hvalue, hlt⟩ := Expr.store_closed h value
    obtain ⟨hargs, hvalues⟩ := storeArgs_closed hvalue args
    have hsize := (storeArgs_stored args (value.store nodes).1).2.1
    rw [storeArgs]
    refine ⟨hargs, fun a ha => ?_⟩
    rcases List.mem_cons.mp ha with rfl | ha
    · exact Nat.lt_of_lt_of_le hlt hsize
    · exact hvalues a ha

end

theorem Statement.store_closed {nodes : Arena} (h : nodes.Closed) (s : Statement) :
    (s.store nodes).1.Closed := by
  cases s with
  | define name params body s => exact ((body.store_closed h).1.add _ (by simp)).1
  | assign x value s => exact ((value.store_closed h).1.add _ (by simp)).1
  | expr e => exact (e.store_closed h).1

theorem Patch.addTurn_closed {p : Patch} (h : p.nodes.Closed) (t : Grammar.Turn) :
    (p.addTurn t).nodes.Closed := by
  cases t with
  | complete s => exact s.store_closed h
  | trailing s next => exact s.store_closed h
  | abandoned fault =>
    exact List.foldlRecOn fault.built _ h fun nodes hnodes e _ => (e.store_closed hnodes).1

theorem parse_unshared (tokens : List Token) :
    (parse tokens).patch.nodes.Unshared (parse tokens).patch.nodes.size := by
  have hempty : Patch.empty.nodes.Closed := by
    rintro i k v ⟨callee, args, s, hcall, -⟩
    simp [Patch.empty] at hcall
  have hclosed : (parse tokens).patch.nodes.Closed :=
    List.foldlRecOn (motive := fun p : Patch => p.nodes.Closed) _ Patch.addTurn hempty
      fun p hp t _ => p.addTurn_closed hp t
  refine ⟨fun hheld => hclosed _ _ _ hheld, fun hge hheld _ => ?_⟩
  exact absurd (hclosed _ _ _ hheld) (Nat.not_lt.mpr hge)

end SignalPatch
