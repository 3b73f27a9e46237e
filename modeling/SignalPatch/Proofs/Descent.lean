import SignalPatch.Proofs.NormalForm
import SignalPatch.Proofs.StaticCheck

/-!
# References descend

In an arena as it was read, nodes refer to earlier nodes. Resolution makes them refer to others:
holes give way to what flows into pipes, and arguments are filled in with literals behind all that
was read. But ranks still fall along every reference (`Patch.resolve_grounded`), also where there
are errors, so no path through a resolved patch is without end.
-/

namespace SignalPatch

/-! ## Arenas -/

/-- Nodes refer to nodes of lower rank. -/
def Arena.Descends (n : Nat) (nodes : Arena) : Prop := ∀ i j, nodes.Refers i j → rank n j < rank n i

theorem Arena.kind_congr {nodes nodes' : Arena} {k : Nat} (h : nodes'[k]? = nodes[k]?) :
    nodes'.kind k = nodes.kind k := by
  simp only [Arena.kind, Arena.node, Array.getD_eq_getD_getElem?, h]

theorem Arena.lt_size_of_refers {nodes : Arena} (h : nodes.Refers i j) : i < nodes.size := by
  refine Arena.lt_size_of_kind fun hkind => ?_
  rw [Refers, hkind] at h
  cases h

theorem Arena.Extends.refers {nodes nodes' : Arena} (hext : nodes.Extends nodes')
    (h : nodes'.Refers i j) :
    nodes.Refers i j ∨ nodes.size ≤ i := by
  rcases Nat.lt_or_ge i nodes.size with hi | hi
  · rw [Refers, Arena.kind_congr (hext.2 i hi)] at h
    exact .inl h
  · exact .inr hi

namespace Arena.Descends

theorem setKind {nodes : Arena} {kind : NodeKind} (h : nodes.Descends n)
    (hkind : ∀ j ∈ kind.children, rank n j < rank n i) : (nodes.setKind i kind).Descends n := by
  intro k j hkj
  by_cases hk : k = i
  · subst hk
    have hlt : k < nodes.size := by simpa using Arena.lt_size_of_refers hkj
    rw [Refers, Arena.kind_eq (Arena.getElem?_setKind_self (Array.getElem?_eq_getElem hlt) kind)]
      at hkj
    exact hkind j hkj
  · rw [Refers, Arena.kind_congr (Arena.getElem?_setKind_ne _ _ hk)] at hkj
    exact h k j hkj

theorem extend {nodes nodes' : Arena} (h : nodes.Descends n) (hext : nodes.Extends nodes')
    (hfresh : ∀ (k : Nat) node, nodes.size ≤ k → nodes'[k]? = some node → node.kind.isLiteral) :
    nodes'.Descends n := by
  intro k j hkj
  rcases hext.refers hkj with hkj | hk
  · exact h k j hkj
  · have hnode := Array.getElem?_eq_getElem (Arena.lt_size_of_refers hkj)
    rw [Refers, Arena.kind_eq hnode, NodeKind.children_of_isLiteral (hfresh k _ hk hnode)] at hkj
    cases hkj

end Arena.Descends

/-! ## Arenas as they were read -/

theorem Stored.refers_root {j : Nat} (h : Stored nodes a e i) (hj : nodes.Refers i j) :
    a ≤ j ∧ j < i := by
  cases h with
  | number h | bool h | text h | ident h | hole h =>
    rw [Arena.Refers, Arena.kind_eq h] at hj
    cases hj
  | binary hl hr h | pipe hl hr h =>
    rw [Arena.Refers, Arena.kind_eq h] at hj
    have hal := hl.le
    have hlm := hr.le
    rcases List.mem_pair.mp hj with rfl | rfl <;> omega
  | call hargs h =>
    rw [Arena.Refers, Arena.kind_eq h] at hj
    obtain ⟨x, hx, rfl⟩ := List.mem_map.mp hj
    obtain ⟨start, _, hstart, hs, hlt⟩ := hargs.value hx
    exact ⟨Nat.le_trans hstart hs.le, hlt⟩

theorem Stored.refers_lt (h : Stored nodes a e i) (h₁ : a ≤ k) (h₂ : k ≤ i)
    (hj : nodes.Refers k j) :
    j < k := by
  obtain ⟨_, _, -, hs⟩ := h.inner h₁ h₂
  exact (hs.refers_root hj).2

theorem StoredStatement.refers_lt (h : StoredStatement nodes a s i) (h₁ : a ≤ k) (h₂ : k ≤ i)
    (hj : nodes.Refers k j) : j < k := by
  cases h with
  | define hb hnode | assign hb hnode =>
    rcases Nat.lt_or_eq_of_le h₂ with hlt | rfl
    · exact hb.refers_lt h₁ (Nat.le_of_lt_succ hlt) hj
    · rw [Arena.Refers, Arena.kind_eq hnode] at hj
      obtain rfl := List.mem_singleton.mp hj
      exact Nat.lt_succ_self _
  | expr he => exact he.refers_lt h₁ h₂ hj

/-- Nodes refer to earlier ones. -/
def Arena.Ordered (nodes : Arena) : Prop := ∀ i j, nodes.Refers i j → j < i

theorem Arena.Ordered.descends {nodes : Arena} (h : nodes.Ordered) : nodes.Descends nodes.size :=
  fun i j hij => rank_lt (h i j hij) (Arena.lt_size_of_refers hij)

theorem Arena.Ordered.extend {nodes nodes' : Arena} (h : nodes.Ordered)
    (hext : nodes.Extends nodes')
    (hnew : ∀ k j, nodes.size ≤ k → k < nodes'.size → nodes'.Refers k j → j < k) :
    nodes'.Ordered := by
  intro k j hkj
  rcases hext.refers hkj with hold | hk
  · exact h k j hold
  · exact hnew k j hk (Arena.lt_size_of_refers hkj) hkj

theorem Expr.store_ordered {nodes : Arena} (h : nodes.Ordered) (e : Expr) :
    (e.store nodes).1.Ordered := by
  obtain ⟨hs, hsize, hext⟩ := store_stored e nodes
  exact h.extend hext fun k j h₁ h₂ hj => hs.refers_lt h₁ (by omega) hj

theorem Statement.store_ordered {nodes : Arena} (h : nodes.Ordered) (s : Statement) :
    (s.store nodes).1.Ordered := by
  obtain ⟨hs, hsize, hext⟩ := storeStatement_stored s nodes
  exact h.extend hext fun k j h₁ h₂ hj => hs.refers_lt h₁ (by omega) hj

theorem Patch.addTurn_ordered {p : Patch} (h : p.nodes.Ordered) (t : Grammar.Turn) :
    (p.addTurn t).nodes.Ordered := by
  cases t with
  | complete s => exact s.store_ordered h
  | trailing s next => exact s.store_ordered h
  | abandoned fault =>
    exact List.foldlRecOn fault.built _ h fun nodes hnodes e _ => e.store_ordered hnodes

theorem parse_ordered (tokens : List Token) : (parse tokens).patch.nodes.Ordered := by
  have hempty : Patch.empty.nodes.Ordered := fun i j hij => by
    have := Arena.lt_size_of_refers hij
    simp [Patch.empty] at this
  exact List.foldlRecOn (motive := fun p : Patch => p.nodes.Ordered) _ Patch.addTurn hempty
    fun p hp t _ => p.addTurn_ordered hp t

/-! ## Trees -/

namespace Resolving

theorem bindCall_descends {r : Resolution} {i : NodeId} (hparams : Signature.CopiesRequired params)
    (hargs : ∀ a ∈ args, a.value < i) (hi : i < n) (hn : n ≤ r.nodes.size) (h : r.nodes.Descends n)
    (callee : String) (s : Span) :
    ((bindCall i callee params args s).run r).2.nodes.Descends n := by
  have hbound : (Binding.bind callee params args s r.nodes).nodes.Descends n := by
    refine h.extend (Binding.bind_extends ..) fun k node hk hnode => ?_
    obtain ⟨x, rfl⟩ := Binding.bind_fresh hk hnode
    rfl
  rw [run_bindCall]
  dsimp only [boundNodes]
  cases hv : (Binding.bind callee params args s r.nodes).values with
  | none => exact hbound
  | some values =>
    refine hbound.setKind fun v hmem => ?_
    have hmem : v ∈ values := by simpa [NodeKind.children, Function.comp_def] using hmem
    rcases (Binding.bind_supplies hv).1.origin hparams hmem with ⟨a, ha, rfl⟩ | ⟨x, hge, -⟩
    · exact rank_lt (hargs a ha) hi
    · exact rank_fresh (Nat.le_trans hn hge) hi

theorem resolveCall_descends {r : Resolution} {i : NodeId}
    (hnode : r.nodes[i]? = some ⟨.call callee args₀, s⟩) (hT : SignaturesOk r.symbols)
    (hargs : ∀ a ∈ args, a.value < i) (hi : i < n) (hn : n ≤ r.nodes.size)
    (h : r.nodes.Descends n) :
    ((resolveCall i callee args).run r).2.nodes.Descends n := by
  have hset : (r.nodes.setKind i (.call callee args)).Descends n := by
    refine h.setKind fun v hv => ?_
    obtain ⟨a, ha, rfl⟩ := List.mem_map.mp hv
    exact rank_lt (hargs a ha) hi
  have hcalled := resolveCall_called hnode args
  generalize ((resolveCall i callee args).run r).2 = r' at hcalled ⊢
  cases hcalled with
  | refused _ _ => exact hset
  | bound hm hsig hrun =>
    rw [checkBound_nodes]
    have hbind := bindCall_descends (r := { r with nodes := r.nodes.setKind i (.call callee args) })
      (hT.copies callee _ _ hm hsig) hargs hi (by simpa using hn) hset callee s
    rwa [hrun] at hbind

mutual

theorem Walk.descends :
    Walk P a e i hole r j r' → (∀ x, hole = some x → x < a) → r.nodes.Descends P.size →
    r'.nodes.Descends P.size
  | .number _ _, _, h | .bool _ _, _, h | .text _ _, _, h | .filled _, _, h | .unfilled _, _, h => h
  | .ident _ _, _, h => by rwa [checkValue_frame]
  | .binary hl hr hnode _, hhole, h => by
    have hm := (Array.getElem?_eq_some_iff.mp hnode).1
    have hhole' := hole_lt hhole (Nat.le_succ_of_le hl.stored.le)
    refine (hr.descends hhole' (hl.descends hhole h)).setKind fun k hk => ?_
    rcases List.mem_pair.mp hk with rfl | rfl
    · exact rank_lt
        (Nat.lt_succ_of_le (Nat.le_trans (hl.le hhole) (Nat.le_of_succ_le hr.stored.le))) hm
    · exact rank_lt (Nat.lt_succ_of_le (hr.le hhole')) hm
  | .pipe hs ht _ _, hhole, h => by
    -- what flows in lies before the target, so a hole gives way to an earlier node
    refine ht.descends ?_ (hs.descends hhole h)
    rintro _ ⟨⟩
    exact Nat.lt_succ_of_le (hs.le hhole)
  | .refused hs _ _ _, hhole, h => hs.descends hhole h
  | .call hargs h' hnode hn hT, hhole, h =>
    resolveCall_descends hnode hT (hargs.lt hhole) (Array.getElem?_eq_some_iff.mp h').1 hn
      (hargs.descends hhole h)

theorem WalkArgs.descends : WalkArgs P a args ids b hole r ids' r' → (∀ x, hole = some x → x < a) →
    r.nodes.Descends P.size → r'.nodes.Descends P.size
  | .nil, _, h => h
  | .cons hv hargs, hhole, h =>
    hargs.descends (hole_lt hhole (Nat.le_succ_of_le hv.stored.le)) (hv.descends hhole h)

end

/-! ## Functions and statements -/

theorem BodyWalk.descends (h : BodyWalk P G a s i r r') (hr : r.nodes.Descends P.size) :
    r'.nodes.Descends P.size := by
  cases h with
  | define _ hbody hnode _ =>
    refine (hbody.descends (by simp) hr).setKind fun j hj => ?_
    obtain rfl := List.mem_singleton.mp hj
    exact rank_lt (Nat.lt_succ_of_le (hbody.le (by simp))) (Array.getElem?_eq_some_iff.mp hnode).1
  | assign _ _ | expr _ => exact hr

theorem BodyWalks.descends (h : BodyWalks P G a ss ids r r') (hr : r.nodes.Descends P.size) :
    r'.nodes.Descends P.size := by
  induction h with
  | nil => exact hr
  | cons _ hfirst _ ih => exact ih (hfirst.descends hr)

theorem StatementWalk.descends (h : StatementWalk P G a s i j vars r vars' r')
    (hr : r.nodes.Descends P.size) :
    r'.nodes.Descends P.size := by
  cases h with
  | define _ _ _ => exact hr
  | assign _ hv hnode _ | taken _ hv hnode _ =>
    refine (hv.descends (by simp) hr).setKind fun j hj => ?_
    obtain rfl := List.mem_singleton.mp hj
    exact rank_lt (Nat.lt_succ_of_le (hv.le (by simp))) (Array.getElem?_eq_some_iff.mp hnode).1
  | expr he => exact he.descends (by simp) hr

theorem StatementWalks.descends (h : StatementWalks P G a ss ids ids' vars r vars' r')
    (hr : r.nodes.Descends P.size) : r'.nodes.Descends P.size := by
  induction h with
  | nil => exact hr
  | cons _ hfirst _ ih => exact ih (hfirst.descends hr)

end Resolving

/-! ## Patches -/

/-- What every resolution of the statements `ids` of an arena leaves, with and without errors. -/
structure Grounded (P : Arena) (ids : List NodeId) (R : Resolved) : Prop where
  symbols : R.symbols = ⟨[], R.symbols.globals⟩
  globals : Globals P ids R.symbols.globals
  size : P.size ≤ R.patch.nodes.size
  nodes : R.patch.nodes.Descends P.size

theorem Patch.resolve_grounded {p : Patch} (h : StoredList p.nodes 0 ss p.statements)
    (hnodes : p.nodes.Descends p.nodes.size) : Grounded p.nodes p.statements p.resolve := by
  obtain ⟨G, vars, r₁, r₂, r₃, hrun⟩ := p.resolve_run h
  have hstart : r₁.nodes.Descends p.nodes.size := by
    rw [hrun.opened]
    exact hnodes
  refine ⟨by rw [hrun.symbols], hrun.globals ▸ hrun.known.globals, ?_, ?_⟩ <;> rw [hrun.nodes]
  · exact Nat.le_trans hrun.size (Nat.le_trans hrun.bodies.within.size hrun.statements.within.size)
  · exact hrun.statements.descends (hrun.bodies.descends hstart)

theorem parse_resolve_grounded (tokens : List Token) :
    Grounded (parse tokens).patch.nodes (parse tokens).patch.statements
      (parse tokens).patch.resolve :=
  Patch.resolve_grounded (parse_stored tokens) (parse_ordered tokens).descends

end SignalPatch
