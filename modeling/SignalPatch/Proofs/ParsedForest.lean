import Mathlib.Data.List.Range
import SignalPatch.Proofs.Descent
import SignalPatch.Proofs.NestedSpans

/-!
# A parsed patch is a forest

A tree is stored by new nodes that refer to each other, and its root is left over. So every node of
a parsed patch is referred to once, unless it is the root of a fragment that was given up. As the
parts of a tree are in line inside of its span, so are the spans of the nodes that a node refers to,
and those of the statements.
-/

namespace SignalPatch

/-! ## References -/

def Arena.references (nodes : Arena) : List NodeId := nodes.toList.flatMap (·.kind.children)

theorem Arena.references_push (nodes : Arena) (node : Node) :
    Arena.references (nodes.push node) = nodes.references ++ node.kind.children := by
  simp [references]

theorem range'_append_sub {a b c : Nat} (h : a ≤ b) (h' : b ≤ c) :
    List.range' a (b - a) ++ List.range' b (c - b) = List.range' a (c - a) := by
  have happend := List.range'_append_1 (s := a) (m := b - a) (n := c - b)
  rwa [show a + (b - a) = b by omega, show b - a + (c - b) = c - a by omega] at happend

/-- The second arena is longer, and there is one more reference to each of its new nodes: from a new
node, or it is in `ids`. -/
structure Arena.Fills (nodes nodes' : Arena) (ids : List NodeId) : Prop where
  size : nodes.size ≤ nodes'.size
  once : (nodes'.references ++ ids).Perm
    (nodes.references ++ List.range' nodes.size (nodes'.size - nodes.size))

namespace Arena.Fills

variable {nodes nodes' nodes'' : Arena} {ids ids' : List NodeId}

theorem refl (nodes : Arena) : nodes.Fills nodes [] := ⟨Nat.le_refl _, by simp⟩

theorem perm (h : nodes.Fills nodes' ids) (hids : ids'.Perm ids) : nodes.Fills nodes' ids' :=
  ⟨h.size, (hids.append_left _).trans h.once⟩

theorem trans (h : nodes.Fills nodes' ids) (h' : nodes'.Fills nodes'' ids') :
    nodes.Fills nodes'' (ids ++ ids') := by
  have hswap : ∀ xs ys zs : List NodeId, (xs ++ ys ++ zs).Perm (xs ++ zs ++ ys) := by
    intro xs ys zs
    rw [List.append_assoc, List.append_assoc]
    exact List.perm_append_comm.append_left xs
  refine ⟨Nat.le_trans h.size h'.size, ?_⟩
  rw [← range'_append_sub h.size h'.size, ← List.append_assoc, ← List.append_assoc]
  exact (hswap _ _ _).trans
    ((h'.once.append_right _).trans ((hswap _ _ _).trans (h.once.append_right _)))

theorem push {node : Node} (h : nodes.Fills nodes' node.kind.children) :
    nodes.Fills (nodes'.push node) [nodes'.size] := by
  have hsize : (nodes'.push node).size = nodes'.size + 1 := Array.size_push _
  refine ⟨by have := h.size; omega, ?_⟩
  have hlast := range'_append_sub h.size (Nat.le_succ nodes'.size)
  rw [references_push, hsize, ← hlast, ← List.append_assoc]
  simpa using h.once.append_right _

end Arena.Fills

mutual

theorem store_fills :
    (e : Expr) → (nodes : Arena) → nodes.Fills (e.store nodes).1 [(e.store nodes).2]
  | .number .., nodes | .bool .., nodes | .text .., nodes | .ident .., nodes | .hole .., nodes =>
    (Arena.Fills.refl nodes).push
  | .binary _ lhs rhs _, nodes | .pipe lhs rhs _, nodes =>
    ((store_fills lhs nodes).trans (store_fills rhs _)).push
  | .call _ args _, nodes => (storeArgs_fills args nodes).push

theorem storeArgs_fills : (args : List (Arg Expr)) → (nodes : Arena) →
    nodes.Fills (storeArgs nodes args).1 ((storeArgs nodes args).2.map Arg.value)
  | [], nodes => .refl nodes
  | ⟨_, value, _⟩ :: args, nodes => (store_fills value nodes).trans (storeArgs_fills args _)

end

theorem Statement.store_fills (s : Statement) (nodes : Arena) :
    nodes.Fills (s.store nodes).1 [(s.store nodes).2] := by
  cases s with
  | define name params body span => exact (SignalPatch.store_fills body nodes).push
  | assign name value span => exact (SignalPatch.store_fills value nodes).push
  | expr value => exact SignalPatch.store_fills value nodes

theorem Patch.addFragments_fills (es : List Expr) (nodes : Arena) :
    ∃ roots, nodes.Fills (es.foldl (fun nodes e => (e.store nodes).1) nodes) roots := by
  induction es generalizing nodes with
  | nil => exact ⟨[], .refl nodes⟩
  | cons e es ih =>
    obtain ⟨roots, h⟩ := ih (e.store nodes).1
    exact ⟨_, (store_fills e nodes).trans h⟩

def Patch.Filled (p : Patch) : Prop := ∃ roots, Arena.Fills #[] p.nodes (p.statements ++ roots)

theorem Patch.Filled.addTurn {p : Patch} (h : p.Filled) (turn : Grammar.Turn) :
    (p.addTurn turn).Filled := by
  obtain ⟨roots, h⟩ := h
  have hstatement : ∀ s : Statement, (p.addStatement s).Filled := by
    intro s
    refine ⟨roots, (h.trans (s.store_fills p.nodes)).perm ?_⟩
    simp only [Patch.addStatement, List.append_assoc]
    exact List.perm_append_comm.append_left _
  cases turn with
  | complete s => exact hstatement s
  | trailing s next => exact hstatement s
  | abandoned fault =>
    obtain ⟨more, hmore⟩ := Patch.addFragments_fills fault.built p.nodes
    refine ⟨roots ++ more, ?_⟩
    rw [← List.append_assoc]
    exact h.trans hmore

theorem parse_filled (tokens : List Token) : (parse tokens).patch.Filled :=
  List.foldlRecOn _ Patch.addTurn ⟨[], .refl _⟩ fun _ hp turn _ => hp.addTurn turn

theorem Patch.Filled.nodup {p : Patch} (h : p.Filled) :
    (p.nodes.references ++ p.statements).Nodup := by
  obtain ⟨roots, h⟩ := h
  have hperm := h.once
  rw [← List.append_assoc] at hperm
  have hall := hperm.nodup_iff.mpr (by simpa [Arena.references] using List.nodup_range')
  exact hall.sublist (List.sublist_append_left _ _)

/-! ## Spans -/

/-- The parts lie inside of a span, each behind the one before. -/
structure Span.Nests (s : Span) (parts : List Span) : Prop where
  inside : ∀ part ∈ parts, s.offset ≤ part.offset ∧ part.stop ≤ s.stop
  filled : ∀ part ∈ parts, 0 < part.length
  behind : parts.Pairwise fun a b => a.stop ≤ b.offset

theorem InLine.nests {s : Span} (h : InLine s.offset parts s.stop) : s.Nests parts :=
  ⟨fun _ hp => ⟨(h.mem hp).1, (h.mem hp).2.2⟩, fun _ hp => (h.mem hp).2.1, h.pairwise⟩

/-- The spans of what a node refers to lie inside of its own span one behind the other. So do those
of its arguments, around their values, and those of its parameters, before its body. -/
structure Node.Nests (nodes : Arena) (node : Node) : Prop where
  children : node.span.Nests (node.kind.children.map nodes.span)
  args : ∀ callee args, node.kind = .call callee args →
    node.span.Nests (args.map Arg.span) ∧ ∀ a ∈ args, a.span.Nests [nodes.span a.value]
  params : ∀ name params body, node.kind = .define name params body →
    node.span.Nests (params.map Parameter.span ++ [nodes.span body])

theorem Node.Nests.of_children (h : node.span.Nests (node.kind.children.map nodes.span))
    (hcall : ∀ callee args, node.kind ≠ .call callee args)
    (hdefine : ∀ name params body, node.kind ≠ .define name params body) : Node.Nests nodes node :=
  ⟨h, fun _ _ hkind => absurd hkind (hcall _ _), fun _ _ _ hkind => absurd hkind (hdefine _ _ _)⟩

theorem Stored.span (h : Stored nodes a e i) : nodes.span i = e.span := by
  cases h <;> exact Arena.span_eq ‹_›

theorem StoredArgs.spans (h : StoredArgs nodes a args ids b) :
    ids.map Arg.span = args.map Arg.span ∧
      ids.map (fun x => nodes.span x.value) = args.map (·.value.span) := by
  induction args generalizing a ids with
  | nil =>
    cases h with
    | nil => exact ⟨rfl, rfl⟩
  | cons x args ih =>
    cases h with
    | cons hv hargs =>
      obtain ⟨hspans, hvalues⟩ := ih hargs
      simp [hspans, hvalues, hv.span]

theorem StoredArgs.around (h : StoredArgs nodes a args ids b) (hnested : ArgsNested args) :
    ∀ x ∈ ids, x.span.Nests [nodes.span x.value] := by
  induction args generalizing a ids with
  | nil =>
    cases h with
    | nil => simp
  | cons x args ih =>
    cases h with
    | cons hv hargs =>
      cases hnested with
      | cons _ hinner hmore =>
        refine List.forall_mem_cons.mpr ⟨?_, ih hargs hmore⟩
        rw [hv.span]
        exact hinner.nests

theorem Expr.Nested.parts (h : Expr.Nested e) : ∀ part ∈ e.parts, part.Nested := by
  cases h with
  | number | bool | text | ident | hole => nofun
  | binary ha hb | pipe ha hb =>
    exact List.forall_mem_cons.mpr ⟨ha, List.forall_mem_singleton.mpr hb⟩
  | call hargs =>
    intro part hpart
    obtain ⟨a, ha, rfl⟩ := List.mem_map.mp hpart
    exact hargs.value ha

theorem Stored.nests_root (h : Stored nodes a e i) (he : e.Nested) (hnode : nodes[i]? = some node) :
    node.Nests nodes := by
  cases h with
  | number h | bool h | text h | ident h | hole h =>
    cases h.symm.trans hnode
    exact .of_children ⟨nofun, nofun, .nil⟩ nofun nofun
  | binary hl hr h | pipe hl hr h =>
    cases h.symm.trans hnode
    cases he
    rename_i hs
    rw [← hl.span, ← hr.span] at hs
    exact .of_children hs.nests nofun nofun
  | call hargs h =>
    cases h.symm.trans hnode
    cases he with
    | call hnested hs _ =>
      obtain ⟨hspans, hvalues⟩ := hargs.spans
      have hline := hnested.values hs
      rw [← hspans] at hs
      rw [← hvalues] at hline
      refine ⟨?_, ?_, nofun⟩
      · rw [NodeKind.children, List.map_map]
        exact hline.nests
      · rintro _ _ ⟨⟩
        exact ⟨hs.nests, hargs.around hnested⟩

theorem Stored.nests (h : Stored nodes a e i) (he : e.Nested) (h₁ : a ≤ k) (h₂ : k ≤ i)
    (hnode : nodes[k]? = some node) : node.Nests nodes := by
  obtain ⟨_, _, -, hs, hnested⟩ := h.inherit (fun _ he => he.parts) he k h₁ h₂
  exact hs.nests_root hnested hnode

theorem StoredStatement.nests (h : StoredStatement nodes a s i) (hs : s.Nested) (h₁ : a ≤ k)
    (h₂ : k ≤ i) (hnode : nodes[k]? = some node) : node.Nests nodes := by
  cases h with
  | define hb h =>
    cases hs with
    | define hbody hline =>
      rcases Nat.lt_or_eq_of_le h₂ with hlt | rfl
      · exact hb.nests hbody h₁ (Nat.le_of_lt_succ hlt) hnode
      · cases h.symm.trans hnode
        rw [← hb.span] at hline
        refine ⟨(hline.sublist (List.sublist_append_right _ _)).nests, nofun, ?_⟩
        rintro _ _ _ ⟨⟩
        exact hline.nests
  | assign hv h =>
    cases hs with
    | assign hvalue hline =>
      rcases Nat.lt_or_eq_of_le h₂ with hlt | rfl
      · exact hv.nests hvalue h₁ (Nat.le_of_lt_succ hlt) hnode
      · cases h.symm.trans hnode
        rw [← hv.span] at hline
        exact .of_children hline.nests nofun nofun
  | expr he =>
    cases hs with
    | expr hvalue => exact he.nests hvalue h₁ h₂ hnode

/-! ## Patches -/

/-- Every node belongs to a tree whose spans are nested. A fragment counts as a statement here. -/
def Arena.Planted (nodes : Arena) : Prop :=
  ∀ k < nodes.size, ∃ a s i, StoredStatement nodes a s i ∧ s.Nested ∧ a ≤ k ∧ k ≤ i

theorem Statement.store_planted {nodes : Arena} {s : Statement} (h : nodes.Planted)
    (hs : s.Nested) :
    Arena.Planted (s.store nodes).1 := by
  obtain ⟨hstored, hsize, hext⟩ := storeStatement_stored s nodes
  intro k hk
  rcases Nat.lt_or_ge k nodes.size with hold | hnew
  · obtain ⟨a, s', i, hs', hnested, h₁, h₂⟩ := h k hold
    have hi := hs'.lt_size
    exact ⟨a, s', i, hs'.congr fun j _ hj => hext.2 j (by omega), hnested, h₁, h₂⟩
  · exact ⟨_, s, _, hstored, hs, hnew, by omega⟩

theorem Patch.addTurn_planted {p : Patch} (h : p.nodes.Planted) (hturn : turn.Nested) :
    (p.addTurn turn).nodes.Planted := by
  cases hturn with
  | complete hs | trailing hs => exact Statement.store_planted h hs
  | abandoned hbuilt =>
    exact List.foldlRecOn _ _ h fun nodes hnodes e he =>
      Statement.store_planted hnodes (.expr (hbuilt e he))

theorem parse_planted (source : String) : (parse (scan source).tokens).patch.nodes.Planted := by
  obtain ⟨hturns, -⟩ := Grammar.turns_lined _ (tokensOf_inLine source)
  rw [parse_scan]
  exact List.foldlRecOn (motive := fun p : Patch => p.nodes.Planted) _ Patch.addTurn
    (fun _ hk => by cases hk) fun p hp turn hturn => Patch.addTurn_planted hp (hturns turn hturn)

theorem StoredList.pairwise (h : StoredList nodes a ss ids) :
    (∀ i ∈ ids, a ≤ i) ∧ ids.Pairwise (· < ·) := by
  induction h with
  | nil => simp
  | cons hab hs _ ih =>
    have hle := hs.le
    refine ⟨List.forall_mem_cons.mpr ⟨by omega, fun j hj => ?_⟩, .cons (fun j hj => ih.1 j hj) ih.2⟩
    have := ih.1 j hj
    omega

theorem StoredStatement.span (h : StoredStatement nodes a s i) : nodes.span i = s.span := by
  cases h with
  | define _ h | assign _ h => exact Arena.span_eq h
  | expr he => exact he.span

theorem StoredList.spans (h : StoredList nodes a ss ids) :
    ids.map nodes.span = ss.map Statement.span := by
  induction h with
  | nil => rfl
  | cons _ hs _ ih => rw [List.map_cons, List.map_cons, hs.span, ih]

/-- The nodes of a patch form trees, in which spans are nested; the statements are among their
roots. -/
structure Patch.IsForest (p : Patch) : Prop where
  earlier : p.nodes.Ordered
  single : (p.nodes.references ++ p.statements).Nodup
  exist : ∀ id ∈ p.statements, id < p.nodes.size
  increasing : p.statements.Pairwise (· < ·)
  nested : ∀ (i : NodeId) (node : Node), p.nodes[i]? = some node → node.Nests p.nodes
  apart : (p.statements.map p.nodes.span).Pairwise fun a b => a.stop ≤ b.offset

theorem parse_isForest (source : String) : (parse (scan source).tokens).patch.IsForest where
  earlier := parse_ordered _
  single := (parse_filled _).nodup
  exist := (parse_stored _).lt_size
  increasing := (parse_stored _).pairwise.2
  nested i node hnode := by
    obtain ⟨a, s, j, hs, hnested, h₁, h₂⟩ :=
      parse_planted source i (Array.getElem?_eq_some_iff.mp hnode).1
    exact hs.nests hnested h₁ h₂ hnode
  apart := by
    obtain ⟨-, hline⟩ := Grammar.turns_lined _ (tokensOf_inLine source)
    rw [(parse_stored _).spans, Grammar.statements, beforeFinish_scan]
    exact hline.pairwise

end SignalPatch
