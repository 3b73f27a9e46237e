import SignalPatch.Patch

/-!
# How trees lie in an arena

A tree is stored children first, so it fills one stretch of the arena and its root comes last. The
statements of a patch fill stretches one behind the other (`parse_stored`); between them lie the
fragments of statements that were given up, which nothing refers to.
-/

namespace SignalPatch

mutual

/-- The tree fills the nodes from the first number up to the second, which is its root. -/
inductive Stored (nodes : Arena) : Nat → Expr → Nat → Prop
  | number : nodes[a]? = some ⟨.number v, s⟩ → Stored nodes a (.number v s) a
  | bool : nodes[a]? = some ⟨.bool v, s⟩ → Stored nodes a (.bool v s) a
  | text : nodes[a]? = some ⟨.text v, s⟩ → Stored nodes a (.text v s) a
  | ident : nodes[a]? = some ⟨.ident x, s⟩ → Stored nodes a (.ident x s) a
  | hole : nodes[a]? = some ⟨.hole, s⟩ → Stored nodes a (.hole s) a
  | binary : Stored nodes a lhs i → Stored nodes (i + 1) rhs j →
      nodes[j + 1]? = some ⟨.binary op i j, s⟩ → Stored nodes a (.binary op lhs rhs s) (j + 1)
  | call : StoredArgs nodes a args ids b → nodes[b]? = some ⟨.call callee ids, s⟩ →
      Stored nodes a (.call callee args s) b
  | pipe : Stored nodes a source i → Stored nodes (i + 1) target j →
      nodes[j + 1]? = some ⟨.pipe i j, s⟩ → Stored nodes a (.pipe source target s) (j + 1)

/-- The values of the arguments fill the nodes from the first number up to, and without, the
second. -/
inductive StoredArgs (nodes : Arena) : Nat → List (Arg Expr) → List (Arg NodeId) → Nat → Prop
  | nil : StoredArgs nodes a [] [] a
  | cons : Stored nodes a value i → StoredArgs nodes (i + 1) args ids b →
      StoredArgs nodes a (⟨name, value, s⟩ :: args) (⟨name, i, s⟩ :: ids) b

end

inductive StoredStatement (nodes : Arena) : Nat → Statement → Nat → Prop
  | define : Stored nodes a body i → nodes[i + 1]? = some ⟨.define name params i, s⟩ →
      StoredStatement nodes a (.define name params body s) (i + 1)
  | assign : Stored nodes a value i → nodes[i + 1]? = some ⟨.assign name i, s⟩ →
      StoredStatement nodes a (.assign name value s) (i + 1)
  | expr : Stored nodes a e i → StoredStatement nodes a (.expr e) i

/-- The statements fill stretches one behind the other, from a number on. -/
inductive StoredList (nodes : Arena) : Nat → List Statement → List NodeId → Prop
  | nil : StoredList nodes a [] []
  | cons : a ≤ b → StoredStatement nodes b s i → StoredList nodes (i + 1) ss ids →
      StoredList nodes a (s :: ss) (i :: ids)

/-! ## Stretches -/

mutual

theorem Stored.le : Stored nodes a e i → a ≤ i
  | .number _ | .bool _ | .text _ | .ident _ | .hole _ => Nat.le_refl _
  | .binary hl hr _ | .pipe hl hr _ => by
    have := hl.le
    have := hr.le
    omega
  | .call hargs _ => hargs.le

theorem StoredArgs.le : StoredArgs nodes a args ids b → a ≤ b
  | .nil => Nat.le_refl _
  | .cons hv hargs => by
    have := hv.le
    have := hargs.le
    omega

end

def Expr.parts : Expr → List Expr
  | .binary _ a b _ | .pipe a b _ => [a, b]
  | .call _ args _ => args.map Arg.value
  | .number .. | .bool .. | .text .. | .ident .. | .hole _ => []

mutual

/-- Every node of the stretch of a tree is the root of a tree of its own. What passes from trees to
their parts is true of it. -/
theorem Stored.inherit {P : Expr → Prop} (hP : ∀ e, P e → ∀ part ∈ e.parts, P part) :
    Stored nodes a e i → P e →
    ∀ k, a ≤ k → k ≤ i → ∃ a' e', a ≤ a' ∧ Stored nodes a' e' k ∧ P e'
  | hs@(.number _), he, k, h₁, h₂ | hs@(.bool _), he, k, h₁, h₂ | hs@(.text _), he, k, h₁, h₂
  | hs@(.ident _), he, k, h₁, h₂ | hs@(.hole _), he, k, h₁, h₂ => by
    obtain rfl : k = a := Nat.le_antisymm h₂ h₁
    exact ⟨k, _, Nat.le_refl _, hs, he⟩
  | .binary (i := l) (j := m) hl hr h, he, k, h₁, h₂ => by
    have hal := hl.le
    rcases Nat.lt_or_ge l k with hlk | hkl
    · rcases Nat.lt_or_ge m k with hmk | hkm
      · obtain rfl : k = m + 1 := by omega
        exact ⟨a, _, Nat.le_refl _, .binary hl hr h, he⟩
      · obtain ⟨a', e', hle, hs⟩ := hr.inherit hP (hP _ he _ (.tail _ (.head _))) k hlk hkm
        exact ⟨a', e', by omega, hs⟩
    · exact hl.inherit hP (hP _ he _ (.head _)) k h₁ hkl
  | .pipe (i := l) (j := m) hl hr h, he, k, h₁, h₂ => by
    have hal := hl.le
    rcases Nat.lt_or_ge l k with hlk | hkl
    · rcases Nat.lt_or_ge m k with hmk | hkm
      · obtain rfl : k = m + 1 := by omega
        exact ⟨a, _, Nat.le_refl _, .pipe hl hr h, he⟩
      · obtain ⟨a', e', hle, hs⟩ := hr.inherit hP (hP _ he _ (.tail _ (.head _))) k hlk hkm
        exact ⟨a', e', by omega, hs⟩
    · exact hl.inherit hP (hP _ he _ (.head _)) k h₁ hkl
  | .call hargs h, he, k, h₁, h₂ => by
    rcases Nat.lt_or_eq_of_le h₂ with hlt | rfl
    · exact hargs.inherit hP (fun x hx => hP _ he _ (List.mem_map_of_mem hx)) k h₁ hlt
    · exact ⟨a, _, Nat.le_refl _, .call hargs h, he⟩

theorem StoredArgs.inherit {P : Expr → Prop} (hP : ∀ e, P e → ∀ part ∈ e.parts, P part) :
    StoredArgs nodes a args ids b → (∀ x ∈ args, P x.value) → ∀ k, a ≤ k → k < b →
      ∃ a' e', a ≤ a' ∧ Stored nodes a' e' k ∧ P e'
  | .nil, _, k, h₁, h₂ => absurd h₂ (Nat.not_lt.mpr h₁)
  | .cons (i := i) hv hargs, hall, k, h₁, h₂ => by
    have hai := hv.le
    rcases Nat.lt_or_ge i k with hik | hki
    · obtain ⟨a', e', hle, hs⟩ := hargs.inherit hP (fun x hx => hall x (.tail _ hx)) k hik h₂
      exact ⟨a', e', by omega, hs⟩
    · exact hv.inherit hP (hall _ (.head _)) k h₁ hki

end

theorem Stored.inner (h : Stored nodes a e i) (h₁ : a ≤ k) (h₂ : k ≤ i) :
    ∃ a' e', a ≤ a' ∧ Stored nodes a' e' k := by
  obtain ⟨a', e', hle, hs, -⟩ := h.inherit (P := fun _ => True)
    (fun _ _ _ _ => trivial) trivial k h₁ h₂
  exact ⟨a', e', hle, hs⟩

theorem StoredArgs.inner (h : StoredArgs nodes a args ids b) (h₁ : a ≤ k) (h₂ : k < b) :
    ∃ a' e', a ≤ a' ∧ Stored nodes a' e' k := by
  obtain ⟨a', e', hle, hs, -⟩ := h.inherit (P := fun _ => True) (fun _ _ _ _ => trivial)
    (fun _ _ => trivial) k h₁ h₂
  exact ⟨a', e', hle, hs⟩

theorem StoredStatement.le (h : StoredStatement nodes a s i) : a ≤ i := by
  cases h with
  | define hb _ => exact Nat.le_succ_of_le hb.le
  | assign hv _ => exact Nat.le_succ_of_le hv.le
  | expr he => exact he.le

theorem Stored.lt_size (h : Stored nodes a e i) : i < nodes.size := by
  cases h <;> exact (Array.getElem?_eq_some_iff.mp ‹_›).1

theorem StoredStatement.lt_size (h : StoredStatement nodes a s i) : i < nodes.size := by
  cases h with
  | define _ h => exact (Array.getElem?_eq_some_iff.mp h).1
  | assign _ h => exact (Array.getElem?_eq_some_iff.mp h).1
  | expr he => exact he.lt_size

mutual

theorem Stored.congr {nodes nodes' : Arena} : Stored nodes a e i →
    (∀ k, a ≤ k → k ≤ i → nodes'[k]? = nodes[k]?) → Stored nodes' a e i
  | .number h, hk => .number (hk _ (Nat.le_refl _) (Nat.le_refl _) ▸ h)
  | .bool h, hk => .bool (hk _ (Nat.le_refl _) (Nat.le_refl _) ▸ h)
  | .text h, hk => .text (hk _ (Nat.le_refl _) (Nat.le_refl _) ▸ h)
  | .ident h, hk => .ident (hk _ (Nat.le_refl _) (Nat.le_refl _) ▸ h)
  | .hole h, hk => .hole (hk _ (Nat.le_refl _) (Nat.le_refl _) ▸ h)
  | .binary hl hr h, hk => by
    have hal := hl.le
    have har := hr.le
    refine .binary (hl.congr fun k h₁ h₂ => ?_) (hr.congr fun k h₁ h₂ => ?_) ?_
    · exact hk k h₁ (by omega)
    · exact hk k (by omega) (by omega)
    · rw [hk _ (by omega) (Nat.le_refl _), h]
  | .pipe hl hr h, hk => by
    have hal := hl.le
    have har := hr.le
    refine .pipe (hl.congr fun k h₁ h₂ => ?_) (hr.congr fun k h₁ h₂ => ?_) ?_
    · exact hk k h₁ (by omega)
    · exact hk k (by omega) (by omega)
    · rw [hk _ (by omega) (Nat.le_refl _), h]
  | .call hargs h, hk => by
    refine .call (hargs.congr fun k h₁ h₂ => hk k h₁ (by omega)) ?_
    rw [hk _ hargs.le (Nat.le_refl _), h]

theorem StoredArgs.congr {nodes nodes' : Arena} : StoredArgs nodes a args ids b →
    (∀ k, a ≤ k → k < b → nodes'[k]? = nodes[k]?) → StoredArgs nodes' a args ids b
  | .nil, _ => .nil
  | .cons hv hargs, hk => by
    have hav := hv.le
    have hab := hargs.le
    refine .cons (hv.congr fun k h₁ h₂ => ?_) (hargs.congr fun k h₁ h₂ => ?_)
    · exact hk k h₁ (by omega)
    · exact hk k (by omega) h₂

end

theorem StoredStatement.congr {nodes nodes' : Arena} (h : StoredStatement nodes a s i)
    (hk : ∀ k, a ≤ k → k ≤ i → nodes'[k]? = nodes[k]?) : StoredStatement nodes' a s i := by
  cases h with
  | define hb h =>
    have := hb.le
    refine .define (hb.congr fun k h₁ h₂ => hk k h₁ (by omega)) ?_
    rw [hk _ (by omega) (Nat.le_refl _), h]
  | assign hv h =>
    have := hv.le
    refine .assign (hv.congr fun k h₁ h₂ => hk k h₁ (by omega)) ?_
    rw [hk _ (by omega) (Nat.le_refl _), h]
  | expr he => exact .expr (he.congr hk)

theorem StoredList.congr {nodes nodes' : Arena} (h : StoredList nodes a ss ids)
    (hk : ∀ k < nodes.size, nodes'[k]? = nodes[k]?) : StoredList nodes' a ss ids := by
  induction h with
  | nil => exact .nil
  | cons hab hs _ ih =>
    exact .cons hab (hs.congr fun k _ h₂ => hk k (Nat.lt_of_le_of_lt h₂ hs.lt_size)) ih

theorem StoredList.snoc (h : StoredList nodes a ss ids) (hs : StoredStatement nodes b s i)
    (ha : a ≤ b) (hb : ∀ k ∈ ids, k < b) : StoredList nodes a (ss ++ [s]) (ids ++ [i]) := by
  induction h with
  | nil => exact .cons ha hs .nil
  | cons hab hs' _ ih =>
    exact .cons hab hs' (ih (hb _ (by simp)) fun k hk => hb k (List.mem_cons_of_mem _ hk))

theorem StoredList.lt_size (h : StoredList nodes a ss ids) : ∀ k ∈ ids, k < nodes.size := by
  induction h with
  | nil => simp
  | cons _ hs _ ih =>
    intro k hk
    rcases List.mem_cons.mp hk with rfl | hk
    · exact hs.lt_size
    · exact ih k hk

def NodeKind.isStatement : NodeKind → Bool
  | .assign .. | .define .. => true
  | _ => false

theorem Stored.root (h : Stored nodes a e i) :
    ∃ node, nodes[i]? = some node ∧ node.kind.isStatement = false := by
  cases h <;> exact ⟨_, ‹_›, rfl⟩

-- The kind of its root tells what tree it is.

theorem Stored.of_hole (h : Stored nodes a e i) (hnode : nodes[i]? = some ⟨.hole, s⟩) :
    e = .hole s ∧ a = i := by
  cases h <;> simp_all

theorem Stored.of_ident (h : Stored nodes a e i) (hnode : nodes[i]? = some ⟨.ident x, s⟩) :
    e = .ident x s := by
  cases h <;> simp_all

theorem Stored.of_binary (h : Stored nodes a e i) (hnode : nodes[i]? = some ⟨.binary op l r, s⟩) :
    ∃ lhs rhs, e = .binary op lhs rhs s ∧ i = r + 1 ∧ Stored nodes a lhs l ∧
      Stored nodes (l + 1) rhs r := by
  cases h with
  | binary hl hr h =>
    cases h.symm.trans hnode
    exact ⟨_, _, rfl, rfl, hl, hr⟩
  | _ => simp_all

theorem Stored.of_pipe (h : Stored nodes a e i) (hnode : nodes[i]? = some ⟨.pipe l r, s⟩) :
    ∃ source target, e = .pipe source target s ∧ i = r + 1 ∧ Stored nodes a source l ∧
      Stored nodes (l + 1) target r := by
  cases h with
  | pipe hl hr h =>
    cases h.symm.trans hnode
    exact ⟨_, _, rfl, rfl, hl, hr⟩
  | _ => simp_all

theorem Stored.of_call (h : Stored nodes a e i) (hnode : nodes[i]? = some ⟨.call callee ids, s⟩) :
    ∃ args, e = .call callee args s ∧ StoredArgs nodes a args ids i := by
  cases h <;> simp_all

theorem StoredArgs.value (h : StoredArgs nodes a args ids b) (hx : x ∈ ids) :
    ∃ start e, a ≤ start ∧ Stored nodes start e x.value ∧ x.value < b := by
  induction ids generalizing a args with
  | nil => simp at hx
  | cons y ids ih =>
    cases h with
    | cons hv hrest =>
      have hle := hv.le
      have hle' := hrest.le
      rcases List.mem_cons.mp hx with rfl | hx
      · exact ⟨a, _, Nat.le_refl _, hv, hle'⟩
      · obtain ⟨start, e, hstart, he, hlt⟩ := ih hrest hx
        exact ⟨start, e, by omega, he, hlt⟩

mutual

theorem Stored.start_unique : Stored nodes a e i → Stored nodes a' e' i → a = a'
  | .number h, h' | .bool h, h' | .text h, h' | .ident h, h' | .hole h, h' => by
    cases h' <;> simp_all
  | .binary hl _ h, h' | .pipe hl _ h, h' => by
    cases h' <;> simp_all
    exact hl.start_unique ‹_›
  | .call hargs h, h' => by
    cases h' <;> simp_all
    exact hargs.start_unique ‹_›

theorem StoredArgs.start_unique : StoredArgs nodes a args ids b → StoredArgs nodes a' args' ids b →
    a = a'
  | .nil, h' => by
    cases h'
    rfl
  | .cons hv _, h' => by
    cases h' with
    | cons hv' _ => exact hv.start_unique hv'

end

theorem StoredStatement.of_define (h : StoredStatement nodes a st i)
    (hnode : nodes[i]? = some ⟨.define name params b, s⟩) :
    ∃ body, st = .define name params body s ∧ i = b + 1 ∧ Stored nodes a body b := by
  cases h with
  | define hb h =>
    cases h.symm.trans hnode
    exact ⟨_, rfl, rfl, hb⟩
  | assign _ h => cases h.symm.trans hnode
  | expr he =>
    obtain ⟨node, hn, hk⟩ := he.root
    cases hnode.symm.trans hn
    cases hk

theorem StoredStatement.of_assign (h : StoredStatement nodes a st i)
    (hnode : nodes[i]? = some ⟨.assign x v, s⟩) :
    ∃ value, st = .assign x value s ∧ i = v + 1 ∧ Stored nodes a value v := by
  cases h with
  | define _ h => cases h.symm.trans hnode
  | assign hv h =>
    cases h.symm.trans hnode
    exact ⟨_, rfl, rfl, hv⟩
  | expr he =>
    obtain ⟨node, hn, hk⟩ := he.root
    cases hnode.symm.trans hn
    cases hk

theorem StoredStatement.of_expr (h : StoredStatement nodes a st i) (hnode : nodes[i]? = some node)
    (hk : node.kind.isStatement = false) : ∃ e, st = .expr e ∧ Stored nodes a e i := by
  cases h with
  | define _ h | assign _ h =>
    cases h.symm.trans hnode
    cases hk
  | expr he => exact ⟨_, rfl, he⟩

theorem StoredStatement.start_unique (h : StoredStatement nodes a s i)
    (h' : StoredStatement nodes a' s' i) : a = a' := by
  cases h with
  | define hb h =>
    obtain ⟨_, -, -, hb'⟩ := h'.of_define h
    exact hb.start_unique hb'
  | assign hv h =>
    obtain ⟨_, -, -, hv'⟩ := h'.of_assign h
    exact hv.start_unique hv'
  | expr he =>
    obtain ⟨node, hn, hk⟩ := he.root
    obtain ⟨_, -, he'⟩ := h'.of_expr hn hk
    exact he.start_unique he'

theorem StoredList.statement (h : StoredList nodes a ss ids) (hi : i ∈ ids) :
    ∃ b, ∃ s ∈ ss, a ≤ b ∧ StoredStatement nodes b s i := by
  induction h with
  | nil => simp at hi
  | cons hab hs _ ih =>
    rcases List.mem_cons.mp hi with rfl | hi
    · exact ⟨_, _, List.mem_cons_self, hab, hs⟩
    · obtain ⟨b, s, hmem, hb, hs'⟩ := ih hi
      have := hs.le
      exact ⟨b, s, List.mem_cons_of_mem _ hmem, by omega, hs'⟩

theorem StoredList.stored (h : StoredList nodes a ss ids) (hs : s ∈ ss) :
    ∃ b, ∃ i ∈ ids, StoredStatement nodes b s i := by
  induction h with
  | nil => simp at hs
  | cons _ hs' _ ih =>
    rcases List.mem_cons.mp hs with rfl | hs
    · exact ⟨_, _, List.mem_cons_self, hs'⟩
    · obtain ⟨b, i, hmem, hs'⟩ := ih hs
      exact ⟨b, i, List.mem_cons_of_mem _ hmem, hs'⟩

/-! ## Storing -/

/-- An arena that goes on from another: it has the same nodes and perhaps more behind them. -/
def Arena.Extends (nodes nodes' : Arena) : Prop :=
  nodes.size ≤ nodes'.size ∧ ∀ k < nodes.size, nodes'[k]? = nodes[k]?

theorem Arena.Extends.refl (nodes : Arena) : nodes.Extends nodes :=
  ⟨Nat.le_refl _, fun _ _ => rfl⟩

theorem Arena.Extends.trans {n₁ n₂ n₃ : Arena} (h : n₁.Extends n₂) (h' : n₂.Extends n₃) :
    n₁.Extends n₃ :=
  ⟨Nat.le_trans h.1 h'.1, fun k hk => (h'.2 k (Nat.lt_of_lt_of_le hk h.1)).trans (h.2 k hk)⟩

theorem Arena.extends_push (nodes : Arena) (node : Node) : nodes.Extends (nodes.push node) :=
  ⟨by simp, fun k hk => by rw [Array.getElem?_push]; simp [Nat.ne_of_lt hk]⟩

mutual

theorem store_stored : (e : Expr) → (nodes : Arena) →
    Stored (e.store nodes).1 nodes.size e (e.store nodes).2 ∧
      (e.store nodes).1.size = (e.store nodes).2 + 1 ∧ nodes.Extends (e.store nodes).1
  | .number ..,
      nodes => ⟨.number (by simp [Expr.store, Arena.add]), by simp [Expr.store, Arena.add],
      nodes.extends_push _⟩
  | .bool .., nodes => ⟨.bool (by simp [Expr.store, Arena.add]), by simp [Expr.store, Arena.add],
      nodes.extends_push _⟩
  | .text .., nodes => ⟨.text (by simp [Expr.store, Arena.add]), by simp [Expr.store, Arena.add],
      nodes.extends_push _⟩
  | .ident .., nodes => ⟨.ident (by simp [Expr.store, Arena.add]), by simp [Expr.store, Arena.add],
      nodes.extends_push _⟩
  | .hole .., nodes => ⟨.hole (by simp [Expr.store, Arena.add]), by simp [Expr.store, Arena.add],
      nodes.extends_push _⟩
  | .binary op lhs rhs s, nodes => by
    obtain ⟨hl, hls, hle⟩ := store_stored lhs nodes
    obtain ⟨hr, hrs, hre⟩ := store_stored rhs (lhs.store nodes).1
    -- nodes are only added, so the operands stay as they were stored
    have hpush := Arena.extends_push (rhs.store (lhs.store nodes).1).1
      ⟨.binary op (lhs.store nodes).2 (rhs.store (lhs.store nodes).1).2, s⟩
    simp only [Expr.store, Arena.add]
    rw [hrs]
    refine ⟨.binary (hl.congr fun k _ h₂ => ?_) (hls ▸ hr.congr fun k _ h₂ => ?_) ?_, by simp [hrs],
      hle.trans (hre.trans hpush)⟩
    · exact (hre.trans hpush).2 k (by omega)
    · exact hpush.2 k (by omega)
    · simp [← hrs]
  | .pipe source target s, nodes => by
    obtain ⟨hl, hls, hle⟩ := store_stored source nodes
    obtain ⟨hr, hrs, hre⟩ := store_stored target (source.store nodes).1
    have hpush := Arena.extends_push (target.store (source.store nodes).1).1
      ⟨.pipe (source.store nodes).2 (target.store (source.store nodes).1).2, s⟩
    simp only [Expr.store, Arena.add]
    rw [hrs]
    refine ⟨.pipe (hl.congr fun k _ h₂ => ?_) (hls ▸ hr.congr fun k _ h₂ => ?_) ?_, by simp [hrs],
      hle.trans (hre.trans hpush)⟩
    · exact (hre.trans hpush).2 k (by omega)
    · exact hpush.2 k (by omega)
    · simp [← hrs]
  | .call callee args s, nodes => by
    obtain ⟨ha, hae⟩ := storeArgs_stored args nodes
    have hpush := Arena.extends_push (storeArgs nodes args).1
      ⟨.call callee (storeArgs nodes args).2, s⟩
    simp only [Expr.store, Arena.add]
    exact ⟨.call (ha.congr fun k _ h₂ => hpush.2 k h₂) (by simp), by simp, hae.trans hpush⟩

theorem storeArgs_stored : (args : List (Arg Expr)) → (nodes : Arena) →
    StoredArgs (storeArgs nodes args).1 nodes.size args (storeArgs nodes args).2
      (storeArgs nodes args).1.size ∧ nodes.Extends (storeArgs nodes args).1
  | [], nodes => ⟨.nil, .refl nodes⟩
  | ⟨name, value, s⟩ :: args, nodes => by
    obtain ⟨hv, hvs, hve⟩ := store_stored value nodes
    obtain ⟨ha, hae⟩ := storeArgs_stored args (value.store nodes).1
    simp only [storeArgs]
    refine ⟨.cons (hv.congr fun k _ h₂ => hae.2 k (by omega)) (hvs ▸ ha), hve.trans hae⟩

end

theorem storeStatement_stored (s : Statement) (nodes : Arena) :
    StoredStatement (s.store nodes).1 nodes.size s (s.store nodes).2 ∧
      (s.store nodes).1.size = (s.store nodes).2 + 1 ∧ nodes.Extends (s.store nodes).1 := by
  cases s with
  | define name params body s =>
    obtain ⟨hb, hbs, hbe⟩ := store_stored body nodes
    have hpush := Arena.extends_push (body.store nodes).1
      ⟨.define name params (body.store nodes).2, s⟩
    simp only [Statement.store, Arena.add]
    rw [hbs]
    have hb' := hb.congr fun k _ h₂ => hpush.2 k (by omega)
    refine ⟨.define hb' ?_, by simp [hbs], hbe.trans hpush⟩
    simp [← hbs]
  | assign name value s =>
    obtain ⟨hv, hvs, hve⟩ := store_stored value nodes
    have hpush := Arena.extends_push (value.store nodes).1 ⟨.assign name (value.store nodes).2, s⟩
    simp only [Statement.store, Arena.add]
    rw [hvs]
    have hv' := hv.congr fun k _ h₂ => hpush.2 k (by omega)
    refine ⟨.assign hv' ?_, by simp [hvs], hve.trans hpush⟩
    simp [← hvs]
  | expr e =>
    obtain ⟨he, hes, hee⟩ := store_stored e nodes
    exact ⟨.expr he, hes, hee⟩

/-! ## Patches -/

namespace Grammar

def Turn.statement? : Turn → Option Statement
  | .complete s | .trailing s _ => some s
  | .abandoned _ => none

def statements (tokens : List Token) : List Statement :=
  (turns (beforeFinish tokens)).filterMap Turn.statement?

end Grammar

theorem Patch.addFragments_extends (es : List Expr) (nodes : Arena) :
    nodes.Extends (es.foldl (fun nodes e => (e.store nodes).1) nodes) := by
  induction es generalizing nodes with
  | nil => exact .refl nodes
  | cons e es ih => exact (store_stored e nodes).2.2.trans (ih _)

theorem Patch.addStatement_stored {p : Patch} (s : Statement)
    (h : StoredList p.nodes 0 ss p.statements) :
    StoredList (p.addStatement s).nodes 0 (ss ++ [s]) (p.addStatement s).statements := by
  obtain ⟨hs, _, hext⟩ := storeStatement_stored s p.nodes
  exact (h.congr hext.2).snoc hs (Nat.zero_le _) h.lt_size

theorem Patch.foldl_addTurn_stored (turns : List Grammar.Turn) {p : Patch}
    (h : StoredList p.nodes 0 ss p.statements) :
    StoredList (turns.foldl addTurn p).nodes 0 (ss ++ turns.filterMap Grammar.Turn.statement?)
      (turns.foldl addTurn p).statements := by
  induction turns generalizing p ss with
  | nil => simpa using h
  | cons t ts ih =>
    cases t with
    | complete s =>
      simpa [Grammar.Turn.statement?, addTurn] using ih (addStatement_stored s h)
    | trailing s next =>
      simpa [Grammar.Turn.statement?, addTurn] using ih (addStatement_stored s h)
    | abandoned fault =>
      have hf := Patch.addFragments_extends fault.built p.nodes
      have hp : StoredList (p.addFragments fault.built).nodes 0 ss p.statements := h.congr hf.2
      simpa [List.filterMap_cons, Grammar.Turn.statement?, addTurn] using ih hp

/-- The statements that were read lie one behind the other in the arena of the patch. -/
theorem parse_stored (tokens : List Token) :
    StoredList (parse tokens).patch.nodes 0 (Grammar.statements tokens)
      (parse tokens).patch.statements := by
  have hempty : StoredList Patch.empty.nodes 0 [] Patch.empty.statements := .nil
  simpa [Grammar.statements, parse] using
    Patch.foldl_addTurn_stored (Grammar.turns (Grammar.beforeFinish tokens)) hempty

end SignalPatch
