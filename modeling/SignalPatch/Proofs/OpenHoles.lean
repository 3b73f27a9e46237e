import Mathlib.Logic.Relation
import SignalPatch.Proofs.Descent

/-!
# Which pipe a hole belongs to

A hole belongs to the innermost pipe that has it on its right side (`Patch.Belongs`). In a patch as
it was read, the nodes of a tree are a stretch of the arena (`Stored.contains_iff`), so there is at
most one such pipe (`Patch.Belongs.unique`), and the holes that belong to a pipe are those that are
still open at the root of its right side (`Patch.belongs_iff_open`): the ones to which a path leads
that never enters the right side of another pipe.
-/

namespace SignalPatch

open Relation (ReflTransGen)

/-! ## Trees as stretches -/

/-- The second node is the first or lies below it. -/
def Arena.Contains (nodes : Arena) : NodeId → NodeId → Prop := ReflTransGen nodes.Refers

section Stretches

variable {nodes : Arena}

theorem Arena.refers_of_kind {label : NodeKind} (h : nodes.kind i = label)
    (hj : j ∈ label.children) :
    nodes.Refers i j := by
  rw [Arena.Refers, h]
  exact hj

mutual

theorem Stored.contains : Stored nodes a e i → ∀ k, a ≤ k → k ≤ i → nodes.Contains i k
  | .number _, k, h₁, h₂ | .bool _, k, h₁, h₂ | .text _, k, h₁, h₂ | .ident _, k, h₁, h₂
  | .hole _, k, h₁, h₂ => Nat.le_antisymm h₁ h₂ ▸ .refl
  | .binary (i := l) (j := m) hl hr h, k, h₁, h₂ | .pipe (i := l) (j := m) hl hr h, k, h₁, h₂ => by
    have hkind := Arena.kind_eq h
    rcases Nat.lt_or_ge l k with hlk | hkl
    · rcases Nat.lt_or_ge m k with hmk | hkm
      · obtain rfl : k = m + 1 := by omega
        exact .refl
      · exact .head (Arena.refers_of_kind hkind (.tail _ (.head _))) (hr.contains k hlk hkm)
    · exact .head (Arena.refers_of_kind hkind (.head _)) (hl.contains k h₁ hkl)
  | .call hargs h, k, h₁, h₂ => by
    rcases Nat.lt_or_eq_of_le h₂ with hlt | rfl
    · obtain ⟨x, hx, hk⟩ := hargs.contains k h₁ hlt
      exact .head (Arena.refers_of_kind (Arena.kind_eq h) (List.mem_map_of_mem hx)) hk
    · exact .refl

theorem StoredArgs.contains : StoredArgs nodes a args ids b → ∀ k, a ≤ k → k < b →
    ∃ x ∈ ids, nodes.Contains x.value k
  | .nil, k, h₁, h₂ => absurd h₂ (Nat.not_lt.mpr h₁)
  | .cons (i := i) hv hargs, k, h₁, h₂ => by
    rcases Nat.lt_or_ge i k with hik | hki
    · obtain ⟨x, hx, hk⟩ := hargs.contains k hik h₂
      exact ⟨x, .tail _ hx, hk⟩
    · exact ⟨_, .head _, hv.contains k h₁ hki⟩

end

theorem Stored.contains_iff {k : Nat} (h : Stored nodes a e i) :
    nodes.Contains i k ↔ a ≤ k ∧ k ≤ i := by
  refine ⟨fun hk => ?_, fun hk => h.contains k hk.1 hk.2⟩
  induction hk with
  | refl => exact ⟨h.le, Nat.le_refl _⟩
  | tail _ hstep ih =>
    obtain ⟨a', e', hle, hs⟩ := h.inner ih.1 ih.2
    have hrange := hs.refers_root hstep
    omega

theorem StoredArgs.contains_range {q k : Nat} (h : StoredArgs nodes a args ids b) (h₁ : a ≤ q)
    (h₂ : q < b) (hk : nodes.Contains q k) : a ≤ k ∧ k < b := by
  obtain ⟨a', e', hle, hs⟩ := h.inner h₁ h₂
  have hrange := hs.contains_iff.mp hk
  omega

theorem StoredStatement.contains_iff {k : Nat} (h : StoredStatement nodes b s i) :
    nodes.Contains i k ↔ b ≤ k ∧ k ≤ i := by
  cases h with
  | define ht hnode | assign ht hnode =>
    have hle := ht.le
    refine ⟨fun hk => ?_, fun hk => ?_⟩
    · rcases hk.cases_head with rfl | ⟨c, hc, hbelow⟩
      · omega
      · rw [Arena.Refers, Arena.kind_eq hnode] at hc
        obtain rfl := List.mem_singleton.mp hc
        have hrange := ht.contains_iff.mp hbelow
        omega
    · rcases Nat.lt_or_eq_of_le hk.2 with hlt | rfl
      · exact .head (Arena.refers_of_kind (Arena.kind_eq hnode) (.head _))
          (ht.contains_iff.mpr ⟨hk.1, Nat.le_of_lt_succ hlt⟩)
      · exact .refl
  | expr ht => exact ht.contains_iff

theorem StoredArgs.cover (h : StoredArgs nodes a args ids b) (h₁ : a ≤ k) (h₂ : k < b) :
    ∃ x ∈ ids, ∃ start e, Stored nodes start e x.value ∧ start ≤ k ∧ k ≤ x.value := by
  induction ids generalizing a args with
  | nil =>
    cases h
    omega
  | cons y ids ih =>
    cases h with
    | @cons _ _ i _ _ _ _ _ hv hrest =>
      rcases Nat.lt_or_ge i k with hik | hki
      · obtain ⟨x, hx, hs⟩ := ih hrest hik
        exact ⟨x, .tail _ hx, hs⟩
      · exact ⟨_, .head _, a, _, hv, h₁, hki⟩

theorem StoredList.statement_unique {x : Nat} (h : StoredList nodes a ss ids) (hi : i ∈ ids)
    (hj : j ∈ ids) (hs : StoredStatement nodes b s i) (hs' : StoredStatement nodes b' s' j)
    (hx : b ≤ x ∧ x ≤ i) (hx' : b' ≤ x ∧ x ≤ j) : i = j := by
  induction h with
  | nil => cases hi
  | @cons _ _ _ i₀ _ rest _ hs₀ hrest ih =>
    have hlater : ∀ {b s k}, k ∈ rest → StoredStatement nodes b s k → i₀ + 1 ≤ b := by
      intro b s k hk hs
      obtain ⟨b', s', -, hle, hs'⟩ := hrest.statement hk
      exact hs.start_unique hs' ▸ hle
    rcases List.mem_cons.mp hi with rfl | hi' <;> rcases List.mem_cons.mp hj with rfl | hj'
    · rfl
    · have := hlater hj' hs'
      omega
    · have := hlater hi' hs
      omega
    · exact ih hi' hj'

end Stretches

/-! ## Open holes -/

/-- The hole `h` lies in the tree of a node, and in none of its pipes on the right side. So a pipe
with that tree on its right side would fill it. -/
inductive Arena.Open (nodes : Arena) (h : NodeId) : NodeId → Prop
  | here : nodes.kind h = .hole → Open nodes h h
  | child : (∀ s t, nodes.kind i ≠ .pipe s t) → nodes.Refers i c → Open nodes h c → Open nodes h i
  | source : nodes.kind i = .pipe s t → Open nodes h s → Open nodes h i

section Open

variable {nodes : Arena}

theorem Arena.Open.kind (ho : nodes.Open h i) : nodes.kind h = .hole := by
  induction ho with
  | here hk => exact hk
  | child _ _ _ ih | source _ _ ih => exact ih

theorem Arena.Open.contains (ho : nodes.Open h i) : nodes.Contains i h := by
  induction ho with
  | here => exact .refl
  | child _ hc _ ih => exact .head hc ih
  | source hk _ ih => exact .head (Arena.refers_of_kind hk (.head _)) ih

theorem Arena.open_iff : nodes.Open h i ↔
    match nodes.kind i with
    | .hole => h = i
    | .pipe s _ => nodes.Open h s
    | kind => ∃ c ∈ kind.children, nodes.Open h c := by
  constructor
  · intro ho
    cases ho with
    | here hk => simp [hk]
    | child hne hc ho =>
      rw [Arena.Refers] at hc
      cases hk : nodes.kind i with
      | hole =>
        rw [hk] at hc
        cases hc
      | pipe s t => exact absurd hk (hne s t)
      | _ => exact ⟨_, hk ▸ hc, ho⟩
    | source hk ho => simp [hk, ho]
  · intro ho
    cases hk : nodes.kind i with
    | hole =>
      rw [hk] at ho
      subst ho
      exact .here hk
    | pipe s t =>
      rw [hk] at ho
      exact .source hk ho
    | _ =>
      rw [hk] at ho
      obtain ⟨c, hc, ho⟩ := ho
      exact .child (by simp [hk]) (Arena.refers_of_kind hk hc) ho

theorem Arena.Contains.open (hc : nodes.Contains i h) (hh : nodes.kind h = .hole) :
    nodes.Open h i ∨ ∃ q s t, nodes.Contains i q ∧ nodes.kind q = .pipe s t ∧ nodes.Open h t := by
  induction hc using ReflTransGen.head_induction_on with
  | refl => exact .inl (.here hh)
  | @head i c hstep _ ih =>
    rcases ih with ho | ⟨q, s, t, hq, hk, ho⟩
    · by_cases hpipe : ∃ s t, nodes.kind i = .pipe s t
      · obtain ⟨s, t, hk⟩ := hpipe
        rw [Arena.Refers, hk] at hstep
        rcases List.mem_pair.mp hstep with rfl | rfl
        · exact .inl (.source hk ho)
        · exact .inr ⟨i, s, c, .refl, hk, ho⟩
      · exact .inl (.child (fun s t hk => hpipe ⟨s, t, hk⟩) hstep ho)
    · exact .inr ⟨q, s, t, .head hstep hq, hk, ho⟩

mutual

/-- Looking for a hole in a tree is looking for an open one. -/
theorem Stored.hasHole_iff : Stored nodes a e i → (e.hasHole ↔ ∃ h, nodes.Open h i)
  | .number h | .bool h | .text h | .ident h => by
    simp only [Expr.hasHole, Arena.open_iff (i := a), Arena.kind_eq h, NodeKind.children]
    simp
  | .hole h => by
    simp [Expr.hasHole, Arena.open_iff (i := a), Arena.kind_eq h]
  | .binary (i := l) (j := m) hl hr h => by
    simp only [Expr.hasHole, Bool.or_eq_true, hl.hasHole_iff, hr.hasHole_iff,
      Arena.open_iff (i := m + 1),
      Arena.kind_eq h, NodeKind.children, List.mem_pair, exists_eq_or_imp,
      exists_eq_left, exists_or]
  | .pipe (i := l) (j := m) hl hr h => by
    simp only [Expr.hasHole, hl.hasHole_iff, Arena.open_iff (i := m + 1), Arena.kind_eq h]
  | .call (b := b) hargs h => by
    simp only [Expr.hasHole, hargs.hasHole_iff, Arena.open_iff (i := b),
      Arena.kind_eq h, NodeKind.children, List.mem_map, exists_exists_and_eq_and]

theorem StoredArgs.hasHole_iff : StoredArgs nodes a args ids b →
    (argsHaveHole args ↔ ∃ h, ∃ x ∈ ids, nodes.Open h x.value)
  | .nil => by simp [argsHaveHole]
  | .cons hv hargs => by
    simp only [argsHaveHole, Bool.or_eq_true, hv.hasHole_iff, hargs.hasHole_iff,
      List.exists_mem_cons_iff, exists_or]

end

mutual

theorem Stored.open_outside {h : Nat} :
    Stored nodes a e i → nodes.Open h i → ∀ (q : Nat) s t, a ≤ q → q ≤ i →
    nodes.kind q = .pipe s t → ¬ nodes.Contains t h
  | .number hnode, ho, q, s, t, h₁, h₂, hq, _ | .bool hnode, ho, q, s, t, h₁, h₂, hq, _
  | .text hnode, ho, q, s, t, h₁, h₂, hq, _ | .ident hnode, ho, q, s, t, h₁, h₂, hq, _
  | .hole hnode, ho, q, s, t, h₁, h₂, hq, _ => by
    obtain rfl : q = a := Nat.le_antisymm h₂ h₁
    rw [Arena.kind_eq hnode] at hq
    cases hq
  | .binary (i := l) (j := m) hl hr hnode, ho, q, s, t, h₁, h₂, hq, ht => by
    have hqh : nodes.Contains q h := .head (Arena.refers_of_kind hq (.tail _ (.head _))) ht
    have hal := hl.le
    simp only [Arena.open_iff (i := m + 1), Arena.kind_eq hnode, NodeKind.children, List.mem_pair,
      exists_eq_or_imp, exists_eq_left] at ho
    -- a pipe in one operand has the holes below it there too, so none of them is open in the other
    rcases Nat.lt_or_ge l q with hlq | hql
    · rcases Nat.lt_or_ge m q with hmq | hqm
      · obtain rfl : q = m + 1 := by omega
        rw [Arena.kind_eq hnode] at hq
        cases hq
      · rcases ho with ho | ho
        · have := hl.contains_iff.mp ho.contains
          have := hr.contains_iff.mp ((hr.contains_iff.mpr ⟨hlq, hqm⟩).trans hqh)
          omega
        · exact hr.open_outside ho q s t hlq hqm hq ht
    · rcases ho with ho | ho
      · exact hl.open_outside ho q s t h₁ hql hq ht
      · have := hr.contains_iff.mp ho.contains
        have := hl.contains_iff.mp ((hl.contains_iff.mpr ⟨h₁, hql⟩).trans hqh)
        omega
  | .pipe (i := l) (j := m) hl hr hnode, ho, q, s, t, h₁, h₂, hq, ht => by
    have hqh : nodes.Contains q h := .head (Arena.refers_of_kind hq (.tail _ (.head _))) ht
    have hal := hl.le
    simp only [Arena.open_iff (i := m + 1), Arena.kind_eq hnode] at ho
    have hrange := hl.contains_iff.mp ho.contains
    rcases Nat.lt_or_ge l q with hlq | hql
    · rcases Nat.lt_or_ge m q with hmq | hqm
      · obtain rfl : q = m + 1 := by omega
        rw [Arena.kind_eq hnode] at hq
        cases hq
        have := hr.contains_iff.mp ht
        omega
      · have := hr.contains_iff.mp ((hr.contains_iff.mpr ⟨hlq, hqm⟩).trans hqh)
        omega
    · exact hl.open_outside ho q s t h₁ hql hq ht
  | .call (b := b) hargs hnode, ho, q, s, t, h₁, h₂, hq, ht => by
    simp only [Arena.open_iff (i := b), Arena.kind_eq hnode, NodeKind.children, List.mem_map,
      exists_exists_and_eq_and] at ho
    rcases Nat.lt_or_eq_of_le h₂ with hlt | rfl
    · exact hargs.open_outside ho q s t h₁ hlt hq ht
    · rw [Arena.kind_eq hnode] at hq
      cases hq

theorem StoredArgs.open_outside {h : Nat} :
    StoredArgs nodes a args ids b → (∃ x ∈ ids, nodes.Open h x.value) →
    ∀ (q : Nat) s t, a ≤ q → q < b → nodes.kind q = .pipe s t → ¬ nodes.Contains t h
  | .nil, _, q, s, t, h₁, h₂, _, _ => absurd h₂ (Nat.not_lt.mpr h₁)
  | .cons (i := i) hv hargs, ho, q, s, t, h₁, h₂, hq, ht => by
    have hqh : nodes.Contains q h := .head (Arena.refers_of_kind hq (.tail _ (.head _))) ht
    rw [List.exists_mem_cons_iff] at ho
    rcases Nat.lt_or_ge i q with hiq | hqi
    · rcases ho with ho | ho
      · have := hv.contains_iff.mp ho.contains
        have := hargs.contains_range hiq h₂ hqh
        omega
      · exact hargs.open_outside ho q s t hiq h₂ hq ht
    · rcases ho with ho | ⟨x, hx, ho⟩
      · exact hv.open_outside ho q s t h₁ hqi hq ht
      · obtain ⟨start, _, hstart, hs, -⟩ := hargs.value hx
        have := hs.contains_iff.mp ho.contains
        have := hv.contains_iff.mp ((hv.contains_iff.mpr ⟨h₁, hqi⟩).trans hqh)
        omega

end

theorem StoredStatement.open_outside {x : Nat} (h : StoredStatement nodes b st i)
    (ho : nodes.Open x i) (q : Nat) (s t : NodeId) (h₁ : b ≤ q) (h₂ : q ≤ i)
    (hq : nodes.kind q = .pipe s t) : ¬ nodes.Contains t x := by
  cases h with
  | @define _ root _ _ _ ht hnode | @assign _ root _ _ ht hnode =>
    simp only [Arena.open_iff (i := root + 1), Arena.kind_eq hnode,
      NodeKind.children, List.mem_singleton, exists_eq_left] at ho
    rcases Nat.lt_or_eq_of_le h₂ with hlt | rfl
    · exact ht.open_outside ho q s t h₁ (Nat.le_of_lt_succ hlt) hq
    · rw [Arena.kind_eq hnode] at hq
      cases hq
  | expr ht => exact ht.open_outside ho q s t h₁ h₂ hq

end Open

/-! ## Holes and pipes of a patch -/

namespace Patch

def Reaches (p : Patch) (i : NodeId) : Prop := ∃ st ∈ p.statements, p.nodes.Contains st i

/-- The hole `h` belongs to the pipe `q`: it lies on the right side of the pipe, and not on the
right side of another pipe there. -/
structure Belongs (p : Patch) (h q : NodeId) : Prop where
  hole : p.nodes.kind h = .hole
  reached : p.Reaches q
  innermost : ∃ s t, p.nodes.kind q = .pipe s t ∧ p.nodes.Contains t h ∧
    ∀ q' s' t', p.nodes.Contains t q' → p.nodes.kind q' = .pipe s' t' → ¬ p.nodes.Contains t' h

variable {p : Patch}

theorem Reaches.contains (h : p.Reaches i) (hj : p.nodes.Contains i j) : p.Reaches j := by
  obtain ⟨st, hst, hi⟩ := h
  exact ⟨st, hst, hi.trans hj⟩

theorem reaches_iff {k : Nat} (hp : StoredList p.nodes 0 ss p.statements) :
    p.Reaches k ↔ ∃ i ∈ p.statements, ∃ b s, StoredStatement p.nodes b s i ∧ b ≤ k ∧ k ≤ i := by
  constructor
  · rintro ⟨i, hi, hk⟩
    obtain ⟨b, s, -, -, hs⟩ := hp.statement hi
    exact ⟨i, hi, b, s, hs, hs.contains_iff.mp hk⟩
  · rintro ⟨i, hi, b, s, hs, hk⟩
    exact ⟨i, hi, hs.contains_iff.mpr hk⟩

theorem Reaches.stored (hp : StoredList p.nodes 0 ss p.statements) (h : p.Reaches k)
    (hkind : (p.nodes.kind k).isStatement = false) : ∃ a e, Stored p.nodes a e k := by
  obtain ⟨i, hi, b, s, hs, h₁, h₂⟩ := (reaches_iff hp).mp h
  cases hs with
  | define ht hnode | assign ht hnode =>
    rcases Nat.lt_or_eq_of_le h₂ with hlt | rfl
    · obtain ⟨a, e, -, hs⟩ := ht.inner h₁ (Nat.le_of_lt_succ hlt)
      exact ⟨a, e, hs⟩
    · rw [Arena.kind_eq hnode] at hkind
      cases hkind
  | expr ht =>
    obtain ⟨a, e, -, hs⟩ := ht.inner h₁ h₂
    exact ⟨a, e, hs⟩

theorem Reaches.pipe (hp : StoredList p.nodes 0 ss p.statements) (h : p.Reaches q)
    (hkind : p.nodes.kind q = .pipe s t) :
    ∃ a source target, q = t + 1 ∧ Stored p.nodes a source s ∧
      Stored p.nodes (s + 1) target t := by
  obtain ⟨a, e, hs⟩ := h.stored hp (by rw [hkind]; rfl)
  obtain ⟨source, target, -, hq, hsource, htarget⟩ :=
    hs.of_pipe (Arena.getElem?_of_kind hkind (by simp))
  exact ⟨a, source, target, hq, hsource, htarget⟩

/-- The holes that belong to a pipe are those that are open on its right side. -/
theorem belongs_iff_open (hp : StoredList p.nodes 0 ss p.statements) (hq : p.Reaches q)
    (hkind : p.nodes.kind q = .pipe s t) : p.Belongs h q ↔ p.nodes.Open h t := by
  obtain ⟨a, source, target, -, -, htarget⟩ := hq.pipe hp hkind
  constructor
  · rintro ⟨hhole, -, s', t', hkind', hh, hinner⟩
    cases hkind.symm.trans hkind'
    refine (Arena.Contains.open hh hhole).resolve_right ?_
    rintro ⟨q', s', t', hq', hk, ho⟩
    exact hinner q' s' t' hq' hk ho.contains
  · intro ho
    refine ⟨ho.kind, hq, s, t, hkind, ho.contains, fun q' s' t' hq' hk => ?_⟩
    obtain ⟨h₁, h₂⟩ := htarget.contains_iff.mp hq'
    exact htarget.open_outside ho q' s' t' h₁ h₂ hk

theorem Belongs.unique {q q' : Nat} (hp : StoredList p.nodes 0 ss p.statements) (h : p.Belongs x q)
    (h' : p.Belongs x q') : q = q' := by
  have hle : ∀ {q q' : Nat}, p.Belongs x q → p.Belongs x q' → q ≤ q' := by
    intro q q' h h'
    obtain ⟨s, t, hkind, hx, hinner⟩ := h.innermost
    obtain ⟨s', t', hkind', hx', -⟩ := h'.innermost
    obtain ⟨a, source, target, rfl, -, htarget⟩ := h.reached.pipe hp hkind
    obtain ⟨a', source', target', rfl, -, htarget'⟩ := h'.reached.pipe hp hkind'
    -- the other pipe would lie between the hole and this one, so on the right side of this one
    refine Nat.le_of_not_lt fun hlt => hinner (t' + 1) s' t'
      (htarget.contains_iff.mpr ?_) hkind' hx'
    have := htarget.contains_iff.mp hx
    have := htarget'.contains_iff.mp hx'
    omega
  exact Nat.le_antisymm (hle h h') (hle h' h)

theorem not_belongs_of_open {x : Nat} (hp : StoredList p.nodes 0 ss p.statements)
    (hi : i ∈ p.statements) (ho : p.nodes.Open x i) : ¬ p.Belongs x q := by
  rintro ⟨-, hq, s, t, hkind, hx, -⟩
  have hqx : p.nodes.Contains q x := .head (Arena.refers_of_kind hkind (.tail _ (.head _))) hx
  obtain ⟨j, hj, b', s', hs', h₁, h₂⟩ := (reaches_iff hp).mp hq
  obtain ⟨b, s₀, -, -, hs⟩ := hp.statement hi
  have hrange := hs'.contains_iff.mp ((hs'.contains_iff.mpr ⟨h₁, h₂⟩).trans hqx)
  obtain rfl := hp.statement_unique hi hj hs hs' (hs.contains_iff.mp ho.contains) hrange
  exact hs'.open_outside ho q s t h₁ h₂ hkind hx

theorem belongs_or_open (hp : StoredList p.nodes 0 ss p.statements) (hs : i ∈ p.statements)
    (hx : p.nodes.Contains i x) (hhole : p.nodes.kind x = .hole) :
    p.nodes.Open x i ∨ ∃ q, p.Belongs x q := by
  refine (Arena.Contains.open hx hhole).imp_right ?_
  rintro ⟨q, s, t, hq, hkind, ho⟩
  exact ⟨q, (belongs_iff_open hp ⟨i, hs, hq⟩ hkind).mpr ho⟩

end Patch

end SignalPatch
