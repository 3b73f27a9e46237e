import Mathlib.Algebra.Ring.Defs
import Mathlib.Algebra.Order.BigOperators.Group.Finset
import Mathlib.Data.ENat.Lattice
import Mathlib.Order.Filter.AtTopBot.Basic
import Mathlib.Order.Filter.Finite
import SignalPatch.Proofs.GraphMeaning

/-!
# Signals, and how many instructions they need

The nodes of a resolved patch whose values become signals are those below its statements and
function bodies, except for the texts and numbers that patterns and host parameters read from their
arguments. Within a body each of them counts once, however many others share it (`Resolved.below`),
and a call of a function counts as its body does, expanded anew. `Resolved.need` is the number of
instructions of the whole expansion; it is infinite if calls nest without end.
-/

namespace SignalPatch

open Relation (ReflTransGen TransGen)

/-! ## Signals -/

/-- Whether a call takes the values of its arguments. -/
def Meaning.takesSignals : Meaning → Bool
  | .builtin b =>
    match b.kind with
    | .op _ => true
    | .pattern | .control _ => false
  | .function _ => true
  | .variable | .parameter => false

namespace Resolved

def meaning? (R : Resolved) (callee : String) : Option Meaning :=
  (R.symbols.globals.named? callee).map Symbol.meaning

def signals (R : Resolved) (i : NodeId) : List NodeId :=
  match R.patch.nodes.kind i with
  | .binary _ lhs rhs => [lhs, rhs]
  | .call callee args =>
    if (R.meaning? callee).any Meaning.takesSignals then args.map Arg.value else []
  | _ => []

def Signal (R : Resolved) (i j : NodeId) : Prop := j ∈ R.signals i

open Classical in
/-- The nodes whose values some of the nodes `roots` are made of, themselves included. -/
noncomputable def below (R : Resolved) (roots : List NodeId) : Finset NodeId :=
  (Finset.range R.patch.nodes.size).filter fun j => ∃ i ∈ roots, ReflTransGen R.Signal i j

variable {R : Resolved}

theorem signals_binary (h : R.patch.nodes.kind i = .binary op lhs rhs) :
    R.signals i = [lhs, rhs] := by
  rw [signals, h]

theorem signal_binary (h : R.patch.nodes.kind i = .binary op lhs rhs) :
    R.Signal i lhs ∧ R.Signal i rhs := by
  simp [Signal, signals_binary h]

theorem signals_call (h : R.patch.nodes.kind i = .call callee args) (hm : R.Calls callee m) :
    R.signals i = if m.takesSignals then args.map Arg.value else [] := by
  have hm : R.meaning? callee = some m := hm
  rw [signals, h]
  simp [hm]

theorem Signal.refers (h : R.Signal i j) : R.patch.nodes.Refers i j := by
  unfold Signal signals at h
  unfold Arena.Refers
  split at h
  · rename_i hkind
    rwa [hkind]
  · rename_i hkind
    rw [hkind]
    split at h
    · exact h
    · simp at h
  · simp at h

theorem mem_below {roots : List NodeId} :
    j ∈ R.below roots ↔ j < R.patch.nodes.size ∧ ∃ i ∈ roots, ReflTransGen R.Signal i j := by
  simp [below]

theorem below_nil : R.below [] = ∅ := by
  ext j
  simp [mem_below]

theorem below_append (xs ys : List NodeId) : R.below (xs ++ ys) = R.below xs ∪ R.below ys := by
  ext j
  simp only [mem_below, Finset.mem_union, List.mem_append]
  constructor
  · rintro ⟨hj, i, hi | hi, hij⟩
    · exact .inl ⟨hj, i, hi, hij⟩
    · exact .inr ⟨hj, i, hi, hij⟩
  · rintro (⟨hj, i, hi, hij⟩ | ⟨hj, i, hi, hij⟩)
    · exact ⟨hj, i, .inl hi, hij⟩
    · exact ⟨hj, i, .inr hi, hij⟩

theorem below_cons (i : NodeId) (xs : List NodeId) : R.below (i :: xs) = R.below [i] ∪ R.below xs :=
  below_append [i] xs

theorem below_trans {roots : List NodeId} (hi : i ∈ R.below roots) :
    R.below [i] ⊆ R.below roots := by
  obtain ⟨-, root, hroot, hpath⟩ := mem_below.mp hi
  intro j hj
  obtain ⟨hlt, k, hk, hkj⟩ := mem_below.mp hj
  obtain rfl := List.mem_singleton.mp hk
  exact mem_below.mpr ⟨hlt, root, hroot, hpath.trans hkj⟩

theorem below_node (hi : i < R.patch.nodes.size) :
    R.below [i] = insert i (R.below (R.signals i)) := by
  ext j
  simp only [mem_below, List.mem_singleton, exists_eq_left, Finset.mem_insert]
  constructor
  · rintro ⟨hj, hij⟩
    rcases ReflTransGen.cases_head hij with rfl | ⟨k, hik, hkj⟩
    · exact .inl rfl
    · exact .inr ⟨hj, k, hik, hkj⟩
  · rintro (rfl | ⟨hj, k, hik, hkj⟩)
    · exact ⟨hi, .refl⟩
    · exact ⟨hj, .head hik hkj⟩

/-! ## Instructions -/

def pattern? (R : Resolved) (args : List (Arg NodeId)) : Option Pattern :=
  args.head?.bind fun text => R.patterns.lookup text.value

def builtinWeight (R : Resolved) (args : List (Arg NodeId)) : BuiltinKind → Nat
  | .op _ => 1
  | .pattern => if (R.pattern? args).any Pattern.isSample then 3 else 1
  | .control _ => 2

/-- The instructions that a node itself becomes: none for a name, whose value is there already, or
for a call of a function, in whose place its body comes. -/
def ownWeight (R : Resolved) (i : NodeId) : Nat :=
  match R.patch.nodes.kind i with
  | .number _ | .bool _ | .binary _ _ _ => 1
  | .call callee args =>
    match R.meaning? callee with
    | some (.builtin b) => R.builtinWeight args b.kind
    | _ => 0
  | _ => 0

def body? (R : Resolved) (i : NodeId) : Option NodeId :=
  match R.patch.nodes.kind i with
  | .call callee _ =>
    match R.meaning? callee with
    | some (.function f) =>
      match R.patch.nodes.kind f.definition with
      | .define _ _ body => some body
      | _ => none
    | _ => none
  | _ => none

/-- The instructions of a node that are not those of the nodes it takes, where `body` gives the
instructions of bodies. -/
def weight (R : Resolved) (body : NodeId → ℕ∞) (i : NodeId) : ℕ∞ :=
  R.ownWeight i + ((R.body? i).map body).getD 0

/-- The instructions of a body, if calls in it nest less than `depth` deep; else there is no
limit. -/
noncomputable def needWithin (R : Resolved) : (depth : Nat) → NodeId → ℕ∞
  | 0, _ => ⊤
  | depth + 1, root => ∑ i ∈ R.below [root], R.weight (R.needWithin depth) i

noncomputable def bodyNeed (R : Resolved) (root : NodeId) : ℕ∞ := ⨅ depth, R.needWithin depth root

def roots (R : Resolved) (ids : List NodeId) : List NodeId :=
  ids.filterMap fun i =>
    match R.patch.nodes.kind i with
    | .define _ _ _ => none
    | .assign _ value => some value
    | _ => some i

theorem roots_define (h : R.patch.nodes.kind i = .define name params body) (ids : List NodeId) :
    R.roots (i :: ids) = R.roots ids := by
  rw [roots, List.filterMap_cons, h]
  rfl

theorem roots_assign (h : R.patch.nodes.kind i = .assign x value) (ids : List NodeId) :
    R.roots (i :: ids) = value :: R.roots ids := by
  rw [roots, List.filterMap_cons, h]
  rfl

theorem roots_expr (h : (R.patch.nodes.kind i).isStatement = false) (ids : List NodeId) :
    R.roots (i :: ids) = i :: R.roots ids := by
  rw [roots, List.filterMap_cons]
  cases hk : R.patch.nodes.kind i <;> first | rfl | simp [hk, NodeKind.isStatement] at h

/-- The instructions of a patch with all expansions in it. -/
noncomputable def need (R : Resolved) : ℕ∞ :=
  ∑ i ∈ R.below (R.roots R.patch.statements), R.weight R.bodyNeed i

theorem weight_value (h : R.body? i = none) (body : NodeId → ℕ∞) :
    R.weight body i = R.ownWeight i := by
  rw [weight, h, Option.map_none, Option.getD_none, add_zero]

theorem weight_builtin (h : R.patch.nodes.kind i = .call callee args)
    (hm : R.Calls callee (.builtin b)) (body : NodeId → ℕ∞) :
    R.weight body i = R.builtinWeight args b.kind := by
  have hm : R.meaning? callee = some (.builtin b) := hm
  have hown : R.ownWeight i = R.builtinWeight args b.kind := by rw [ownWeight, h]; simp [hm]
  have hbody : R.body? i = none := by rw [body?, h]; simp [hm]
  rw [weight_value hbody, hown]

theorem weight_function (h : R.patch.nodes.kind i = .call callee args)
    (hm : R.Calls callee (.function f))
    (hdef : R.patch.nodes.kind f.definition = .define name params root) (body : NodeId → ℕ∞) :
    R.weight body i = body root := by
  have hm : R.meaning? callee = some (.function f) := hm
  have hown : R.ownWeight i = 0 := by rw [ownWeight, h]; simp [hm]
  have hbody : R.body? i = some root := by rw [body?, h]; simp [hm, hdef]
  rw [weight, hown, hbody, Option.map_some, Option.getD_some, Nat.cast_zero, zero_add]

theorem weight_mono {body body' : NodeId → ℕ∞} (h : ∀ root, body root ≤ body' root) (i : NodeId) :
    R.weight body i ≤ R.weight body' i := by
  unfold weight
  cases R.body? i with
  | none => exact le_rfl
  | some root => exact add_le_add le_rfl (h root)

theorem weight_congr {body body' : NodeId → ℕ∞}
    (h : ∀ root, R.body? i = some root → body root = body' root) :
    R.weight body i = R.weight body' i := by
  unfold weight
  cases hroot : R.body? i with
  | none => rfl
  | some root => rw [Option.map_some, Option.map_some, h root hroot]

theorem needWithin_succ_le (depth : Nat) (root : NodeId) :
    R.needWithin (depth + 1) root ≤ R.needWithin depth root := by
  induction depth generalizing root with
  | zero => exact le_top
  | succ depth ih => exact Finset.sum_le_sum fun i _ => weight_mono ih i

open Filter in
theorem eventually_needWithin (R : Resolved) (root : NodeId) :
    ∀ᶠ depth in atTop, R.needWithin depth root = R.bodyNeed root := by
  have hanti : Antitone fun depth => R.needWithin depth root :=
    antitone_nat_of_succ_le fun depth => needWithin_succ_le depth root
  obtain ⟨d, hd⟩ : R.bodyNeed root ∈ Set.range fun depth => R.needWithin depth root := ciInf_mem _
  refine eventually_atTop.mpr ⟨d, fun depth hdepth => le_antisymm ?_ (iInf_le _ depth)⟩
  exact (hanti hdepth).trans hd.le

open Filter in
theorem bodyNeed_eq (R : Resolved) (root : NodeId) :
    R.bodyNeed root = ∑ i ∈ R.below [root], R.weight R.bodyNeed i := by
  have hroot := (tendsto_add_atTop_nat 1).eventually (R.eventually_needWithin root)
  have hnodes : ∀ᶠ depth in atTop, ∀ i ∈ R.below [root],
      R.weight (R.needWithin depth) i = R.weight R.bodyNeed i := by
    refine (eventually_all_finset _).mpr fun i _ => ?_
    cases hbody : R.body? i with
    | none => exact .of_forall fun depth => weight_congr (by simp [hbody])
    | some body =>
      refine (R.eventually_needWithin body).mono fun depth h => weight_congr fun root hroot => ?_
      cases hbody.symm.trans hroot
      exact h
  obtain ⟨depth, hdepth, hweight⟩ := (hroot.and hnodes).exists
  rw [← hdepth, needWithin]
  exact Finset.sum_congr rfl hweight

/-! ## What is left to do -/

/-- The instructions of `roots` if those of the nodes `known` are there already. -/
noncomputable def cost (R : Resolved) (known : Finset NodeId) (roots : List NodeId) : ℕ∞ :=
  ∑ i ∈ R.below roots \ known, R.weight R.bodyNeed i

theorem cost_nil (known : Finset NodeId) : R.cost known [] = 0 := by
  simp [cost, below_nil]

theorem cost_known {known : Finset NodeId} {roots : List NodeId} (h : R.below roots ⊆ known) :
    R.cost known roots = 0 := by
  rw [cost, Finset.sdiff_eq_empty_iff_subset.mpr h, Finset.sum_empty]

theorem cost_append (known : Finset NodeId) (xs ys : List NodeId) :
    R.cost known (xs ++ ys) = R.cost known xs + R.cost (known ∪ R.below xs) ys := by
  have hsplit : R.below (xs ++ ys) \ known =
      R.below xs \ known ∪ R.below ys \ (known ∪ R.below xs) := by
    rw [below_append]
    ext i
    simp only [Finset.mem_sdiff, Finset.mem_union]
    tauto
  have hdisjoint : Disjoint (R.below xs \ known) (R.below ys \ (known ∪ R.below xs)) := by
    refine Finset.disjoint_left.mpr fun i hx hy => ?_
    exact (Finset.mem_sdiff.mp hy).2 (Finset.mem_union_right _ (Finset.mem_sdiff.mp hx).1)
  rw [cost, hsplit, Finset.sum_union hdisjoint]
  rfl

theorem cost_cons (known : Finset NodeId) (i : NodeId) (xs : List NodeId) :
    R.cost known (i :: xs) = R.cost known [i] + R.cost (known ∪ R.below [i]) xs :=
  cost_append known [i] xs

theorem cost_node {known : Finset NodeId} (hi : i < R.patch.nodes.size) (hnew : i ∉ known)
    (hacyclic : ¬ TransGen R.Signal i i) :
    R.cost known [i] = R.cost known (R.signals i) + R.weight R.bodyNeed i := by
  have hself : i ∉ R.below (R.signals i) := by
    intro hmem
    obtain ⟨-, j, hij, hji⟩ := mem_below.mp hmem
    exact hacyclic (.head' hij hji)
  rw [cost, cost, below_node hi, Finset.insert_sdiff_of_notMem _ hnew,
    Finset.sum_insert (fun h => hself (Finset.mem_sdiff.mp h).1), add_comm]

theorem cost_empty (roots : List NodeId) :
    R.cost ∅ roots = ∑ i ∈ R.below roots, R.weight R.bodyNeed i := by
  rw [cost, Finset.sdiff_empty]

def Closed (R : Resolved) (known : Finset NodeId) : Prop := ∀ i ∈ known, R.below [i] ⊆ known

theorem closed_empty (R : Resolved) : R.Closed ∅ := by
  intro i hi
  simp at hi

theorem Closed.union {known : Finset NodeId} (h : R.Closed known) (roots : List NodeId) :
    R.Closed (known ∪ R.below roots) := by
  intro i hi
  rcases Finset.mem_union.mp hi with hi | hi
  · exact (h i hi).trans Finset.subset_union_left
  · exact (below_trans hi).trans Finset.subset_union_right

end Resolved

end SignalPatch
