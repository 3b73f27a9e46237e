import SignalPatch.Proofs.OpenHoles
import SignalPatch.Proofs.StepReports
import SignalPatch.Token.Scan

/-!
# Holes are filled by their own pipes

Resolution refuses a hole outside of all pipes, and a pipe whose right side is no call or has no
hole of its own. `Expr.misplaced` lists what it refuses in a tree. If there is nothing, every pipe
of the program is replaced by its right side, and what its left side stands for takes the place of
the holes that belong to the pipe (`Patch.Stands`, `Relinked`); so no left side is lost.
-/

namespace SignalPatch

open Relation (ReflTransGen)
open Resolving

/-! ## What is refused in a tree -/

def Finding.misplaced? (f : Finding) : Option Finding :=
  match f.issue with
  | .holeOutsidePipe | .badPipeTarget => some f
  | _ => none

mutual

/-- What is wrong with the holes and the pipes of a tree, which may lie on the right side of a
pipe. -/
def Expr.misplaced (inPipe : Bool) : Expr → List Finding
  | .hole span => if inPipe then [] else [⟨.holeOutsidePipe, span⟩]
  | .binary _ lhs rhs _ => lhs.misplaced inPipe ++ rhs.misplaced inPipe
  | .call _ args _ => argsMisplaced inPipe args
  | .pipe source target _ => source.misplaced inPipe ++
      if target.isCall && target.hasHole then target.misplaced true
        else [⟨.badPipeTarget, target.span⟩]
  | _ => []

def argsMisplaced (inPipe : Bool) : List (Arg Expr) → List Finding
  | [] => []
  | ⟨_, value, _⟩ :: args => value.misplaced inPipe ++ argsMisplaced inPipe args

end

def Arena.PipesFilled (nodes : Arena) (a b : Nat) : Prop :=
  ∀ (q : Nat) s t, a ≤ q → q < b → nodes.kind q = .pipe s t →
    isCall (nodes.kind t) ∧ ∃ h, nodes.Open h t

section Trees

variable {nodes : Arena}

theorem Arena.pipesFilled_split (hab : a ≤ b) (hbc : b ≤ c) :
    nodes.PipesFilled a c ↔ nodes.PipesFilled a b ∧ nodes.PipesFilled b c := by
  constructor
  · exact fun h =>
      ⟨fun q s t h₁ h₂ => h q s t h₁ (by omega), fun q s t h₁ h₂ => h q s t (by omega) h₂⟩
  · rintro ⟨hleft, hright⟩ q s t h₁ h₂
    rcases Nat.lt_or_ge q b with hlt | hge
    · exact hleft q s t h₁ hlt
    · exact hright q s t hge h₂

theorem Arena.pipesFilled_single (h : ∀ s t, nodes.kind i ≠ .pipe s t) :
    nodes.PipesFilled i (i + 1) := by
  intro q s t h₁ h₂ hk
  obtain rfl : q = i := by omega
  exact absurd hk (h s t)

theorem Arena.pipesFilled_pipe (h : nodes.kind i = .pipe s t) :
    nodes.PipesFilled i (i + 1) ↔ isCall (nodes.kind t) ∧ ∃ h, nodes.Open h t := by
  refine ⟨fun hfilled => hfilled i s t (Nat.le_refl _) (Nat.lt_succ_self _) h,
    fun hfilled q s' t' h₁ h₂ hk => ?_⟩
  obtain rfl : q = i := by omega
  cases h.symm.trans hk
  exact hfilled

theorem Stored.isCall_iff (h : Stored nodes a e i) : isCall (nodes.kind i) = e.isCall :=
  isCall_eq h rfl

mutual

theorem Stored.misplaced_iff : Stored nodes a e i → ∀ inPipe, e.misplaced inPipe = [] ↔
    (inPipe ∨ ∀ h, ¬ nodes.Open h i) ∧ nodes.PipesFilled a (i + 1)
  | .number h, inPipe | .bool h, inPipe | .text h, inPipe | .ident h, inPipe => by
    have hopen : ∀ x, ¬ nodes.Open x a := by
      simp [Arena.open_iff (i := a), Arena.kind_eq h, NodeKind.children]
    have hfilled : nodes.PipesFilled a (a + 1) :=
      Arena.pipesFilled_single (by simp [Arena.kind_eq h])
    simp [Expr.misplaced, hopen, hfilled]
  | .hole h, inPipe => by
    have hopen : ∀ x, nodes.Open x a ↔ x = a := fun x => by
      simp [Arena.open_iff (i := a), Arena.kind_eq h]
    have hfilled : nodes.PipesFilled a (a + 1) :=
      Arena.pipesFilled_single (by simp [Arena.kind_eq h])
    cases inPipe <;> simp [Expr.misplaced, hopen, hfilled]
  | .binary (i := l) (j := m) hl hr h, inPipe => by
    have hopen : ∀ x, nodes.Open x (m + 1) ↔ nodes.Open x l ∨ nodes.Open x m := fun x => by
      simp [Arena.open_iff (i := m + 1), Arena.kind_eq h, NodeKind.children]
    have hroot : nodes.PipesFilled (m + 1) (m + 2) :=
      Arena.pipesFilled_single (by simp [Arena.kind_eq h])
    have hal := hl.le
    have hlm := hr.le
    rw [Expr.misplaced, List.append_eq_nil_iff, hl.misplaced_iff, hr.misplaced_iff,
      Arena.pipesFilled_split (a := a) (b := l + 1) (c := m + 1 + 1) (by omega) (by omega),
      Arena.pipesFilled_split (a := l + 1) (b := m + 1) (c := m + 1 + 1) (by omega) (by omega)]
    simp only [hopen, hroot, not_or, forall_and, or_and_left, and_true]
    exact and_and_and_comm
  | .pipe (i := l) (j := m) hl hr h, inPipe => by
    -- the source fills the holes on the right side: only its own stay open
    have hopen : ∀ x, nodes.Open x (m + 1) ↔ nodes.Open x l := fun x => by
      simp [Arena.open_iff (i := m + 1), Arena.kind_eq h]
    have hal := hl.le
    have hlm := hr.le
    rw [Expr.misplaced, List.append_eq_nil_iff, hl.misplaced_iff,
      Arena.pipesFilled_split (a := a) (b := l + 1) (c := m + 1 + 1) (by omega) (by omega),
      Arena.pipesFilled_split (a := l + 1) (b := m + 1) (c := m + 1 + 1) (by omega) (by omega),
      Arena.pipesFilled_pipe (Arena.kind_eq h), ← hr.hasHole_iff, hr.isCall_iff]
    simp only [hopen]
    split
    · rename_i hcall
      rw [Bool.and_eq_true] at hcall
      rw [hr.misplaced_iff]
      simp only [hcall, and_self, and_true, true_or, true_and, and_assoc]
    · rename_i hcall
      rw [Bool.and_eq_true] at hcall
      simp [hcall]
  | @Stored.call _ _ _ ids b _ _ hargs h, inPipe => by
    have hopen : ∀ x, nodes.Open x b ↔ ∃ y ∈ ids, nodes.Open x y.value := fun x => by
      simp only [Arena.open_iff (i := b), Arena.kind_eq h, NodeKind.children, List.mem_map,
        exists_exists_and_eq_and]
    have hroot : nodes.PipesFilled b (b + 1) := Arena.pipesFilled_single (by simp [Arena.kind_eq h])
    rw [Expr.misplaced, hargs.misplaced_iff, Arena.pipesFilled_split hargs.le (Nat.le_succ b)]
    simp only [hopen, hroot, and_true]

theorem StoredArgs.misplaced_iff :
    StoredArgs nodes a args ids b → ∀ inPipe, argsMisplaced inPipe args = [] ↔
    (inPipe ∨ ∀ h, ¬ ∃ x ∈ ids, nodes.Open h x.value) ∧ nodes.PipesFilled a b
  | .nil, inPipe => by
    have hfilled : nodes.PipesFilled a a := fun q s t h₁ h₂ => by omega
    simp [argsMisplaced, hfilled]
  | .cons (i := i) (b := b) hv hargs, inPipe => by
    have hai := hv.le
    have hib := hargs.le
    rw [argsMisplaced, List.append_eq_nil_iff, hv.misplaced_iff, hargs.misplaced_iff,
      Arena.pipesFilled_split (a := a) (b := i + 1) (c := b) (by omega) hib]
    simp only [List.exists_mem_cons_iff, not_or, forall_and, or_and_left]
    exact and_and_and_comm

end

end Trees

/-! ## What resolution makes of a tree -/

/-- The call at `i` has these arguments: as they are or, once it is bound, one for each
parameter. -/
inductive CallLinked (n : Nat) (R : Arena) (s : Span) (callee : String) (args : List (Arg NodeId))
    (i : NodeId) :
    Prop
  | unbound : R[i]? = some ⟨.call callee args, s⟩ → CallLinked n R s callee args i
  | bound : Binding.Supplies (fun v x => n ≤ v ∧ R[v]? = some ⟨.number x, s⟩) params args
        (args'.map Arg.value) → (∀ a ∈ args', a.name = none) →
      R[i]? = some ⟨.call callee args', s⟩ → CallLinked n R s callee args i

/-- `Replaced P R hole i j`: the node `j` of the arena `R` takes the place of the node `i` of the
arena `P` that was read, and `hole` that of the open holes. Unlike `Rewritten` it does not ask for
names and calls to be right. -/
inductive Replaced (P R : Arena) : Option NodeId → NodeId → NodeId → Prop
  | leaf : P[i]? = some node → node.kind.children = [] → node.kind ≠ .hole → R[i]? = some node →
      Replaced P R hole i i
  | hole : P[i]? = some ⟨.hole, s⟩ → Replaced P R (some j) i j
  | binary : P[i]? = some ⟨.binary op lhs rhs, s⟩ → Replaced P R hole lhs lhs' →
      Replaced P R hole rhs rhs' → R[i]? = some ⟨.binary op lhs' rhs', s⟩ → Replaced P R hole i i
  | pipe : P[i]? = some ⟨.pipe source target, s⟩ → P.Open x target →
      Replaced P R hole source source' →
      Replaced P R (some source') target target' → Replaced P R hole i target'
  | call : P[i]? = some ⟨.call callee args, s⟩ → args'.map Arg.name = args.map Arg.name →
      args'.map Arg.span = args.map Arg.span →
      (∀ q ∈ args.zip args', Replaced P R hole q.1.value q.2.value) →
      CallLinked P.size R s callee args' i → Replaced P R hole i i

namespace Resolving

theorem bindCall_linked {r : Resolution} {R : Resolved}
    (hnode : r.nodes[i]? = some ⟨.call callee args, s⟩) (hn : n ≤ r.nodes.size) (params : Signature)
    (hk : Kept n i (i + 1) ((bindCall i callee params args s).run r).2 R) :
    CallLinked n R.patch.nodes s callee args i := by
  have hi : i < r.nodes.size := (Array.getElem?_eq_some_iff.mp hnode).1
  have hext := Binding.bind_extends callee params args s r.nodes
  have hroot := hk.nodes i (Nat.le_refl _) (Nat.lt_succ_self _)
  have hfresh := hk.fresh
  rw [run_bindCall] at hroot hfresh
  dsimp only [boundNodes] at hroot hfresh
  cases hv : (Binding.bind callee params args s r.nodes).values with
  | none =>
    rw [hv] at hroot
    exact .unbound (hroot.trans ((hext.2 i hi).trans hnode))
  | some values =>
    have hnode' : (Binding.bind callee params args s r.nodes).nodes[i]? =
        some ⟨.call callee args, s⟩ :=
      (hext.2 i hi).trans hnode
    rw [hv] at hroot hfresh
    dsimp only [Option.map_some, Option.getD_some] at hroot hfresh
    rw [Arena.getElem?_setKind_self hnode'] at hroot
    let args' : List (Arg NodeId) :=
      values.map fun v => ⟨none, v, (Binding.bind callee params args s r.nodes).nodes.span v⟩
    -- The numbers that were added stay as they are, because they lie beyond the old nodes.
    have hsupplies :
        Binding.Supplies (fun v x => n ≤ v ∧ R.patch.nodes[v]? = some ⟨.number x, s⟩) params args
          (args'.map Arg.value) := by
      simp only [args', List.map_map, Function.comp_def, List.map_id']
      refine (Binding.bind_supplies hv).1.mono fun v x _ hvx => ⟨Nat.le_trans hn hvx.1, ?_⟩
      have hlt := (Array.getElem?_eq_some_iff.mp hvx.2).1
      rw [hfresh v (Nat.le_trans hn hvx.1) (by simpa using hlt),
        Arena.getElem?_setKind_ne _ _ (by omega), hvx.2]
    exact .bound hsupplies (by simp [args']) hroot

theorem resolveCall_linked {r : Resolution} {R : Resolved}
    (hnode : r.nodes[i]? = some ⟨.call callee args₀, s⟩) (hT : SignaturesOk r.symbols) (hi : i < n)
    (hn : n ≤ r.nodes.size) (hk : Kept n i (i + 1) ((resolveCall i callee args).run r).2 R) :
    CallLinked n R.patch.nodes s callee args i := by
  have hnode₁ : (r.nodes.setKind i (.call callee args))[i]? = some ⟨.call callee args, s⟩ :=
    Arena.getElem?_setKind_self hnode _
  have hcalled := resolveCall_called hnode args
  generalize ((resolveCall i callee args).run r).2 = r' at hcalled hk
  cases hcalled with
  | refused _ _ => exact .unbound ((hk.nodes i (Nat.le_refl _) (Nat.lt_succ_self _)).trans hnode₁)
  | @bound m params values r₂ hm hsig hrun =>
    let r₁ : Resolution := { r with nodes := r.nodes.setKind i (.call callee args) }
    have hn₁ : n ≤ r₁.nodes.size := by simpa [r₁] using hn
    have hb := (bindCall_ok (r := r₁) hnode₁ (hT.copies callee _ _ hm hsig) args).1
    refine bindCall_linked (r := r₁) hnode₁ hn₁ params ?_
    rw [hrun] at hb ⊢
    exact hk.before (checkBound_ok i i callee m s values r₂) (Nat.le_of_lt hi)
      (Nat.le_refl _) (Nat.le_refl _)
      (.inr (Nat.le_refl _)) (Nat.le_trans hi (Nat.le_trans hn₁ hb.size))

/-- What resolving a tree comes to, as far as holes and pipes go: it refuses what is misplaced, and
if there is nothing of that kind, the tree is replaced. -/
structure Filled (P : Arena) (a : Nat) (e : Expr) (i : Nat) (hole : Option NodeId) (r : Resolution)
    (out : NodeId × Resolution) : Prop where
  findings : out.2.findings.filterMap Finding.misplaced? =
    r.findings.filterMap Finding.misplaced? ++ e.misplaced hole.isSome
  replaced : e.misplaced hole.isSome = [] → ∀ R : Resolved, Kept P.size a (i + 1) out.2 R →
    Replaced P R.patch.nodes hole i out.1

theorem misplaced?_of_isOfUse {f : Finding} (h : f.issue.isOfUse) : f.misplaced? = none := by
  obtain ⟨issue, span⟩ := f
  cases issue <;> first | rfl | cases h

theorem checkValue_misplaced (x : String) (s : Span) (r : Resolution) :
    ((checkValue x s).run r).2.findings.filterMap Finding.misplaced? =
      r.findings.filterMap Finding.misplaced? :=
  Reports.filterMap ((checkValue_reports x s).mono fun _ hf => misplaced?_of_isOfUse hf.1) r

theorem resolveCall_misplaced (i : NodeId) (callee : String) (args : List (Arg NodeId))
    (r : Resolution) :
    ((resolveCall i callee args).run r).2.findings.filterMap Finding.misplaced? =
      r.findings.filterMap Finding.misplaced? :=
  Reports.filterMap ((resolveCall_reports i callee args).mono fun _ hf => misplaced?_of_isOfUse hf)
    r

mutual

theorem Walk.fills :
    Walk P a e i hole r j r' → P.size ≤ r.nodes.size → Filled P a e i hole r (j, r')
  | .number h hr, _ | .bool h hr, _ | .text h hr, _ => by
    refine ⟨(List.append_nil _).symm, fun _ R hk => .leaf h rfl (by simp) ?_⟩
    exact (hk.nodes _ (Nat.le_refl _) (Nat.lt_succ_self _)).trans hr
  | .ident h hr, _ => by
    have hi := (Array.getElem?_eq_some_iff.mp hr).1
    refine ⟨(checkValue_misplaced _ _ r).trans (List.append_nil _).symm, fun _ R hk =>
      .leaf h rfl (by simp) ?_⟩
    rw [hk.nodes _ (Nat.le_refl _) (Nat.lt_succ_self _),
      (checkValue_ok 0 0 _ _ r).1.nodes _ hi (.inr (Nat.zero_le _)), hr]
  | .filled h, _ => ⟨(List.append_nil _).symm, fun _ R _ => .hole h⟩
  | .unfilled h, _ => ⟨List.filterMap_append, fun he => by simp [Expr.misplaced] at he⟩
  | .binary hl hr h hnode, hn => by
    obtain ⟨hf₁, hr₁⟩ := hl.fills hn
    obtain ⟨hf₂, hr₂⟩ := hr.fills (Nat.le_trans hn hl.within.size)
    dsimp only at hf₁ hf₂ hr₁ hr₂
    refine ⟨by rw [hf₂, hf₁, List.append_assoc, Expr.misplaced], fun he R hk => ?_⟩
    rw [Expr.misplaced, List.append_eq_nil_iff] at he
    obtain ⟨hroot, -, hk₁, hk₂⟩ := hl.keptOperands hr hn h hnode hk
    exact .binary h (hr₁ he.1 R hk₁) (hr₂ he.2 R hk₂) hroot
  | .pipe hs ht htarget h, hn => by
    have hcall := Bool.and_eq_true_iff.mpr htarget
    obtain ⟨hf₁, hr₁⟩ := hs.fills hn
    obtain ⟨hf₂, hr₂⟩ := ht.fills (Nat.le_trans hn hs.within.size)
    dsimp only at hf₁ hf₂ hr₁ hr₂
    refine ⟨by rw [hf₂, hf₁, List.append_assoc, Expr.misplaced,
      if_pos hcall]; rfl, fun he R hk => ?_⟩
    rw [Expr.misplaced, if_pos hcall, List.append_eq_nil_iff] at he
    obtain ⟨-, hk₁, hk₂⟩ := hs.keptParts ht hn (hk.narrow (Nat.le_refl _) (Nat.le_succ _))
    obtain ⟨x, hx⟩ := ht.stored.hasHole_iff.mp htarget.2
    exact .pipe h hx (hr₁ he.1 R hk₁) (hr₂ he.2 R hk₂)
  | .refused hs ht htarget h, hn => by
    have hcall := htarget ∘ Bool.and_eq_true_iff.mp
    obtain ⟨hf₁, -⟩ := hs.fills hn
    dsimp only at hf₁
    -- a refused pipe is itself misplaced, so nothing is claimed of what replaces it
    refine ⟨List.filterMap_append.trans ?_, fun he => ?_⟩
    · rw [hf₁, Expr.misplaced, if_neg hcall, List.append_assoc]
      rfl
    · rw [Expr.misplaced, if_neg hcall, List.append_eq_nil_iff] at he
      cases he.2
  | .call hargs h hnode hn' hT, hn => by
    have hi := (Array.getElem?_eq_some_iff.mp h).1
    have hai := hargs.stored.le
    obtain ⟨hnames, hspans⟩ := hargs.labels
    obtain ⟨hf₁, hr₁⟩ := hargs.fills (Nat.le_of_lt hi) hn
    refine ⟨by rw [resolveCall_misplaced, hf₁, Expr.misplaced], fun he R hk => ?_⟩
    have hk₁ := hk.before (resolveCall_ok hnode hT hi hn' _).1 (Nat.succ_le_of_lt hi)
      (Nat.le_refl _) (Nat.le_succ _) (.inl (Nat.le_refl _)) (by omega)
    exact .call h hnames hspans (hr₁ he R hk₁)
      (resolveCall_linked hnode hT hi hn' (hk.narrow hai (Nat.le_refl _)))

theorem WalkArgs.fills :
    WalkArgs P a args ids b hole r ids' r' → b ≤ P.size → P.size ≤ r.nodes.size →
    r'.findings.filterMap Finding.misplaced? =
        r.findings.filterMap Finding.misplaced? ++ argsMisplaced hole.isSome args ∧
      (argsMisplaced hole.isSome args = [] → ∀ R : Resolved, Kept P.size a b r' R →
        ∀ q ∈ ids.zip ids', Replaced P R.patch.nodes hole q.1.value q.2.value)
  | .nil, _, _ => ⟨(List.append_nil _).symm, by simp⟩
  | .cons hv hargs, hb, hn => by
    have hai := hv.stored.le
    have hib := hargs.stored.le
    have hn₁ := Nat.le_trans hn hv.within.size
    obtain ⟨hf₁, hr₁⟩ := hv.fills hn
    obtain ⟨hf₂, hr₂⟩ := hargs.fills hb hn₁
    dsimp only at hf₁ hr₁
    refine ⟨by rw [hf₂, hf₁, argsMisplaced, List.append_assoc], fun he R hk => ?_⟩
    rw [argsMisplaced, List.append_eq_nil_iff] at he
    have hk₁ := hk.before hargs.within hb (Nat.le_refl _) hib (.inl (Nat.le_refl _)) (by omega)
    rw [List.zip_cons_cons, List.forall_mem_cons]
    exact ⟨hr₁ he.1 R hk₁, hr₂ he.2 R (hk.narrow (by omega) (Nat.le_refl _))⟩

end

end Resolving

/-! ## What takes the place of a node -/

theorem CallLinked.refers (h : CallLinked n R s callee args i) (hx : x ∈ args) :
    R.Refers i x.value := by
  cases h with
  | unbound hnode => exact Arena.refers_of_kind (Arena.kind_eq hnode) (List.mem_map_of_mem hx)
  | bound hsupplies _ hnode =>
    exact Arena.refers_of_kind (Arena.kind_eq hnode) (hsupplies.used x hx)

theorem mem_zip_of_names {args args' : List (Arg NodeId)}
    (h : args'.map Arg.name = args.map Arg.name) (hx : x ∈ args) :
    ∃ q ∈ args.zip args', q.1 = x := by
  have hlength : args'.length = args.length := by simpa using congrArg List.length h
  have hzip : (args.zip args').map Prod.fst = args := List.map_fst_zip (Nat.le_of_eq hlength.symm)
  rw [← hzip] at hx
  exact List.mem_map.mp hx

theorem Replaced.contains {hole : Option NodeId} (h : Replaced P R hole i j) :
    ∀ {y x}, hole = some y → P.Open x i → R.Contains j y := by
  induction h with
  | leaf hnode hleaf hhole hR =>
    intro y x _ ho
    have hkind := Arena.kind_eq hnode
    cases ho with
    | here hk => exact absurd (hkind.symm.trans hk) hhole
    | child _ hc _ =>
      rw [Arena.Refers, hkind, hleaf] at hc
      cases hc
    | source hk _ =>
      rw [← hkind, hk] at hleaf
      cases hleaf
  | hole hnode =>
    rintro y x ⟨⟩ _
    exact .refl
  | @binary i _ _ _ _ _ _ _ hnode _ _ hR ihl ihr =>
    intro y x hy ho
    have hkind := Arena.kind_eq hR
    simp only [Arena.open_iff (i := i), Arena.kind_eq hnode, NodeKind.children,
      List.mem_pair, exists_eq_or_imp, exists_eq_left] at ho
    rcases ho with ho | ho
    · exact .head (Arena.refers_of_kind hkind (.head _)) (ihl hy ho)
    · exact .head (Arena.refers_of_kind hkind (.tail _ (.head _))) (ihr hy ho)
  | @pipe i _ _ _ _ _ _ _ hnode hopen _ _ ihs iht =>
    intro y x hy ho
    simp only [Arena.open_iff (i := i), Arena.kind_eq hnode] at ho
    -- the source is below what the target becomes, since the target has an open hole
    exact (iht rfl hopen).trans (ihs hy ho)
  | @call i _ _ _ _ _ hnode hnames _ _ hlinked ih =>
    intro y x hy ho
    simp only [Arena.open_iff (i := i), Arena.kind_eq hnode, NodeKind.children, List.mem_map,
      exists_exists_and_eq_and] at ho
    obtain ⟨z, hz, ho⟩ := ho
    obtain ⟨q, hq, rfl⟩ := mem_zip_of_names hnames hz
    exact .head (hlinked.refers (List.of_mem_zip hq).2) (ih q hq hy ho)

/-- `p.Stands i j`: the node `j` takes the place of the node `i`. A pipe gives way to its right
side, and a hole to the left side of its own pipe. -/
inductive Patch.Stands (p : Patch) : NodeId → NodeId → Prop
  | self : p.nodes.kind i ≠ .hole → (∀ s t, p.nodes.kind i ≠ .pipe s t) → Stands p i i
  | pipe : p.nodes.kind i = .pipe s t → Stands p t j → Stands p i j
  | hole : p.Belongs i q → p.nodes.kind q = .pipe s t → Stands p s j → Stands p i j

/-- What becomes of the node `i` of a patch in the arena `R`: it refers to what takes the place of
the nodes it referred to. Of a pipe it is said that what takes the place of its left side is below
what takes the place of its right side. -/
inductive Relinked (p : Patch) (R : Arena) (i : NodeId) : Prop
  | leaf : (p.nodes.kind i).children = [] → p.nodes.kind i ≠ .hole →
      R[i]? = p.nodes[i]? → Relinked p R i
  | hole : p.nodes.kind i = .hole → p.Stands i j → Relinked p R i
  | pipe : p.nodes.kind i = .pipe source target → p.Stands source source' →
      p.Stands target target' → R.Contains target' source' → Relinked p R i
  | binary : p.nodes[i]? = some ⟨.binary op lhs rhs, s⟩ → p.Stands lhs lhs' → p.Stands rhs rhs' →
      R[i]? = some ⟨.binary op lhs' rhs', s⟩ → Relinked p R i
  | call : p.nodes[i]? = some ⟨.call callee args, s⟩ → args'.map Arg.name = args.map Arg.name →
      args'.map Arg.span = args.map Arg.span →
      (∀ q ∈ args.zip args', p.Stands q.1.value q.2.value) →
      CallLinked p.nodes.size R s callee args' i → Relinked p R i
  | assign : p.nodes[i]? = some ⟨.assign x value, s⟩ → p.Stands value value' →
      R[i]? = some ⟨.assign x value', s⟩ → Relinked p R i
  | define : p.nodes[i]? = some ⟨.define name params body, s⟩ → p.Stands body body' →
      R[i]? = some ⟨.define name params body', s⟩ → Relinked p R i

theorem Replaced.relinked {p : Patch} {hole : Option NodeId}
    (hp : StoredList p.nodes 0 ss p.statements) (h : Replaced p.nodes R hole i j) :
    ∀ {a e}, Stored p.nodes a e i → p.Reaches i →
    (∀ x, p.nodes.Open x i → ∃ y, hole = some y ∧ p.Stands x y) →
    p.Stands i j ∧ ∀ k, a ≤ k → k ≤ i → Relinked p R k := by
  induction h with
  | @leaf i _ hole hnode hleaf hhole hR =>
    intro a e hs _ _
    have hkind := Arena.kind_eq hnode
    refine ⟨.self (by rw [hkind]; exact hhole) fun s t hk => ?_, fun k h₁ h₂ => ?_⟩
    · rw [← hkind, hk] at hleaf
      cases hleaf
    · rcases (hs.contains_iff.mpr ⟨h₁, h₂⟩).cases_head with rfl | ⟨c, hc, -⟩
      · exact .leaf (by rw [hkind, hleaf]) (by rw [hkind]; exact hhole) (hR.trans hnode.symm)
      · rw [Arena.Refers, hkind, hleaf] at hc
        cases hc
  | @hole i j _ hnode =>
    intro a e hs _ hopen
    obtain ⟨y, hy, hstands⟩ := hopen i (.here (Arena.kind_eq hnode))
    cases hy
    obtain ⟨-, rfl⟩ := hs.of_hole hnode
    refine ⟨hstands, fun k h₁ h₂ => ?_⟩
    obtain rfl : k = a := Nat.le_antisymm h₂ h₁
    exact .hole (Arena.kind_eq hnode) hstands
  | @binary i hole l l' m m' _ _ hnode _ _ hR ihl ihr =>
    intro a e hs hreach hopen
    obtain ⟨lhs, rhs, -, rfl, hl, hr⟩ := hs.of_binary hnode
    have hkind := Arena.kind_eq hnode
    have hal := hl.le
    have hchild : ∀ c ∈ [l, m], ∀ x, p.nodes.Open x c → ∃ y, hole = some y ∧
        p.Stands x y := fun c hc x ho =>
      hopen x (.child (by simp [hkind]) (Arena.refers_of_kind hkind hc) ho)
    obtain ⟨hstands₁, hlinked₁⟩ :=
      ihl hl (hreach.contains (.single (Arena.refers_of_kind hkind (.head _)))) (hchild l (.head _))
    obtain ⟨hstands₂, hlinked₂⟩ := ihr hr
      (hreach.contains (.single (Arena.refers_of_kind hkind (.tail _ (.head _)))))
        (hchild m (.tail _ (.head _)))
    refine ⟨.self (by simp [hkind]) (by simp [hkind]), fun k h₁ h₂ => ?_⟩
    rcases Nat.lt_or_ge l k with hlk | hkl
    · rcases Nat.lt_or_ge m k with hmk | hkm
      · obtain rfl : k = m + 1 := Nat.le_antisymm h₂ hmk
        exact .binary hnode hstands₁ hstands₂ hR
      · exact hlinked₂ k hlk hkm
    · exact hlinked₁ k h₁ hkl
  | @pipe i x m hole l l' m' _ hnode hx _ htarget ihs iht =>
    intro a e hs hreach hopen
    obtain ⟨source, target, -, rfl, hl, hr⟩ := hs.of_pipe hnode
    have hkind := Arena.kind_eq hnode
    have hal := hl.le
    obtain ⟨hstands₁, hlinked₁⟩ :=
      ihs hl (hreach.contains (.single (Arena.refers_of_kind hkind (.head _))))
      fun x ho => hopen x (.source hkind ho)
    -- the holes that are open on the right side are those that belong to this pipe
    obtain ⟨hstands₂, hlinked₂⟩ := iht hr
      (hreach.contains (.single (Arena.refers_of_kind hkind (.tail _ (.head _)))))
      fun x ho => ⟨l', rfl, .hole ((Patch.belongs_iff_open hp hreach hkind).mpr ho) hkind hstands₁⟩
    refine ⟨.pipe hkind hstands₂, fun k h₁ h₂ => ?_⟩
    rcases Nat.lt_or_ge l k with hlk | hkl
    · rcases Nat.lt_or_ge m k with hmk | hkm
      · obtain rfl : k = m + 1 := Nat.le_antisymm h₂ hmk
        exact .pipe hkind hstands₁ hstands₂ (htarget.contains rfl hx)
      · exact hlinked₂ k hlk hkm
    · exact hlinked₁ k h₁ hkl
  | @call i hole _ _ args' args hnode hnames hspans _ hlinked ih =>
    intro a e hs hreach hopen
    obtain ⟨es, -, hargs⟩ := hs.of_call hnode
    have hkind := Arena.kind_eq hnode
    have hvalue : ∀ q ∈ args.zip args', ∀ {start e}, Stored p.nodes start e q.1.value →
        p.Stands q.1.value q.2.value ∧ ∀ k, start ≤ k → k ≤ q.1.value → Relinked p R k := by
      intro q hq start e hstored
      have hrefers : p.nodes.Refers i q.1.value :=
        Arena.refers_of_kind hkind (List.mem_map_of_mem (List.of_mem_zip hq).1)
      exact ih q hq hstored (hreach.contains (.single hrefers))
        fun x ho => hopen x (.child (by simp [hkind]) hrefers ho)
    refine ⟨.self (by simp [hkind]) (by simp [hkind]), fun k h₁ h₂ => ?_⟩
    rcases Nat.lt_or_eq_of_le h₂ with hlt | rfl
    · obtain ⟨x, hx, start, e', hstored, hle, hge⟩ := hargs.cover h₁ hlt
      obtain ⟨q, hq, rfl⟩ := mem_zip_of_names hnames hx
      exact (hvalue q hq hstored).2 k hle hge
    · refine .call hnode hnames hspans (fun q hq => ?_) hlinked
      obtain ⟨start, e', -, hstored, -⟩ := hargs.value (List.of_mem_zip hq).1
      exact (hvalue q hq hstored).1

theorem Patch.Stands.unique {p : Patch} (hp : StoredList p.nodes 0 ss p.statements)
    (h : p.Stands i j) :
    ∀ {j'}, p.Stands i j' → j = j' := by
  induction h with
  | self hhole hpipe =>
    intro j' h'
    cases h' with
    | self => rfl
    | pipe hk => exact absurd hk (hpipe _ _)
    | hole hbelongs => exact absurd hbelongs.hole hhole
  | pipe hk _ ih =>
    intro j' h'
    cases h' with
    | self _ hpipe => exact absurd hk (hpipe _ _)
    | pipe hk' h' =>
      cases hk.symm.trans hk'
      exact ih h'
    | hole hbelongs => cases hk.symm.trans hbelongs.hole
  | hole hbelongs hk _ ih =>
    -- A hole belongs to one pipe only, so both derivations go to the left side of the same pipe.
    intro j' h'
    cases h' with
    | self hhole => exact absurd hbelongs.hole hhole
    | pipe hk' => cases hbelongs.hole.symm.trans hk'
    | hole hbelongs' hk' h' =>
      cases hbelongs.unique hp hbelongs'
      cases hk.symm.trans hk'
      exact ih h'

/-! ## Programs -/

def Statement.bodyMisplaced : Statement → List Finding
  | .define _ _ body _ => body.misplaced false
  | _ => []

def Statement.misplaced : Statement → List Finding
  | .assign _ value _ | .expr value => value.misplaced false
  | .define _ _ _ _ => []

/-- Every hole belongs to a pipe, and the right side of every pipe is a call to which a hole of the
pipe belongs. -/
structure Patch.HolesScoped (p : Patch) : Prop where
  holes : ∀ h, p.Reaches h → p.nodes.kind h = .hole → ∃ q, p.Belongs h q
  pipes : ∀ q s t, p.Reaches q → p.nodes.kind q = .pipe s t →
    isCall (p.nodes.kind t) ∧ ∃ h, p.Belongs h q

/-- No hole of the tree is open, and every pipe in it leads into a call that has an open hole. -/
def Arena.Scoped (nodes : Arena) (i : NodeId) : Prop :=
  (∀ h, ¬ nodes.Open h i) ∧ ∀ q s t, nodes.Contains i q → nodes.kind q = .pipe s t →
    isCall (nodes.kind t) ∧ ∃ h, nodes.Open h t

theorem StoredStatement.misplaced_iff {nodes : Arena} (h : StoredStatement nodes b s i) :
    s.bodyMisplaced = [] ∧ s.misplaced = [] ↔ nodes.Scoped i := by
  have hscoped : nodes.Scoped i ↔ (∀ x, ¬ nodes.Open x i) ∧ nodes.PipesFilled b (i + 1) := by
    refine and_congr_right fun _ => ⟨fun hs q s t h₁ h₂ => ?_, fun hs q s t hq => ?_⟩
    · exact hs q s t (h.contains_iff.mpr ⟨h₁, Nat.le_of_lt_succ h₂⟩)
    · obtain ⟨h₁, h₂⟩ := h.contains_iff.mp hq
      exact hs q s t h₁ (Nat.lt_succ_of_le h₂)
  rw [hscoped]
  cases h with
  | @define e body name params span ht hnode | @assign e body name span ht hnode =>
    have hopen : ∀ x, nodes.Open x (body + 1) ↔ nodes.Open x body := fun x => by
      simp [Arena.open_iff (i := body + 1), Arena.kind_eq hnode, NodeKind.children]
    have hroot : nodes.PipesFilled (body + 1) (body + 1 + 1) :=
      Arena.pipesFilled_single (by simp [Arena.kind_eq hnode])
    have hle := ht.le
    rw [Arena.pipesFilled_split (b := body + 1) (by omega) (by omega)]
    simp [Statement.bodyMisplaced, Statement.misplaced, ht.misplaced_iff, hopen, hroot]
  | expr ht => simp [Statement.bodyMisplaced, Statement.misplaced, ht.misplaced_iff]

theorem StoredList.misplaced_iff {nodes : Arena} (h : StoredList nodes a ss ids) :
    ss.flatMap Statement.bodyMisplaced ++ ss.flatMap Statement.misplaced = [] ↔
      ∀ i ∈ ids, nodes.Scoped i := by
  induction h with
  | nil => simp
  | cons hab hs _ ih =>
    rw [List.forall_mem_cons, ← ih, ← hs.misplaced_iff, List.flatMap_cons, List.flatMap_cons]
    simp only [List.append_eq_nil_iff]
    exact and_and_and_comm

theorem Patch.holesScoped_iff {p : Patch} (hp : StoredList p.nodes 0 ss p.statements) :
    p.HolesScoped ↔ ∀ i ∈ p.statements, p.nodes.Scoped i := by
  constructor
  · intro hscoped i hi
    refine ⟨fun h ho => ?_, fun q s t hq hkind => ?_⟩
    · obtain ⟨q, hbelongs⟩ := hscoped.holes h ⟨i, hi, ho.contains⟩ ho.kind
      exact not_belongs_of_open hp hi ho hbelongs
    · have hreach : p.Reaches q := ⟨i, hi, hq⟩
      obtain ⟨hcall, h, hbelongs⟩ := hscoped.pipes q s t hreach hkind
      exact ⟨hcall, h, (belongs_iff_open hp hreach hkind).mp hbelongs⟩
  · intro hall
    refine ⟨?_, ?_⟩
    · rintro h ⟨i, hi, hh⟩ hhole
      exact (belongs_or_open hp hi hh hhole).resolve_left ((hall i hi).1 h)
    · rintro q s t ⟨i, hi, hq⟩ hkind
      obtain ⟨hcall, h, ho⟩ := (hall i hi).2 q s t hq hkind
      exact ⟨hcall, h, (belongs_iff_open hp ⟨i, hi, hq⟩ hkind).mpr ho⟩

theorem misplaced?_eq_none_iff (f : Finding) :
    f.misplaced? = none ↔ f.issue.code ≠ "E104" ∧ f.issue.code ≠ "E105" := by
  obtain ⟨issue, span⟩ := f
  cases issue <;> simp [Finding.misplaced?, Issue.code]

namespace Resolving

theorem misplaced?_of_misdefinition {f : Finding} (h : f.Misdefinition) : f.misplaced? = none := by
  obtain ⟨issue, span⟩ := f
  cases issue <;> first | rfl | cases h.1

theorem BodyWalks.misplaced (h : BodyWalks P G a ss ids r r') (hn : P.size ≤ r.nodes.size) :
    r'.findings.filterMap Finding.misplaced? =
      r.findings.filterMap Finding.misplaced? ++ ss.flatMap Statement.bodyMisplaced := by
  induction h with
  | nil => exact (List.append_nil _).symm
  | cons _ hfirst _ ih =>
    rw [ih (Nat.le_trans hn hfirst.within.size), List.flatMap_cons, ← List.append_assoc]
    congr 1
    cases hfirst with
    | define _ hbody _ _ => exact (hbody.fills hn).findings
    | assign _ _ | expr _ => exact (List.append_nil _).symm

theorem StatementWalks.misplaced (h : StatementWalks P G a ss ids ids' vars r vars' r')
    (hn : P.size ≤ r.nodes.size) :
    r'.findings.filterMap Finding.misplaced? =
      r.findings.filterMap Finding.misplaced? ++ ss.flatMap Statement.misplaced := by
  induction h with
  | nil => exact (List.append_nil _).symm
  | cons _ hfirst _ ih =>
    rw [ih (Nat.le_trans hn hfirst.within.size), List.flatMap_cons, ← List.append_assoc]
    congr 1
    cases hfirst with
    | define _ _ _ => exact (List.append_nil _).symm
    | assign _ hv _ _ => exact (hv.fills hn).findings
    | taken _ hv _ _ =>
      exact List.filterMap_append.trans ((List.append_nil _).trans (hv.fills hn).findings)
    | expr he => exact (he.fills hn).findings

variable {p : Patch}

theorem TreeRun.relinked (hp : StoredList p.nodes 0 all p.statements)
    (h : TreeRun p.nodes p.resolve G scope e i j r r') (hi : p.Reaches i)
    (he : e.misplaced false = []) :
    p.Stands i j ∧ ∀ k, p.nodes.Contains i k → Relinked p p.resolve.patch.nodes k := by
  obtain ⟨a, hwalk, hk⟩ := h.tree
  have hs := hwalk.stored
  have hclosed : ∀ x, ¬ p.nodes.Open x i := by simpa using ((hs.misplaced_iff false).mp he).1
  have hreplaced := (hwalk.fills h.size).replaced he _ hk
  obtain ⟨hstands, hlinked⟩ := hreplaced.relinked hp hs hi fun x ho => absurd ho (hclosed x)
  refine ⟨hstands, fun k hk => ?_⟩
  obtain ⟨h₁, h₂⟩ := hs.contains_iff.mp hk
  exact hlinked k h₁ h₂

theorem relinked_root {k : NodeId} (hkind : (p.nodes.kind i).children = [c])
    (hroot : Relinked p R i) (hbelow : ∀ k, p.nodes.Contains c k → Relinked p R k)
    (hk : p.nodes.Contains i k) : Relinked p R k := by
  rcases hk.cases_head with rfl | ⟨d, hd, hk⟩
  · exact hroot
  · rw [Arena.Refers, hkind] at hd
    obtain rfl := List.mem_singleton.mp hd
    exact hbelow k hk

theorem BodyRuns.relinked (hp : StoredList p.nodes 0 all p.statements)
    (h : BodyRuns p.nodes p.resolve G ss ids r r') (hreach : ∀ i ∈ ids, p.Reaches i)
    (hnil : ss.flatMap Statement.bodyMisplaced = []) :
    ∀ i ∈ ids, Defines p.nodes i → ∀ k, p.nodes.Contains i k →
      Relinked p p.resolve.patch.nodes k := by
  induction h with
  | nil => simp
  | cons hfirst _ ih =>
    rw [List.flatMap_cons, List.append_eq_nil_iff] at hnil
    rw [List.forall_mem_cons] at hreach
    refine List.forall_mem_cons.mpr ⟨fun hdef => ?_, ih hreach.2 hnil.2⟩
    cases hfirst with
    | @define _ _ body _ _ _ _ _ hrun hnode hnode' =>
      have hkind := Arena.kind_eq hnode
      have hbody : p.Reaches body := hreach.1.contains
        (.single (Arena.refers_of_kind hkind (.head _)))
      obtain ⟨hstands, hlinked⟩ := hrun.relinked hp hbody hnil.1
      exact fun k => relinked_root (by rw [hkind]; rfl) (.define hnode hstands hnode') hlinked
    | other hother => exact absurd hdef hother

theorem StatementRuns.relinked (hp : StoredList p.nodes 0 all p.statements)
    (h : StatementRuns p.nodes p.resolve G ss ids ids' vars r vars' r')
    (hreach : ∀ i ∈ ids, p.Reaches i) (hnil : ss.flatMap Statement.misplaced = []) :
    List.Forall₂ p.Stands ids ids' ∧
      ∀ i ∈ ids, ¬ Defines p.nodes i → ∀ k, p.nodes.Contains i k →
        Relinked p p.resolve.patch.nodes k := by
  induction h with
  | nil => exact ⟨.nil, by simp⟩
  | cons hfirst _ ih =>
    rw [List.flatMap_cons, List.append_eq_nil_iff] at hnil
    rw [List.forall_mem_cons] at hreach
    obtain ⟨hstands, hlinked⟩ := ih hreach.2 hnil.2
    rw [List.forall₂_cons, List.forall_mem_cons]
    cases hfirst with
    | define hnode _ =>
      have hkind := Arena.kind_eq hnode
      exact ⟨⟨.self (by simp [hkind]) (by simp [hkind]), hstands⟩,
        fun hother => absurd ⟨_, _, _, _, hnode⟩ hother, hlinked⟩
    | assign hrun hnode hnode' _ | taken hrun hnode hnode' _ =>
      have hkind := Arena.kind_eq hnode
      have hvalue := hreach.1.contains (.single (Arena.refers_of_kind hkind (.head _)))
      obtain ⟨hstands', hlinked'⟩ := hrun.relinked hp hvalue hnil.1
      exact ⟨⟨.self (by simp [hkind]) (by simp [hkind]), hstands⟩,
        fun _ k => relinked_root (by rw [hkind]; rfl) (.assign hnode hstands' hnode') hlinked',
          hlinked⟩
    | expr hrun =>
      obtain ⟨hstands', hlinked'⟩ := hrun.relinked hp hreach.1 hnil.1
      exact ⟨⟨hstands', hstands⟩, fun _ => hlinked', hlinked⟩

end Resolving

namespace PatchRun

variable {p : Patch}

theorem misplaced (h : PatchRun p ss G vars r₁ r₂ r₃) :
    p.resolve.findings.filterMap Finding.misplaced? =
    ss.flatMap Statement.bodyMisplaced ++ ss.flatMap Statement.misplaced := by
  have hhoist : r₁.findings.filterMap Finding.misplaced? = [] := by
    rw [← h.hoisted]
    exact Reports.filterMap
      (.forM (fun i => (hoist_reports i).mono fun _ => misplaced?_of_misdefinition) p.statements) _
  rw [h.findings, h.statements.misplaced (Nat.le_trans h.size h.bodies.within.size),
    show _ = _ from h.bodies.misplaced h.size, hhoist, List.nil_append]

theorem relinked (h : PatchRun p ss G vars r₁ r₂ r₃)
    (hnil : ss.flatMap Statement.bodyMisplaced ++ ss.flatMap Statement.misplaced = []) :
    List.Forall₂ p.Stands p.statements p.resolve.patch.statements ∧
      ∀ k, p.Reaches k → Relinked p p.resolve.patch.nodes k := by
  rw [List.append_eq_nil_iff] at hnil
  have hreach : ∀ i ∈ p.statements, p.Reaches i := fun i hi => ⟨i, hi, .refl⟩
  have hbodies := h.bodyRuns.relinked h.stored hreach hnil.1
  obtain ⟨hstands, hothers⟩ := h.statementRuns.relinked h.stored hreach hnil.2
  refine ⟨hstands, ?_⟩
  rintro k ⟨i, hi, hk⟩
  by_cases hdef : Defines p.nodes i
  · exact hbodies i hi hdef k hk
  · exact hothers i hi hdef k hk

end PatchRun

/-- Resolution finds nothing wrong with holes and pipes exactly if every hole belongs to a pipe and
every pipe leads into a call to which one of its holes belongs. The check made of a right side finds
precisely the holes that belong to the pipe; and if all is well, every node is linked to what takes
the place of the nodes it referred to, where a hole gives way to what takes the place of the left
side of its own pipe, and no left side is lost. -/
theorem resolve_fills_holes (tokens : List Token) :
    let p := (parse tokens).patch
    ((∀ f ∈ p.resolve.findings, f.issue.code ≠ "E104" ∧ f.issue.code ≠ "E105") ↔ p.HolesScoped) ∧
      (∀ h q q', p.Belongs h q → p.Belongs h q' → q = q') ∧
      (∀ q s t, p.Reaches q → p.nodes.kind q = .pipe s t →
        (containsHole p.nodes p.nodes.size t ↔ ∃ h, p.Belongs h q)) ∧
      (∀ i j j', p.Stands i j → p.Stands i j' → j = j') ∧
      (p.HolesScoped → List.Forall₂ p.Stands p.statements p.resolve.patch.statements ∧
        ∀ i, p.Reaches i → Relinked p p.resolve.patch.nodes i) := by
  intro p
  have hp : StoredList p.nodes 0 (Grammar.statements tokens) p.statements := parse_stored tokens
  obtain ⟨G, vars, r₁, r₂, r₃, hrun⟩ := Patch.resolve_run hp
  have hscoped := Patch.holesScoped_iff hp
  rw [← hp.misplaced_iff] at hscoped
  refine ⟨?_, fun h q q' hq hq' => hq.unique hp hq', fun q s t hq hkind => ?_,
    fun i j j' h h' => h.unique hp h', fun h => hrun.relinked (hscoped.mp h)⟩
  · rw [hscoped, ← hrun.misplaced, List.filterMap_eq_nil_iff]
    exact forall₂_congr fun f _ => (misplaced?_eq_none_iff f).symm
  · obtain ⟨a, source, target, -, -, htarget⟩ := hq.pipe hp hkind
    have hsize := htarget.lt_size
    rw [containsHole_eq htarget (by omega) fun _ _ _ => rfl, htarget.hasHole_iff]
    exact exists_congr fun h => (Patch.belongs_iff_open hp hq hkind).symm

/-- A pipe in a function body, and one inside the right side of another. -/
def nestedPipes : String := "fn loud(x) -> x |> max(%, 2)\nsaw(1) |> out(%, sin(2) |> lp(%, 500))"

theorem nestedPipes_filled :
    let p := (parse (scan nestedPipes).tokens).patch
    p.HolesScoped ∧ List.Forall₂ p.Stands p.statements p.resolve.patch.statements ∧
      ∀ i, p.Reaches i → Relinked p p.resolve.patch.nodes i := by
  intro p
  have hscan : scan nestedPipes = .ofChars _ := congrArg Scan.ofChars String.toList_ofList
  have hnone : p.resolve.findings = [] := by
    dsimp only [p]
    rw [hscan]
    decide +kernel
  obtain ⟨hiff, -, -, -, hlinked⟩ := resolve_fills_holes (scan nestedPipes).tokens
  have hscoped : p.HolesScoped := hiff.mp (by rw [show _ = _ from hnone]; simp)
  exact ⟨hscoped, hlinked hscoped⟩

end SignalPatch
