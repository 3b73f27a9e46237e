import SignalPatch.Proofs.Rewriting

/-!
# Resolving a tree, node by node

`Walk` says what resolution does at each kind of node of a stored tree, with the states between the
parts of the tree. It does not speak of the depth that bounds the recursion, and each part finds its
own nodes as they were read. What holds of resolving trees is shown by induction on it.

`resolve_walk` says that resolving a stored tree is a walk. A walk touches no node outside the
stretch of its tree (`Walk.within`), and if the whole resolution ends without an error, it has
rewritten the root (`Walk.rewritten`).
-/

namespace SignalPatch

/-! ## Holes of a tree -/

def Expr.isCall : Expr → Bool
  | .call .. => true
  | _ => false

mutual

/-- Whether a hole of the tree would be filled by a pipe around it. -/
def Expr.hasHole : Expr → Bool
  | .hole _ => true
  | .binary _ lhs rhs _ => lhs.hasHole || rhs.hasHole
  | .call _ args _ => argsHaveHole args
  | .pipe source _ _ => source.hasHole
  | _ => false

def argsHaveHole : List (Arg Expr) → Bool
  | [] => false
  | ⟨_, value, _⟩ :: args => value.hasHole || argsHaveHole args

end

namespace Resolving

mutual

theorem containsHole_eq {P nodes : Arena} : ∀ {depth : Nat}, Stored P a e i → i < a + depth →
    (∀ k, a ≤ k → k ≤ i → nodes[k]? = P[k]?) → containsHole nodes depth i = e.hasHole
  | 0, hs, hd, _ => by
    have := hs.le
    omega
  | depth + 1, .number h, _, hP | depth + 1, .bool h, _, hP | depth + 1, .text h, _, hP
  | depth + 1, .ident h, _, hP | depth + 1, .hole h, _, hP => by
    rw [containsHole, Arena.kind_eq ((hP _ (Nat.le_refl _) (Nat.le_refl _)).trans h)]
    rfl
  | depth + 1, .binary hl hr h, hd, hP => by
    have hal := hl.le
    have hlm := hr.le
    rw [containsHole, Arena.kind_eq ((hP _ (by omega) (Nat.le_refl _)).trans h)]
    dsimp only
    rw [containsHole_eq hl (by omega) fun k h₁ h₂ => hP k h₁ (by omega),
      containsHole_eq hr (by omega) fun k h₁ h₂ => hP k (by omega) (by omega), Expr.hasHole]
  | depth + 1, .pipe hl hr h, hd, hP => by
    have hal := hl.le
    have hlm := hr.le
    rw [containsHole, Arena.kind_eq ((hP _ (by omega) (Nat.le_refl _)).trans h)]
    dsimp only
    -- holes on the right side of a pipe belong to the pipe and are not looked for
    rw [containsHole_eq hl (by omega) fun k h₁ h₂ => hP k h₁ (by omega), Expr.hasHole]
  | depth + 1, .call hargs h, hd, hP => by
    rw [containsHole, Arena.kind_eq ((hP _ hargs.le (Nat.le_refl _)).trans h)]
    dsimp only
    rw [containsHole_args hargs (by omega) fun k h₁ h₂ => hP k h₁ (by omega), Expr.hasHole]

theorem containsHole_args {P nodes : Arena} : ∀ {depth : Nat}, StoredArgs P a args ids b →
    b ≤ a + depth → (∀ k, a ≤ k → k < b → nodes[k]? = P[k]?) →
    (ids.any fun x => containsHole nodes depth x.value) = argsHaveHole args
  | _, .nil, _, _ => rfl
  | depth, .cons hv hargs, hd, hP => by
    have hav := hv.le
    have hab := hargs.le
    rw [List.any_cons, argsHaveHole]
    rw [containsHole_eq hv (by omega) fun k h₁ h₂ => hP k h₁ (by omega),
      containsHole_args hargs (by omega) fun k h₁ h₂ => hP k (by omega) h₂]

end

theorem isCall_eq {P nodes : Arena} (hs : Stored P a e i) (hroot : nodes[i]? = P[i]?) :
    isCall (nodes.kind i) = e.isCall := by
  cases hs <;> rw [Arena.kind_eq (hroot.trans ‹_›)] <;> rfl

theorem target_eq {P nodes : Arena} (hs : Stored P a e i) (hd : i < a + depth)
    (hP : ∀ k, a ≤ k → k ≤ i → nodes[k]? = P[k]?) :
    (isCall (nodes.kind i) && containsHole nodes depth i) = (e.isCall && e.hasHole) ∧
      nodes.span i = e.span := by
  have hroot := hP i hs.le (Nat.le_refl _)
  refine ⟨by rw [isCall_eq hs hroot, containsHole_eq hs hd hP], ?_⟩
  cases hs <;> exact Arena.span_eq (hroot.trans ‹_›)

/-! ## Walks -/

mutual

/-- `Walk P a e i hole r j r'`: the tree `e`, which fills the nodes from `a` to `i` of the arena `P`
that was read, is resolved from the state `r` on. It leaves the state `r'`, and `j` takes the place
of its root. -/
inductive Walk (P : Arena) :
    Nat → Expr → Nat → Option NodeId → Resolution → NodeId → Resolution → Prop
  | number : P[i]? = some ⟨.number v, s⟩ → r.nodes[i]? = some ⟨.number v, s⟩ →
      Walk P i (.number v s) i hole r i r
  | bool : P[i]? = some ⟨.bool v, s⟩ → r.nodes[i]? = some ⟨.bool v, s⟩ →
      Walk P i (.bool v s) i hole r i r
  | text : P[i]? = some ⟨.text v, s⟩ → r.nodes[i]? = some ⟨.text v, s⟩ →
      Walk P i (.text v s) i hole r i r
  | ident : P[i]? = some ⟨.ident x, s⟩ → r.nodes[i]? = some ⟨.ident x, s⟩ →
      Walk P i (.ident x s) i hole r i ((checkValue x s).run r).2
  | filled : P[i]? = some ⟨.hole, s⟩ → Walk P i (.hole s) i (some source) r source r
  | unfilled : P[i]? = some ⟨.hole, s⟩ →
      Walk P i (.hole s) i none r i { r with findings := r.findings ++ [⟨.holeOutsidePipe, s⟩] }
  | binary : Walk P a lhs l hole r l' r₁ → Walk P (l + 1) rhs m hole r₁ m' r₂ →
      P[m + 1]? = some ⟨.binary op l m, s⟩ → r₂.nodes[m + 1]? = some ⟨.binary op l m, s⟩ →
      Walk P a (.binary op lhs rhs s) (m + 1) hole r (m + 1)
        { r₂ with nodes := r₂.nodes.setKind (m + 1) (.binary op l' m') }
  | pipe : Walk P a source l hole r l' r₁ → Walk P (l + 1) target m (some l') r₁ m' r₂ →
      target.isCall ∧ target.hasHole → P[m + 1]? = some ⟨.pipe l m, s⟩ →
      Walk P a (.pipe source target s) (m + 1) hole r m' r₂
  | refused : Walk P a source l hole r l' r₁ → Stored P (l + 1) target m →
      ¬ (target.isCall ∧ target.hasHole) → P[m + 1]? = some ⟨.pipe l m, s⟩ →
      Walk P a (.pipe source target s) (m + 1) hole r l'
        { r₁ with findings := r₁.findings ++ [⟨.badPipeTarget, target.span⟩] }
  | call : WalkArgs P a args ids i hole r ids' r₁ → P[i]? = some ⟨.call callee ids, s⟩ →
      r₁.nodes[i]? = some ⟨.call callee ids, s⟩ → P.size ≤ r₁.nodes.size → SignaturesOk r₁.symbols →
      Walk P a (.call callee args s) i hole r i ((resolveCall i callee ids').run r₁).2

inductive WalkArgs (P : Arena) : Nat → List (Arg Expr) → List (Arg NodeId) → Nat → Option NodeId →
    Resolution → List (Arg NodeId) → Resolution → Prop
  | nil : WalkArgs P a [] [] a hole r [] r
  | cons : Walk P a value i hole r i' r₁ → WalkArgs P (i + 1) args ids b hole r₁ ids' r₂ →
      WalkArgs P a (⟨name, value, s⟩ :: args) (⟨name, i, s⟩ :: ids) b hole r
        (⟨name, i', s⟩ :: ids') r₂

end

mutual

theorem Walk.stored : Walk P a e i hole r j r' → Stored P a e i
  | .number h _ => .number h
  | .bool h _ => .bool h
  | .text h _ => .text h
  | .ident h _ => .ident h
  | .filled h | .unfilled h => .hole h
  | .binary hl hr h _ => .binary hl.stored hr.stored h
  | .pipe hs ht _ h => .pipe hs.stored ht.stored h
  | .refused hs ht _ h => .pipe hs.stored ht h
  | .call hargs h _ _ _ => .call hargs.stored h

theorem WalkArgs.stored : WalkArgs P a args ids b hole r ids' r' → StoredArgs P a args ids b
  | .nil => .nil
  | .cons hv hargs => .cons hv.stored hargs.stored

end

theorem setBinary_ok {r : Resolution} (h : r.nodes[i]? = some ⟨.binary op l m, s⟩)
    (l' m' : NodeId) :
    Within i (i + 1) r { r with nodes := r.nodes.setKind i (.binary op l' m') } :=
  .setKind h rfl _ (by simp)

mutual

/-- A walk leaves alone what is outside the stretch of its tree. -/
theorem Walk.within : Walk P a e i hole r j r' → Within a (i + 1) r r'
  | .number _ _ | .bool _ _ | .text _ _ | .filled _ => .refl _ _ _
  | .ident _ _ => (checkValue_ok _ _ _ _ _).1
  | .unfilled _ => .report _ _ _ _
  | .binary hl hr _ hnode => by
    have hal := hl.stored.le
    have hlm := hr.stored.le
    exact (hl.within.widen (Nat.le_refl _) (by omega)).trans
      ((hr.within.widen (by omega) (by omega)).trans
        ((setBinary_ok hnode _ _).widen (by omega) (Nat.le_refl _)))
  | .pipe hs ht _ _ => by
    have hal := hs.stored.le
    have hlm := ht.stored.le
    exact (hs.within.widen (Nat.le_refl _) (by omega)).trans (ht.within.widen (by omega) (by omega))
  | .refused hs ht _ _ => by
    have hlm := ht.le
    exact (hs.within.widen (Nat.le_refl _) (by omega)).trans (.report _ _ _ _)
  | .call hargs h hnode hn hT =>
    have hi := (Array.getElem?_eq_some_iff.mp h).1
    (hargs.within.widen (Nat.le_refl _) (Nat.le_succ _)).trans
      ((resolveCall_ok hnode hT hi hn _).1.widen hargs.stored.le (Nat.le_refl _))

theorem WalkArgs.within : WalkArgs P a args ids b hole r ids' r' → Within a b r r'
  | .nil => .refl _ _ _
  | .cons hv hargs => by
    have hai := hv.stored.le
    have hib := hargs.stored.le
    exact (hv.within.widen (Nat.le_refl _) hib).trans
      (hargs.within.widen (by omega) (Nat.le_refl _))

end

theorem hole_lt {hole : Option NodeId} {a b : Nat} (h : ∀ x, hole = some x → x < a) (hab : a ≤ b) :
    ∀ x, hole = some x → x < b :=
  fun x hx => Nat.lt_of_lt_of_le (h x hx) hab

/-- What takes the place of a root is not behind it, if what flows in lies before the tree. -/
theorem Walk.le : Walk P a e i hole r j r' → (∀ x, hole = some x → x < a) → j ≤ i
  | .number _ _, _ | .bool _ _, _ | .text _ _, _ | .ident _ _, _ | .unfilled _, _ => Nat.le_refl _
  | .filled _, hhole => Nat.le_of_lt (hhole _ rfl)
  | .binary _ _ _ _, _ | .call _ _ _ _ _, _ => Nat.le_refl _
  | .pipe hs ht _ _, hhole => by
    refine Nat.le_succ_of_le (ht.le ?_)
    rintro _ ⟨⟩
    exact Nat.lt_succ_of_le (hs.le hhole)
  | .refused hs ht _ _, hhole =>
    Nat.le_trans (hs.le hhole) (Nat.le_succ_of_le (Nat.le_of_succ_le ht.le))

theorem WalkArgs.lt : WalkArgs P a args ids b hole r ids' r' → (∀ x, hole = some x → x < a) →
    ∀ x ∈ ids', x.value < b
  | .nil, _ => by simp
  | .cons hv hargs, hhole => by
    have hfirst := Nat.lt_of_lt_of_le (Nat.lt_succ_of_le (hv.le hhole)) hargs.stored.le
    exact List.forall_mem_cons.mpr
      ⟨hfirst, hargs.lt (hole_lt hhole (Nat.le_succ_of_le hv.stored.le))⟩

theorem WalkArgs.labels : WalkArgs P a args ids b hole r ids' r' →
    ids'.map Arg.name = ids.map Arg.name ∧ ids'.map Arg.span = ids.map Arg.span
  | .nil => ⟨rfl, rfl⟩
  | .cons _ hargs => by
    obtain ⟨hnames, hspans⟩ := hargs.labels
    simp [hnames, hspans]

section

variable {R : Resolved} (hl : Walk P a lhs l hole r l' r₁)
  (hr : Walk P (l + 1) rhs m hole' r₁ m' r₂) (hn : P.size ≤ r.nodes.size)
include hl hr hn

theorem Walk.keptParts (hk : Kept P.size a (m + 1) r₂ R) :
    P.size ≤ r₁.nodes.size ∧ Kept P.size a (l + 1) r₁ R ∧ Kept P.size (l + 1) (m + 1) r₂ R := by
  have hal := hl.stored.le
  have hlm := hr.stored.le
  have hm := hr.stored.lt_size
  have hn₁ := Nat.le_trans hn hl.within.size
  exact ⟨hn₁, hk.before hr.within hm (Nat.le_refl _) (by omega) (.inl (Nat.le_refl _)) (by omega),
    hk.narrow (by omega) (Nat.le_refl _)⟩

theorem Walk.keptOperands (h : P[m + 1]? = some ⟨.binary op l m, s⟩)
    (hnode : r₂.nodes[m + 1]? = some ⟨.binary op l m, s⟩)
    (hk : Kept P.size a (m + 2) { r₂ with nodes := r₂.nodes.setKind (m + 1) (.binary op l' m') }
      R) :
    R.patch.nodes[m + 1]? = some ⟨.binary op l' m', s⟩ ∧
      P.size ≤ r₁.nodes.size ∧ Kept P.size a (l + 1) r₁ R ∧ Kept P.size (l + 1) (m + 1) r₂ R := by
  have hal := hl.stored.le
  have hlm := hr.stored.le
  have hm := (Array.getElem?_eq_some_iff.mp h).1
  have hn₂ := Nat.le_trans (Nat.le_trans hn hl.within.size) hr.within.size
  refine ⟨(hk.nodes _ (by omega) (Nat.lt_succ_self _)).trans (Arena.getElem?_setKind_self hnode _),
    hl.keptParts hr hn
      (hk.before (setBinary_ok hnode _ _) (Nat.succ_le_of_lt hm) (Nat.le_refl _) (Nat.le_succ _)
      (.inl (Nat.le_refl _)) (Nat.le_trans (Nat.le_of_lt hm) hn₂))⟩

end

mutual

theorem Walk.rewritten {R : Resolved} : Walk P a e i hole r j r' → P.size ≤ r.nodes.size →
    Kept P.size a (i + 1) r' R → R.success → Rewritten P R r.symbols hole i j ∧ Declares R r r'
  | .number h hr, _, hk, _ | .bool h hr, _, hk, _ | .text h hr, _, hk, _ =>
    ⟨.literal h rfl ((hk.nodes _ (Nat.le_refl _) (Nat.lt_succ_self _)).trans hr), .of_eq rfl⟩
  | .ident h hr, _, hk, hR => by
    have hi := (Array.getElem?_eq_some_iff.mp hr).1
    obtain ⟨hw, hvalue⟩ := checkValue_ok 0 0 _ _ r
    obtain ⟨symbol, hl, hv⟩ := hvalue (hk.noError hR)
    refine ⟨.ident h ?_ hl hv, .of_eq (by rw [checkValue_frame])⟩
    rw [hk.nodes _ (Nat.le_refl _) (Nat.lt_succ_self _), hw.nodes _ hi (.inr (Nat.zero_le _)), hr]
  | .filled h, _, _, _ => ⟨.hole h, .of_eq rfl⟩
  | .unfilled _, _, hk, hR => absurd (hk.noError hR) (not_clean_report rfl _ _)
  | .binary hl hr h hnode, hn, hk, hR => by
    obtain ⟨hroot, hn₁, hk₁, hk₂⟩ := hl.keptOperands hr hn h hnode hk
    obtain ⟨hlhs, hdeclares₁⟩ := hl.rewritten hn hk₁ hR
    obtain ⟨hrhs, hdeclares₂⟩ := hr.rewritten hn₁ hk₂ hR
    exact ⟨.binary h hlhs (hl.within.symbols ▸ hrhs) hroot, hdeclares₁.trans hdeclares₂⟩
  | .pipe hs ht _ h, hn, hk, hR => by
    obtain ⟨hn₁, hk₁, hk₂⟩ := hs.keptParts ht hn (hk.narrow (Nat.le_refl _) (Nat.le_succ _))
    obtain ⟨hsource, hdeclares₁⟩ := hs.rewritten hn hk₁ hR
    obtain ⟨htarget, hdeclares₂⟩ := ht.rewritten hn₁ hk₂ hR
    exact ⟨.pipe h hsource (hs.within.symbols ▸ htarget), hdeclares₁.trans hdeclares₂⟩
  | .refused _ _ _ _, _, hk, hR => absurd (hk.noError hR) (not_clean_report rfl _ _)
  | .call hargs h hnode hn' hT, hn, hk, hR => by
    have hi := (Array.getElem?_eq_some_iff.mp h).1
    have hai := hargs.stored.le
    obtain ⟨hw, hcall⟩ := resolveCall_ok hnode hT hi hn' _
    -- The call changes only its own node, so what the arguments left is still there.
    have hk₁ := hk.before hw (Nat.succ_le_of_lt hi) (Nat.le_refl _) (Nat.le_succ _)
      (.inl (Nat.le_refl _)) (by omega)
    obtain ⟨hrewritten, hdeclares₁⟩ := hargs.rewritten (Nat.le_of_lt hi) hn hk₁ hR
    have hk₂ := hk.narrow hai (Nat.le_refl _)
    obtain ⟨hcall, hdeclares₂⟩ := (hcall _ hk₂ hR).resolved hk₂ hR hT
    exact ⟨.call h hargs.labels.1 hrewritten (hargs.within.symbols ▸ hcall),
      hdeclares₁.trans hdeclares₂⟩

theorem WalkArgs.rewritten {R : Resolved} : WalkArgs P a args ids b hole r ids' r' → b ≤ P.size →
    P.size ≤ r.nodes.size → Kept P.size a b r' R → R.success →
    (∀ q ∈ ids.zip ids', Rewritten P R r.symbols hole q.1.value q.2.value) ∧ Declares R r r'
  | .nil, _, _, _, _ => ⟨by simp, .of_eq rfl⟩
  | .cons hv hargs, hb, hn, hk, hR => by
    have hai := hv.stored.le
    have hib := hargs.stored.le
    have hn₁ := Nat.le_trans hn hv.within.size
    have hk₁ := hk.before hargs.within hb (Nat.le_refl _) hib (.inl (Nat.le_refl _)) (by omega)
    obtain ⟨hhead, hdeclares₁⟩ := hv.rewritten hn hk₁ hR
    obtain ⟨htail, hdeclares₂⟩ := hargs.rewritten hb hn₁ (hk.narrow (by omega) (Nat.le_refl _)) hR
    rw [List.zip_cons_cons, List.forall_mem_cons, ← hv.within.symbols]
    exact ⟨⟨hv.within.symbols ▸ hhead, htail⟩, hdeclares₁.trans hdeclares₂⟩

end

/-! ## Resolution is a walk -/

def Walks (P : Arena) (depth : Nat) : Prop :=
  ∀ {a : Nat} {e : Expr} {i : Nat} (hole : Option NodeId) (r : Resolution), Stored P a e i →
    i < a + depth →
    (∀ k, a ≤ k → k ≤ i → r.nodes[k]? = P[k]?) → P.size ≤ r.nodes.size → SignaturesOk r.symbols →
    Walk P a e i hole r ((resolve depth hole i).run r).1 ((resolve depth hole i).run r).2

theorem run_resolveArgs_cons (depth : Nat) (hole : Option NodeId) (x : Arg NodeId)
    (xs : List (Arg NodeId)) (r : Resolution) :
    ((x :: xs).mapM fun a => return { a with value := ← resolve depth hole a.value } :
        Resolving (List (Arg NodeId))).run r =
      let first := (resolve depth hole x.value).run r
      let rest := (xs.mapM fun a => return { a with value := ← resolve depth hole a.value } :
        Resolving (List (Arg NodeId))).run first.2
      ({ x with value := first.1 } :: rest.1, rest.2) := by
  simp only [List.mapM_cons, run_bind, run_pure]

theorem resolveArgs_walk (ih : Walks P depth) (hole : Option NodeId) (args : List (Arg Expr)) :
    ∀ {a ids b} (r : Resolution), StoredArgs P a args ids b → b ≤ a + depth → b ≤ P.size →
    (∀ k, a ≤ k → k < b → r.nodes[k]? = P[k]?) → P.size ≤ r.nodes.size → SignaturesOk r.symbols →
    let out := (ids.mapM fun a => return { a with value := ← resolve depth hole a.value } :
      Resolving (List (Arg NodeId))).run r
    WalkArgs P a args ids b hole r out.1 out.2 := by
  induction args with
  | nil =>
    intro a ids b r hs hd hb hP hn hT
    cases hs
    exact .nil
  | cons x xs ihargs =>
    intro a ids b r hs hd hb hP hn hT
    cases hs with
    | cons hv hargs =>
      have hai := hv.le
      have hib := hargs.le
      have hfirst := ih hole r hv (by omega) (fun k h₁ h₂ => hP k h₁ (by omega)) hn hT
      have hw := hfirst.within
      have hsize := hw.size
      rw [run_resolveArgs_cons]
      exact .cons hfirst (ihargs _ hargs (by omega) hb
        (fun k h₁ h₂ => (hw.nodes k (by omega) (.inr h₁)).trans (hP k (by omega) h₂))
          (by omega) (hw.symbols ▸ hT))

theorem resolve_walk (P : Arena) (depth : Nat) : Walks P depth := by
  induction depth with
  | zero =>
    intro a e i hole r hs hd
    have := hs.le
    omega
  | succ depth ih =>
    intro a e i hole r hs hd hP hn hT
    have hroot : r.nodes[i]? = P[i]? := hP i hs.le (Nat.le_refl _)
    have hi := hs.lt_size
    unfold resolve
    cases hs with
    | number h =>
      simpa [run_bind, run_kindOf, Arena.kind_eq (hroot.trans h)] using .number h (hroot.trans h)
    | bool h =>
      simpa [run_bind, run_kindOf, Arena.kind_eq (hroot.trans h)] using .bool h (hroot.trans h)
    | text h =>
      simpa [run_bind, run_kindOf, Arena.kind_eq (hroot.trans h)] using .text h (hroot.trans h)
    | ident h =>
      simp only [run_bind, run_kindOf, run_spanOf, Arena.kind_eq (hroot.trans h),
        Arena.span_eq (hroot.trans h), run_pure]
      exact .ident h (hroot.trans h)
    | hole h =>
      cases hole with
      | none =>
        simp only [run_bind, run_kindOf, run_spanOf, Arena.kind_eq (hroot.trans h),
          Arena.span_eq (hroot.trans h), run_report, run_pure]
        exact .unfilled h
      | some source =>
        simp only [run_bind, run_kindOf, Arena.kind_eq (hroot.trans h), run_pure]
        exact .filled h
    | @binary _ lhs l rhs m op s hl hr h =>
      have hal := hl.le
      have hlm := hr.le
      have hleft := ih hole r hl (by omega) (fun k h₁ h₂ => hP k h₁ (by omega)) hn hT
      have hw₁ := hleft.within
      have hsize₁ := hw₁.size
      have hright := ih hole _ hr (by omega)
        (fun k h₁ h₂ => (hw₁.nodes k (by omega) (.inr h₁)).trans (hP k (by omega) (by omega)))
          (by omega)
        (hw₁.symbols ▸ hT)
      simp only [run_bind, run_kindOf, Arena.kind_eq (hroot.trans h), run_setKind, run_pure]
      refine .binary hleft hright h ?_
      rw [hright.within.nodes _ (by omega) (.inr (Nat.le_refl _)),
        hw₁.nodes _ (by omega) (.inr (by omega))]
      exact hroot.trans h
    | @pipe _ source l target m s hl hr h =>
      have hal := hl.le
      have hlm := hr.le
      have hleft := ih hole r hl (by omega) (fun k h₁ h₂ => hP k h₁ (by omega)) hn hT
      have hw₁ := hleft.within
      have hsize₁ := hw₁.size
      have hP₁ := fun k (h₁ : l + 1 ≤ k) (h₂ : k ≤ m) =>
        (hw₁.nodes k (by omega) (.inr h₁)).trans (hP k (by omega) (by omega))
      obtain ⟨hcheck, hspan⟩ := target_eq hr (show m < l + 1 + depth by omega) hP₁
      simp only [run_bind, run_kindOf, run_get, Arena.kind_eq (hroot.trans h), hcheck]
      by_cases hcall : (target.isCall && target.hasHole) = true
      · simp only [hcall, ↓reduceIte]
        exact .pipe hleft (ih _ _ hr (by omega) hP₁ (by omega) (hw₁.symbols ▸ hT))
          (by simpa using hcall) h
      · simp only [hcall, Bool.false_eq_true, ↓reduceIte, run_bind, run_report, run_pure, hspan]
        exact .refused hleft hr (by simpa using hcall) h
    | call hargs h =>
      have hall := resolveArgs_walk ih hole _ r hargs (by omega) (Nat.le_of_lt hi)
        (fun k h₁ h₂ => hP k h₁ (by omega)) hn hT
      have hw := hall.within
      simp only [run_bind, run_kindOf, Arena.kind_eq (hroot.trans h), run_pure]
      -- the arguments lie before the call, so the node of the call is still as it was read
      exact .call hall h ((hw.nodes _ (by omega) (.inr (Nat.le_refl _))).trans (hroot.trans h))
        (Nat.le_trans hn hw.size) (hw.symbols ▸ hT)

end Resolving

end SignalPatch
