import SignalPatch.Proofs.VariedCheck

/-!
# Nodes of a tree that is written in two ways

A tree and another way of writing it are stored in two arenas. Their nodes are not level with each
other once arguments have changed places, but each has one partner in the other stretch
(`Stored.paired`). Resolution keeps this: partners are stood for by partners (`Paired.rewritten`).
The literals that it makes for missing arguments are paired by the calls and the places they were
made for (`Adjoined`).
-/

namespace SignalPatch

open Resolving (SignaturesOk)

/-! ## Pairings -/

/-- Pairs numbers of two sets, each with one partner only. -/
structure Pairing (X Y : Nat → Prop) (B : Nat → Nat → Prop) : Prop where
  left : ∀ {x y}, B x y → X x
  right : ∀ {x y}, B x y → Y y
  one : ∀ {x y x' y'}, B x y → B x' y' → (x = x' ↔ y = y')

namespace Pairing

theorem empty : Pairing (fun _ => False) (fun _ => False) fun _ _ => False :=
  ⟨False.elim, False.elim, False.elim⟩

theorem single (i j : Nat) : Pairing (· = i) (· = j) fun x y => x = i ∧ y = j :=
  ⟨And.left, And.right, fun h h' => by rw [h.1, h.2, h'.1, h'.2]; simp⟩

theorem widen (h : Pairing X Y B) (hX : ∀ n, X n → X' n) (hY : ∀ n, Y n → Y' n) : Pairing X' Y' B :=
  ⟨fun hB => hX _ (h.left hB), fun hB => hY _ (h.right hB), h.one⟩

theorem union (h : Pairing X Y B) (h' : Pairing X' Y' B') (hX : ∀ n, X n → ¬ X' n)
    (hY : ∀ n, Y n → ¬ Y' n) :
    Pairing (fun n => X n ∨ X' n) (fun n => Y n ∨ Y' n) fun x y => B x y ∨ B' x y where
  left := Or.imp h.left h'.left
  right := Or.imp h.right h'.right
  one := by
    -- numbers of different parts differ on both sides
    have hapart : ∀ {x y x' y'}, B x y → B' x' y' → x ≠ x' ∧ y ≠ y' := fun hB hB' =>
      ⟨fun heq => hX _ (h.left hB) (heq ▸ h'.left hB'), fun heq =>
        hY _ (h.right hB) (heq ▸ h'.right hB')⟩
    rintro x y x' y' (hB | hB) (hB' | hB')
    · exact h.one hB hB'
    · exact iff_of_false (hapart hB hB').1 (hapart hB hB').2
    · exact iff_of_false (hapart hB' hB).1.symm (hapart hB' hB).2.symm
    · exact h'.one hB hB'

end Pairing

/-! ## Stretches -/

def Stretch (a i n : Nat) : Prop := a ≤ n ∧ n ≤ i

structure Spot (α : Type) where
  label : α
  start : Nat
  root : Nat

namespace Spot

def Covers (z : Spot α) : Nat → Prop := Stretch z.start z.root

def Apart (z w : Spot α) : Prop := ∀ n, z.Covers n → ¬ w.Covers n

theorem Apart.symm {z w : Spot α} (h : z.Apart w) : w.Apart z := fun n hw hz => h n hz hw

theorem apart_of_lt {z w : Spot α} (h : z.root < w.start) : z.Apart w := by
  rintro n ⟨-, hz⟩ ⟨hw, -⟩
  omega

theorem apart_perm {zs ws : List (Spot α)} (hperm : zs.Perm ws) (h : ws.Pairwise Apart) :
    zs.Pairwise Apart :=
  h.perm hperm.symm fun h => h.symm

def arg (z : Spot (Arg Expr)) : Arg NodeId := ⟨z.label.name, z.root, z.label.span⟩

end Spot

theorem StoredArgs.spots (h : StoredArgs P a es ids b) : ∃ zs : List (Spot (Arg Expr)),
    zs.map Spot.label = es ∧ zs.map Spot.arg = ids ∧ zs.Pairwise Spot.Apart ∧
      ∀ z ∈ zs, Stored P z.start z.label.value z.root ∧ a ≤ z.start ∧ z.root < b := by
  induction es generalizing a ids with
  | nil =>
    cases h
    exact ⟨[], rfl, rfl, .nil, by simp⟩
  | cons x es ih =>
    cases h with
    | @cons _ value i _ _ _ name s hv hrest =>
      obtain ⟨zs, rfl, rfl, hapart, hzs⟩ := ih hrest
      have hle := hv.le
      have hlt := hrest.le
      refine ⟨⟨⟨name, value, s⟩, a, i⟩ :: zs, rfl, rfl, ?_, ?_⟩
      · refine List.pairwise_cons.mpr ⟨fun z hz => Spot.apart_of_lt ?_, hapart⟩
        exact (hzs z hz).2.1
      · rw [List.forall_mem_cons]
        refine ⟨⟨hv, Nat.le_refl _, hlt⟩, fun z hz => ?_⟩
        obtain ⟨hstored, hstart, hroot⟩ := hzs z hz
        exact ⟨hstored, by omega, hroot⟩

theorem StoredArgs.names (h : StoredArgs P a es ids b) : ids.map Arg.name = es.map Arg.name := by
  obtain ⟨zs, rfl, rfl, -⟩ := h.spots
  rw [List.map_map, List.map_map]
  rfl

/-! ## Partners -/

/-- The trees below two nodes are two ways of writing one, and their nodes are partners. -/
inductive Paired (v : Manner) (A₁ A₂ : Arena) (C : Nat → Nat → Prop) : NodeId → NodeId → Prop
  | literal : C i j → A₁[i]? = some ⟨kind, s⟩ → A₂[j]? = some ⟨kind, s'⟩ → kind.isLiteral →
      Paired v A₁ A₂ C i j
  | ident : C i j → A₁[i]? = some ⟨.ident x, s⟩ → A₂[j]? = some ⟨.ident (v.name x), s'⟩ →
      Paired v A₁ A₂ C i j
  | hole : C i j → A₁[i]? = some ⟨.hole, s⟩ → A₂[j]? = some ⟨.hole, s'⟩ → Paired v A₁ A₂ C i j
  | binary : C i j → A₁[i]? = some ⟨.binary op lhs rhs, s⟩ →
      A₂[j]? = some ⟨.binary op lhs' rhs', s'⟩ →
      Paired v A₁ A₂ C lhs lhs' → Paired v A₁ A₂ C rhs rhs' → Paired v A₁ A₂ C i j
  | pipe : C i j → A₁[i]? = some ⟨.pipe source target, s⟩ →
      A₂[j]? = some ⟨.pipe source' target', s'⟩ →
      Paired v A₁ A₂ C source source' → Paired v A₁ A₂ C target target' → Paired v A₁ A₂ C i j
  | call : C i j → A₁[i]? = some ⟨.call callee args, s⟩ → A₂[j]? = some ⟨.call callee' args', s'⟩ →
      (v.placed → s = s') → args.map Arg.name = mid.map Arg.name →
      (∀ q ∈ args.zip mid, Paired v A₁ A₂ C q.1.value q.2.value) → v.Reorders Arg.name mid args' →
      (args'.map Arg.name).reduceOption.Nodup → v.Respells callee callee' → Paired v A₁ A₂ C i j
  | operator : C i j → v.spelling → A₁[i]? = some ⟨.binary op lhs rhs, s⟩ →
      A₂[j]? = some ⟨.call op.functionName [⟨none, lhs', t⟩, ⟨none, rhs', t'⟩], s'⟩ →
      Paired v A₁ A₂ C lhs lhs' → Paired v A₁ A₂ C rhs rhs' → Paired v A₁ A₂ C i j

namespace Paired

theorem partners (h : Paired v A₁ A₂ C i j) : C i j := by
  cases h <;> assumption

theorem mono {A₁ A₂ : Arena} (hC : ∀ x y, C x y → C' x y) (h : Paired v A₁ A₂ C i j) :
    Paired v A₁ A₂ C' i j := by
  induction h with
  | literal hij h₁ h₂ hlit => exact .literal (hC _ _ hij) h₁ h₂ hlit
  | ident hij h₁ h₂ => exact .ident (hC _ _ hij) h₁ h₂
  | hole hij h₁ h₂ => exact .hole (hC _ _ hij) h₁ h₂
  | binary hij h₁ h₂ _ _ ihl ihr => exact .binary (hC _ _ hij) h₁ h₂ ihl ihr
  | pipe hij h₁ h₂ _ _ ihs iht => exact .pipe (hC _ _ hij) h₁ h₂ ihs iht
  | call hij h₁ h₂ hplace hnames _ hreorder hdistinct hcallee ih =>
    exact .call (hC _ _ hij) h₁ h₂ hplace hnames ih hreorder hdistinct hcallee
  | operator hij hs h₁ h₂ _ _ ihl ihr => exact .operator (hC _ _ hij) hs h₁ h₂ ihl ihr

end Paired

/-- The nodes of two stretches that lead up to `i` and `j` are partners, each of one other only. -/
def Partners (v : Manner) (P₁ P₂ : Arena) (a i b j : Nat) : Prop :=
  ∃ B, Pairing (Stretch a i) (Stretch b j) B ∧ Paired v P₁ P₂ B i j

def Spot.Partners (v : Manner) (P₁ P₂ : Arena) (z : Spot α) (w : Spot β) : Prop :=
  SignalPatch.Partners v P₁ P₂ z.start z.root w.start w.root

theorem exists_partners {zs : List (Spot α)} {ws : List (Spot β)} {manner : Spot α → Manner}
    (h : List.Forall₂ (fun z w => Spot.Partners (manner z) P₁ P₂ z w) zs ws)
    (hzs : zs.Pairwise Spot.Apart) (hws : ws.Pairwise Spot.Apart) :
    ∃ B, Pairing (fun n => ∃ z ∈ zs, z.Covers n) (fun n => ∃ w ∈ ws, w.Covers n) B ∧
      List.Forall₂ (fun z w => Paired (manner z) P₁ P₂ B z.root w.root) zs ws := by
  induction h with
  | nil => exact ⟨_, Pairing.empty.widen (fun _ => False.elim) fun _ => False.elim, .nil⟩
  | cons hzw _ ih =>
    obtain ⟨hz, hzs⟩ := List.pairwise_cons.mp hzs
    obtain ⟨hw, hws⟩ := List.pairwise_cons.mp hws
    obtain ⟨B, hB, hpaired⟩ := hzw
    obtain ⟨B', hB', hrest⟩ := ih hzs hws
    refine ⟨fun x y => B x y ∨ B' x y, (hB.union hB' ?_ ?_).widen ?_ ?_,
      .cons (hpaired.mono fun _ _ => .inl) (hrest.imp fun _ _ h => h.mono fun _ _ => .inr)⟩
    · rintro n hn ⟨z', hz', hn'⟩
      exact hz z' hz' n hn hn'
    · rintro n hn ⟨w', hw', hn'⟩
      exact hw w' hw' n hn hn'
    · rintro n (hn | ⟨z', hz', hn'⟩)
      · exact ⟨_, List.mem_cons_self, hn⟩
      · exact ⟨z', List.mem_cons_of_mem _ hz', hn'⟩
    · rintro n (hn | ⟨w', hw', hn'⟩)
      · exact ⟨_, List.mem_cons_self, hn⟩
      · exact ⟨w', List.mem_cons_of_mem _ hw', hn'⟩

theorem exists_partners_below {zs : List (Spot α)} {ws ws' : List (Spot β)} {i j : Nat}
    (h : List.Forall₂ (Spot.Partners v P₁ P₂) zs ws) (hperm : ws.Perm ws')
    (hzs : zs.Pairwise Spot.Apart) (hws : ws'.Pairwise Spot.Apart) (hai : a ≤ i) (hbj : b ≤ j)
    (hi : ∀ z ∈ zs, a ≤ z.start ∧ z.root < i) (hj : ∀ w ∈ ws', b ≤ w.start ∧ w.root < j) :
    ∃ B, Pairing (Stretch a i) (Stretch b j) B ∧ B i j ∧
      List.Forall₂ (fun z w => Paired v P₁ P₂ B z.root w.root) zs ws := by
  obtain ⟨B, hB, hpaired⟩ := exists_partners h hzs (Spot.apart_perm hperm hws)
  have hj := fun w hw => hj w (hperm.mem_iff.mp hw)
  have hzi : ∀ n, (∃ z ∈ zs, z.Covers n) → a ≤ n ∧ n < i := by
    rintro n ⟨z, hz, hn⟩
    exact ⟨Nat.le_trans (hi z hz).1 hn.1, Nat.lt_of_le_of_lt hn.2 (hi z hz).2⟩
  have hwj : ∀ n, (∃ w ∈ ws, w.Covers n) → b ≤ n ∧ n < j := by
    rintro n ⟨w, hw, hn⟩
    exact ⟨Nat.le_trans (hj w hw).1 hn.1, Nat.lt_of_le_of_lt hn.2 (hj w hw).2⟩
  refine ⟨fun x y => B x y ∨ x = i ∧ y = j,
    (hB.union (.single i j) ?_ ?_).widen ?_ ?_, .inr ⟨rfl, rfl⟩,
    hpaired.imp fun _ _ h => h.mono fun _ _ => .inl⟩
  · exact fun n hn heq => Nat.ne_of_lt (hzi n hn).2 heq
  · exact fun n hn heq => Nat.ne_of_lt (hwj n hn).2 heq
  · rintro n (hn | rfl)
    · exact ⟨(hzi n hn).1, Nat.le_of_lt (hzi n hn).2⟩
    · exact ⟨hai, Nat.le_refl _⟩
  · rintro n (hn | rfl)
    · exact ⟨(hwj n hn).1, Nat.le_of_lt (hwj n hn).2⟩
    · exact ⟨hbj, Nat.le_refl _⟩

theorem Pairing.leaf (a b : Nat) : Pairing (Stretch a a) (Stretch b b) fun x y => x = a ∧ y = b :=
  (single a b).widen (by rintro n rfl; exact ⟨Nat.le_refl _, Nat.le_refl _⟩)
    (by rintro n rfl; exact ⟨Nat.le_refl _, Nat.le_refl _⟩)

theorem Partners.below (hl : Partners v P₁ P₂ a i b i')
    (hr : Partners v P₁ P₂ (i + 1) k (i' + 1) k') (hai : a ≤ i) (hik : i < k) (hbi : b ≤ i')
    (hik' : i' < k') :
    ∃ B, Pairing (Stretch a (k + 1)) (Stretch b (k' + 1)) B ∧ B (k + 1) (k' + 1) ∧
      Paired v P₁ P₂ B i i' ∧ Paired v P₁ P₂ B k k' := by
  let lhs : Spot Unit := ⟨(), a, i⟩
  let rhs : Spot Unit := ⟨(), i + 1, k⟩
  let lhs' : Spot Unit := ⟨(), b, i'⟩
  let rhs' : Spot Unit := ⟨(), i' + 1, k'⟩
  have hpairs : List.Forall₂ (Spot.Partners v P₁ P₂) [lhs, rhs] [lhs', rhs'] :=
    .cons hl (.cons hr .nil)
  have hapart : [lhs, rhs].Pairwise Spot.Apart := by
    simpa using Spot.apart_of_lt (z := lhs) (w := rhs) (Nat.lt_succ_self i)
  have hapart' : [lhs', rhs'].Pairwise Spot.Apart := by
    simpa using Spot.apart_of_lt (z := lhs') (w := rhs') (Nat.lt_succ_self i')
  have hbefore : ∀ z ∈ [lhs, rhs], a ≤ z.start ∧ z.root < k + 1 := by
    simp only [List.mem_cons, List.not_mem_nil, or_false, forall_eq_or_imp, forall_eq, lhs, rhs]
    omega
  have hbefore' : ∀ w ∈ [lhs', rhs'], b ≤ w.start ∧ w.root < k' + 1 := by
    simp only [List.mem_cons, List.not_mem_nil, or_false, forall_eq_or_imp, forall_eq, lhs', rhs']
    omega
  obtain ⟨B, hB, hroots, hpaired⟩ := exists_partners_below hpairs (.refl _) hapart hapart'
    (by omega) (by omega) hbefore hbefore'
  simp only [List.forall₂_cons, List.Forall₂.nil, and_true] at hpaired
  exact ⟨B, hB, hroots, hpaired⟩

/-! ## Stored trees -/

theorem Expr.Checks.distinct (h : (Expr.call callee args s).Checks roles flow) :
    (args.map Arg.name).reduceOption.Nodup := by
  obtain ⟨-, role, -, htakes⟩ := Expr.Checks.call_iff.mp h
  have hdistinct := htakes.distinct
  rwa [Expr.faceArgs, map_name_map] at hdistinct

theorem StoredArgs.paired {es mid es' : List (Arg Expr)} (h₁ : StoredArgs P₁ a es ids i)
    (h₂ : StoredArgs P₂ b es' ids' j) (hreorder : v.Reorders Arg.name mid es')
    (hargs : List.Forall₂ (Matches fun e e' => ∀ a i b j, Stored P₁ a e i → Stored P₂ b e' j →
      Partners v P₁ P₂ a i b j) es mid) :
    ∃ B mids, Pairing (Stretch a i) (Stretch b j) B ∧ B i j ∧
    List.Forall₂ (Matches (Paired v P₁ P₂ B)) ids mids ∧
      v.Reorders Arg.name mids ids' := by
  obtain ⟨zs, rfl, rfl, hapart₁, hzs⟩ := h₁.spots
  obtain ⟨ws, rfl, rfl, hapart₂, hws⟩ := h₂.spots
  -- the places of the arguments of the second call, in the order of the first
  have hname : ∀ (x : Arg Expr) (w : Spot (Arg Expr)), x = w.label → x.name = w.label.name :=
    fun _ _ h => h ▸ rfl
  obtain ⟨wm, hwm, hreorder'⟩ := hreorder.exists_forall₂ hname
    (List.forall₂_map_left_iff.mpr (List.forall₂_same.mpr fun _ _ => rfl))
  obtain rfl := (List.map_id _).symm.trans
    (Binding.map_eq_of_forall₂ (f := id) (fun _ _ h => h) hwm)
  have hperm : wm.Perm ws := hreorder'.rearranged.perm
  rw [List.forall₂_map_left_iff, List.forall₂_map_right_iff] at hargs
  have hpairs :
      List.Forall₂ (fun z w => z.label.name = w.label.name ∧ Spot.Partners v P₁ P₂ z w) zs wm := by
    refine List.forall₂_iff_get.mpr ⟨hargs.length_eq, fun k hk hk' => ?_⟩
    obtain ⟨hn, hp⟩ := List.forall₂_iff_get.mp hargs |>.2 k hk hk'
    exact ⟨hn, hp _ _ _ _ (hzs _ (List.get_mem ..)).1
      (hws _ (hperm.mem_iff.mp (List.get_mem ..))).1⟩
  obtain ⟨B, hB, hroots, hpaired⟩ := exists_partners_below (hpairs.imp fun _ _ h => h.2)
    hperm hapart₁ hapart₂ h₁.le h₂.le (fun z hz => (hzs z hz).2) fun w hw => (hws w hw).2
  refine ⟨B, wm.map Spot.arg, hB, hroots, ?_, ?_⟩
  · rw [List.forall₂_map_left_iff, List.forall₂_map_right_iff]
    exact forall₂_and (hpairs.imp fun _ _ h => h.1) hpaired
  · exact hreorder'.map Spot.arg fun _ => rfl

/-- The nodes of a stored tree and of another way of writing it are partners. -/
theorem Stored.paired (h : Expr.Varies v e e') : ∀ {flow a i b j}, e'.Checks roles flow →
    Stored P₁ a e i → Stored P₂ b e' j → Partners v P₁ P₂ a i b j := by
  -- Induction on the two ways of writing; operands fill neighbouring stretches of both arenas,
  -- so the partners of the operands go together (`Partners.below`).
  induction h with
  | number =>
    intro flow a i b j _ h₁ h₂
    cases h₁ with
    | number h₁ =>
      cases h₂ with
      | number h₂ => exact ⟨_, .leaf a b, .literal ⟨rfl, rfl⟩ h₁ h₂ rfl⟩
  | bool =>
    intro flow a i b j _ h₁ h₂
    cases h₁ with
    | bool h₁ =>
      cases h₂ with
      | bool h₂ => exact ⟨_, .leaf a b, .literal ⟨rfl, rfl⟩ h₁ h₂ rfl⟩
  | text =>
    intro flow a i b j _ h₁ h₂
    cases h₁ with
    | text h₁ =>
      cases h₂ with
      | text h₂ => exact ⟨_, .leaf a b, .literal ⟨rfl, rfl⟩ h₁ h₂ rfl⟩
  | ident =>
    intro flow a i b j _ h₁ h₂
    cases h₁ with
    | ident h₁ =>
      cases h₂ with
      | ident h₂ => exact ⟨_, .leaf a b, .ident ⟨rfl, rfl⟩ h₁ h₂⟩
  | hole =>
    intro flow a i b j _ h₁ h₂
    cases h₁ with
    | hole h₁ =>
      cases h₂ with
      | hole h₂ => exact ⟨_, .leaf a b, .hole ⟨rfl, rfl⟩ h₁ h₂⟩
  | binary _ _ ihl ihr =>
    intro flow a i b j hc h₁ h₂
    obtain ⟨hcl, hcr⟩ := Expr.Checks.binary_iff.mp hc
    cases h₁ with
    | binary hl₁ hr₁ hnode₁ =>
      cases h₂ with
      | binary hl₂ hr₂ hnode₂ =>
        obtain ⟨B, hB, hroots, hl, hr⟩ := (ihl hcl hl₁ hl₂).below (ihr hcr hr₁ hr₂)
          hl₁.le hr₁.le hl₂.le hr₂.le
        exact ⟨B, hB, .binary hroots hnode₁ hnode₂ hl hr⟩
  | pipe _ _ ihs iht =>
    intro flow a i b j hc h₁ h₂
    obtain ⟨hcs, -, -, hct⟩ := Expr.Checks.pipe_iff.mp hc
    cases h₁ with
    | pipe hs₁ ht₁ hnode₁ =>
      cases h₂ with
      | pipe hs₂ ht₂ hnode₂ =>
        obtain ⟨B, hB, hroots, hs, ht⟩ := (ihs hcs hs₁ hs₂).below (iht hct ht₁ ht₂)
          hs₁.le ht₁.le hs₂.le ht₂.le
        exact ⟨B, hB, .pipe hroots hnode₁ hnode₂ hs ht⟩
  | call _ hplace hnames _ hreorder hcallee ih =>
    intro flow a i b j hc h₁ h₂
    obtain ⟨hvalues, -⟩ := Expr.Checks.call_iff.mp hc
    cases h₁ with
    | call hargs₁ hnode₁ =>
      cases h₂ with
      | call hargs₂ hnode₂ =>
        obtain ⟨B, mids, hB, hroots, hpaired, hreorder'⟩ := hargs₁.paired hargs₂ hreorder
          (forall₂_matches hnames fun q hq _ _ _ _ h h' => ih q hq
            (hvalues q.2 (hreorder.rearranged.perm.mem_iff.mp (List.of_mem_zip hq).2)) h h')
        refine ⟨B, hB, .call hroots hnode₁ hnode₂ hplace
          (map_name_of_matches hpaired) ?_ hreorder' ?_ hcallee⟩
        · exact fun q hq => ((List.forall₂_iff_zip.mp hpaired).2 hq).2
        · rw [hargs₂.names]
          exact hc.distinct
  | operator hs _ _ ihl ihr =>
    intro flow a i b j hc h₁ h₂
    obtain ⟨hvalues, -⟩ := Expr.Checks.call_iff.mp hc
    simp only [List.forall_mem_cons] at hvalues
    obtain ⟨hcl, hcr, -⟩ := hvalues
    cases h₁ with
    | binary hl₁ hr₁ hnode₁ =>
      cases h₂ with
      | call hargs₂ hnode₂ =>
        cases hargs₂ with
        | cons hl₂ hargs₂ =>
          cases hargs₂ with
          | cons hr₂ hargs₂ =>
            cases hargs₂
            obtain ⟨B, hB, hroots, hl, hr⟩ := (ihl hcl hl₁ hl₂).below (ihr hcr hr₁ hr₂)
              hl₁.le hr₁.le hl₂.le hr₂.le
            exact ⟨B, hB, .operator hroots hs hnode₁ hnode₂ hl hr⟩

/-! ## Resolved trees -/

/-- Partners that were read, and literals that were made for the same place of calls that are
partners. -/
inductive Adjoined (P₁ P₂ : Arena) (R₁ R₂ : Resolved) (B : Nat → Nat → Prop) : Nat → Nat → Prop
  | read : B x y → Adjoined P₁ P₂ R₁ R₂ B x y
  | made : B i j → P₁.size ≤ x → P₂.size ≤ y → R₁.patch.nodes.Passes i k x →
      R₂.patch.nodes.Passes j k y → Adjoined P₁ P₂ R₁ R₂ B x y

theorem Arena.Passes.unique {nodes : Arena} (h : nodes.Passes i k x) (h' : nodes.Passes i k y) :
    x = y := by
  obtain ⟨callee, args, s, hnode, hy⟩ := h'
  exact Option.some.inj ((h.of_node hnode).symm.trans hy)

theorem Adjoined.one {P₁ P₂ : Arena} {x y x' y' : Nat} (hB : Pairing (· < P₁.size) (· < P₂.size) B)
    (hu₁ : R₁.patch.nodes.Unshared P₁.size) (hu₂ : R₂.patch.nodes.Unshared P₂.size)
    (h : Adjoined P₁ P₂ R₁ R₂ B x y) (h' : Adjoined P₁ P₂ R₁ R₂ B x' y') : x = x' ↔ y = y' := by
  cases h with
  | read h =>
    cases h' with
    | read h' => exact hB.one h h'
    | made _ hx' hy' =>
      have := hB.left h
      have := hB.right h
      omega
  | made hij hx hy hp₁ hp₂ =>
    cases h' with
    | read h' =>
      have := hB.left h'
      have := hB.right h'
      omega
    | made hij' hx' hy' hp₁' hp₂' =>
      -- Nodes that were added have one place each, at one parent; parents correspond one to one.
      constructor
      · rintro rfl
        obtain ⟨rfl, rfl⟩ := hu₁.place hx hp₁ hp₁'
        obtain rfl := (hB.one hij hij').mp rfl
        exact hp₂.unique hp₂'
      · rintro rfl
        obtain ⟨rfl, rfl⟩ := hu₂.place hy hp₂ hp₂'
        obtain rfl := (hB.one hij hij').mpr rfl
        exact hp₁.unique hp₁'

/-- Names that stand for each other have the same parameters, and operators are functions of two. -/
structure SpelledAlike (v : Latitude) (T₁ T₂ : SymbolTable) : Prop where
  signatures : ∀ {callee callee' m₁ m₂ params₁ params₂}, v.Respells callee callee' →
    (T₁.lookup callee).map Symbol.meaning = some m₁ →
    (T₂.lookup callee').map Symbol.meaning = some m₂ →
    m₁.signature? = some params₁ → m₂.signature? = some params₂ → params₁ = params₂
  operators : ∀ {op : BinaryOp} {m params},
    (T₂.lookup op.functionName).map Symbol.meaning = some m →
    m.signature? = some params → params = Builtin.binary

theorem Supplies.binary {literal : NodeId → Float → Prop}
    (h : Binding.Supplies literal Builtin.binary [⟨none, x, t⟩, ⟨none, y, t'⟩] values) :
    values = [x, y] := by
  have hvalue : ∀ (k : Nat) a v, Binding.given Builtin.binary
      [⟨none, x, t⟩, ⟨none, y, t'⟩] k = some a →
        (Builtin.binary[k]?).isSome → values[k]? = some v → v = a.value := by
    intro k a v hgiven hp hv
    obtain ⟨p, hp⟩ := Option.isSome_iff_exists.mp hp
    cases h.supply k p v hp hv with
    | argument hg hva =>
      cases hgiven.symm.trans hg
      exact hva
    | literal hg | copy hg => cases hgiven.symm.trans hg
  match values, h.length with
  | [a, b], _ => rw [hvalue 0 _ a rfl rfl rfl, hvalue 1 _ b rfl rfl rfl]

theorem args_of_values {args : List (Arg NodeId)} (h : args.map Arg.value = [x, y])
    (hnames : ∀ a ∈ args, a.name = none) : ∃ t t', args = [⟨none, x, t⟩, ⟨none, y, t'⟩] := by
  match args, h, hnames with
  | [⟨_, _, t⟩, ⟨_, _, t'⟩], h, hnames =>
    simp only [List.map_cons, List.map_nil, List.cons.injEq, and_true] at h
    simp only [List.forall_mem_cons] at hnames
    obtain ⟨rfl, rfl⟩ := h
    obtain ⟨rfl, rfl, -⟩ := hnames
    exact ⟨t, t', rfl⟩

theorem CallResolved.paired {v : Manner} {B : Nat → Nat → Prop}
    {args₁ args₂ mid : List (Arg NodeId)} (hij : B i j)
    (h₁ : CallResolved R₁ T₁ P₁.size s₁ callee args₁ i)
    (h₂ : CallResolved R₂ T₂ P₂.size s₂ callee' args₂ j)
    (hmid : List.Forall₂ (Matches (Paired v R₁.patch.nodes R₂.patch.nodes (Adjoined P₁ P₂ R₁ R₂ B)))
      args₁ mid)
    (hreorder : v.Reorders Arg.name mid args₂) (hdistinct : (args₂.map Arg.name).reduceOption.Nodup)
    (hcallee : v.Respells callee callee') (hplace : v.placed → s₁ = s₂)
    (hsame : SpelledAlike v.toLatitude T₁ T₂) (hok : SignaturesOk T₁) :
    Paired v R₁.patch.nodes R₂.patch.nodes (Adjoined P₁ P₂ R₁ R₂ B) i j := by
  obtain ⟨hm₁, hsig₁, hsup₁, hnode₁, hnames₁, -⟩ := h₁
  obtain ⟨hm₂, hsig₂, hsup₂, hnode₂, hnames₂, -⟩ := h₂
  cases hsame.signatures hcallee hm₁ hm₂ hsig₁ hsig₂
  have hvalues := Supplies.rel hsup₁ (hsup₂.rearranged hreorder.rearranged.symm hdistinct)
    (hok.copies _ _ _ hm₁ hsig₁) hmid fun k _ _ _ hu hw hx hy =>
      .literal (.made hij hx.1 hy.1 ⟨_, _, _, hnode₁, hu⟩ ⟨_, _, _, hnode₂, hw⟩) hx.2 hy.2 rfl
  rw [List.forall₂_map_left_iff, List.forall₂_map_right_iff] at hvalues
  refine .call (.read hij) hnode₁ hnode₂ hplace ?_
    (fun q hq => (List.forall₂_iff_zip.mp hvalues).2 hq) (.refl v.toLatitude _ _) ?_ hcallee
  · rw [List.map_congr_left hnames₁, List.map_congr_left hnames₂, List.map_const', List.map_const',
      hvalues.length_eq]
  · rw [List.map_congr_left hnames₂, List.map_const', List.reduceOption_replicate_none]
    exact List.nodup_nil

/-- Partners are stood for by partners. -/
theorem Paired.rewritten {v : Manner} {P₁ P₂ : Arena} {B : Nat → Nat → Prop} (hok : SignaturesOk T₁)
    (hsame : SpelledAlike v.toLatitude T₁ T₂) (h : Paired v P₁ P₂ B i₁ i₂) :
    ∀ {source₁ source₂ j₁ j₂},
    Rewritten P₁ R₁ T₁ source₁ i₁ j₁ → Rewritten P₂ R₂ T₂ source₂ i₂ j₂ →
    Option.Rel (Paired v R₁.patch.nodes R₂.patch.nodes (Adjoined P₁ P₂ R₁ R₂ B)) source₁ source₂ →
    Paired v R₁.patch.nodes R₂.patch.nodes (Adjoined P₁ P₂ R₁ R₂ B) j₁ j₂ := by
  induction h with
  | literal hij hP₁ hP₂ hlit =>
    intro source₁ source₂ j₁ j₂ h₁ h₂ _
    obtain ⟨rfl, hR₁⟩ := h₁.of_literal hP₁ hlit
    obtain ⟨rfl, hR₂⟩ := h₂.of_literal hP₂ hlit
    exact .literal (.read hij) hR₁ hR₂ hlit
  | ident hij hP₁ hP₂ =>
    intro source₁ source₂ j₁ j₂ h₁ h₂ _
    obtain ⟨rfl, hR₁⟩ := h₁.of_ident hP₁
    obtain ⟨rfl, hR₂⟩ := h₂.of_ident hP₂
    exact .ident (.read hij) hR₁ hR₂
  | hole _ hP₁ hP₂ =>
    intro source₁ source₂ j₁ j₂ h₁ h₂ hsource
    obtain rfl := h₁.of_hole hP₁
    obtain rfl := h₂.of_hole hP₂
    cases hsource with
    | some h => exact h
  | binary hij hP₁ hP₂ _ _ ihl ihr =>
    intro source₁ source₂ j₁ j₂ h₁ h₂ hsource
    obtain ⟨rfl, _, _, hl₁, hr₁, hR₁⟩ := h₁.of_binary hP₁
    obtain ⟨rfl, _, _, hl₂, hr₂, hR₂⟩ := h₂.of_binary hP₂
    exact .binary (.read hij) hR₁ hR₂ (ihl hl₁ hl₂ hsource) (ihr hr₁ hr₂ hsource)
  | pipe _ hP₁ hP₂ _ _ ihs iht =>
    intro source₁ source₂ j₁ j₂ h₁ h₂ hsource
    obtain ⟨_, hs₁, ht₁⟩ := h₁.of_pipe hP₁
    obtain ⟨_, hs₂, ht₂⟩ := h₂.of_pipe hP₂
    exact iht ht₁ ht₂ (.some (ihs hs₁ hs₂ hsource))
  | call hij hP₁ hP₂ hplace hnames _ hreorder hdistinct hcallee ih =>
    intro source₁ source₂ j₁ j₂ h₁ h₂ hsource
    obtain ⟨rfl, _, hnames₁, hargs₁, hcall₁⟩ := h₁.of_call hP₁
    obtain ⟨rfl, _, hnames₂, hargs₂, hcall₂⟩ := h₂.of_call hP₂
    -- what stands for the arguments of the second call, in the order of the first
    obtain ⟨mid, hmid, hreorder'⟩ := hreorder.exists_forall₂ (fun _ _ h => h.1)
      (forall₂_matches hnames₂.symm hargs₂)
    refine CallResolved.paired hij hcall₁ hcall₂ ?_ hreorder' (hnames₂ ▸ hdistinct)
      hcallee hplace hsame hok
    exact matches_of_zip hnames hnames₁ (map_name_of_matches hmid).symm hargs₁
      (fun q hq => ((List.forall₂_iff_zip.mp hmid).2 hq).2) fun q hq _ _ hq₁ hq₂ =>
        ih q hq hq₁ hq₂ hsource
  | operator hij hs hP₁ hP₂ _ _ ihl ihr =>
    intro source₁ source₂ j₁ j₂ h₁ h₂ hsource
    obtain ⟨rfl, _, _, hl₁, hr₁, hR₁⟩ := h₁.of_binary hP₁
    obtain ⟨rfl, args, hnames, hargs, hcall⟩ := h₂.of_call hP₂
    match args, hnames, hargs, hcall with
    | [⟨_, l, _⟩, ⟨_, r, _⟩], hnames, hargs, hcall =>
      simp only [List.map_cons, List.map_nil, List.cons.injEq, and_true] at hnames
      obtain ⟨rfl, rfl⟩ := hnames
      simp only [List.zip_cons_cons, List.zip_nil_right, List.forall_mem_cons] at hargs
      obtain ⟨hm, hsig, hsup, hR₂, hnone, -⟩ := hcall
      cases hsame.operators hm hsig
      obtain ⟨t, t', rfl⟩ := args_of_values (Supplies.binary hsup) hnone
      exact .operator (.read hij) hs hR₁ hR₂ (ihl hl₁ hargs.1 hsource) (ihr hr₁ hargs.2.1 hsource)

end SignalPatch
