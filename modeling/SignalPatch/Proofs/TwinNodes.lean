import SignalPatch.Proofs.Derivation
import SignalPatch.Proofs.TreeMeaning

/-!
# One tree in two programs

A tree that stands in two programs fills a stretch of nodes in the arena of each, and its nodes
follow one another in the same order. So they correspond by their distance from the start of the
stretch (`Twins`). Resolution keeps this: nodes that correspond are stood for by nodes that
correspond, if both programs define the same functions (`Rewritten.twins`). Only the literals that
it makes for missing arguments may stand anywhere.
-/

namespace SignalPatch

open Resolving (SignaturesOk formal)

/-! ## Corresponding nodes -/

/-- Where a tree begins in two arenas, and how many nodes were read into each. -/
structure Frame where
  size₁ : Nat
  size₂ : Nat
  start₁ : Nat
  start₂ : Nat

def Frame.Level (f : Frame) (i j : Nat) : Prop := ∃ d, i = f.start₁ + d ∧ j = f.start₂ + d

/-- The two nodes were read, and are equally far from where the tree begins. -/
structure Frame.Aligned (f : Frame) (i j : NodeId) : Prop where
  level : f.Level i j
  lt₁ : i < f.size₁
  lt₂ : j < f.size₂

theorem Frame.Level.succ {f : Frame} (h : f.Level i j) : f.Level (i + 1) (j + 1) := by
  obtain ⟨d, rfl, rfl⟩ := h
  exact ⟨d + 1, rfl, rfl⟩

theorem Frame.Level.eq_iff {f : Frame} (h : f.Level i j) (h' : f.Level i' j') :
    i = i' ↔ j = j' := by
  obtain ⟨d, rfl, rfl⟩ := h
  obtain ⟨d', rfl, rfl⟩ := h'
  omega

/-- The trees below two nodes correspond, up to literals behind the nodes that were read. -/
inductive Twins (A₁ A₂ : Arena) (f : Frame) : NodeId → NodeId → Prop
  | literal : f.Aligned i j → A₁[i]? = some ⟨kind, s⟩ → A₂[j]? = some ⟨kind, s'⟩ → kind.isLiteral →
      Twins A₁ A₂ f i j
  | fresh : f.size₁ ≤ i → f.size₂ ≤ j → A₁[i]? = some ⟨.number v, s⟩ →
      A₂[j]? = some ⟨.number v', s'⟩ → Twins A₁ A₂ f i j
  | ident : f.Aligned i j → A₁[i]? = some ⟨.ident x, s⟩ → A₂[j]? = some ⟨.ident x, s'⟩ →
      Twins A₁ A₂ f i j
  | hole : f.Aligned i j → A₁[i]? = some ⟨.hole, s⟩ → A₂[j]? = some ⟨.hole, s'⟩ → Twins A₁ A₂ f i j
  | binary : f.Aligned i j → A₁[i]? = some ⟨.binary op lhs rhs, s⟩ →
      A₂[j]? = some ⟨.binary op lhs' rhs', s'⟩ → Twins A₁ A₂ f lhs lhs' → Twins A₁ A₂ f rhs rhs' →
      Twins A₁ A₂ f i j
  | pipe : f.Aligned i j → A₁[i]? = some ⟨.pipe source target, s⟩ →
      A₂[j]? = some ⟨.pipe source' target', s'⟩ → Twins A₁ A₂ f source source' →
      Twins A₁ A₂ f target target' → Twins A₁ A₂ f i j
  | call : f.Aligned i j → A₁[i]? = some ⟨.call callee args, s⟩ →
      A₂[j]? = some ⟨.call callee args', s'⟩ → args.map Arg.name = args'.map Arg.name →
      (∀ q ∈ args.zip args', Twins A₁ A₂ f q.1.value q.2.value) → Twins A₁ A₂ f i j

namespace Twins

theorem aligned_or_fresh (h : Twins A₁ A₂ f i j) : f.Aligned i j ∨ f.size₁ ≤ i ∧ f.size₂ ≤ j ∧
    (∃ v s, A₁[i]? = some ⟨.number v, s⟩) ∧ ∃ v s, A₂[j]? = some ⟨.number v, s⟩ := by
  cases h with
  | fresh hi hj h₁ h₂ => exact .inr ⟨hi, hj, ⟨_, _, h₁⟩, _, _, h₂⟩
  | _ ha => exact .inl ha

theorem of_literal (h : Twins A₁ A₂ f i j) (hnode : A₁[i]? = some ⟨kind, s⟩)
    (hlit : kind.isLiteral) :
    ∃ kind' s', A₂[j]? = some ⟨kind', s'⟩ ∧ kind'.isLiteral ∧ (f.Aligned i j → kind' = kind) := by
  cases h with
  | literal _ h₁ h₂ hlit' =>
    cases hnode.symm.trans h₁
    exact ⟨_, _, h₂, hlit, fun _ => rfl⟩
  | fresh hi _ _ h₂ => exact ⟨_, _, h₂, rfl, fun ha => absurd ha.lt₁ (Nat.not_lt.mpr hi)⟩
  | _ _ h₁ =>
    cases hnode.symm.trans h₁
    cases hlit

theorem of_ident (h : Twins A₁ A₂ f i j) (hnode : A₁[i]? = some ⟨.ident x, s⟩) :
    ∃ s', A₂[j]? = some ⟨.ident x, s'⟩ := by
  cases h with
  | literal _ h₁ _ hlit =>
    cases hnode.symm.trans h₁
    cases hlit
  | fresh _ _ h₁ => cases hnode.symm.trans h₁
  | ident _ h₁ h₂ =>
    cases hnode.symm.trans h₁
    exact ⟨_, h₂⟩
  | _ _ h₁ => cases hnode.symm.trans h₁

theorem of_binary (h : Twins A₁ A₂ f i j) (hnode : A₁[i]? = some ⟨.binary op lhs rhs, s⟩) :
    ∃ lhs' rhs' s', A₂[j]? = some ⟨.binary op lhs' rhs', s'⟩ ∧ Twins A₁ A₂ f lhs lhs' ∧
      Twins A₁ A₂ f rhs rhs' := by
  cases h with
  | literal _ h₁ _ hlit =>
    cases hnode.symm.trans h₁
    cases hlit
  | fresh _ _ h₁ => cases hnode.symm.trans h₁
  | binary _ h₁ h₂ hl hr =>
    cases hnode.symm.trans h₁
    exact ⟨_, _, _, h₂, hl, hr⟩
  | _ _ h₁ => cases hnode.symm.trans h₁

theorem of_call (h : Twins A₁ A₂ f i j) (hnode : A₁[i]? = some ⟨.call callee args, s⟩) :
    ∃ args' s', A₂[j]? = some ⟨.call callee args', s'⟩ ∧
      List.Forall₂ (fun a a' => Twins A₁ A₂ f a.value a'.value) args args' := by
  cases h with
  | literal _ h₁ _ hlit =>
    cases hnode.symm.trans h₁
    cases hlit
  | fresh _ _ h₁ => cases hnode.symm.trans h₁
  | call _ h₁ h₂ hnames hargs =>
    cases hnode.symm.trans h₁
    have hlen := congrArg List.length hnames
    rw [List.length_map, List.length_map] at hlen
    exact ⟨_, _, h₂, List.forall₂_iff_zip.mpr ⟨hlen, fun {a b} hq => hargs (a, b) hq⟩⟩
  | _ _ h₁ => cases hnode.symm.trans h₁

end Twins

def frame (P₁ P₂ : Arena) (start₁ start₂ : Nat) : Frame := ⟨P₁.size, P₂.size, start₁, start₂⟩

theorem Frame.Level.aligned {P₁ P₂ : Arena} {i j : NodeId} (h : (frame P₁ P₂ c₁ c₂).Level i j)
    (hi : P₁[i]? = some node) (hj : P₂[j]? = some node') : (frame P₁ P₂ c₁ c₂).Aligned i j :=
  ⟨h, (Array.getElem?_eq_some_iff.mp hi).1, (Array.getElem?_eq_some_iff.mp hj).1⟩

mutual

/-- Trees of one shape that begin level have corresponding nodes. -/
theorem Stored.twins : Stored P₁ a₁ e₁ i → Stored P₂ a₂ e₂ j → e₁.shape = e₂.shape →
    (frame P₁ P₂ c₁ c₂).Level a₁ a₂ →
    (frame P₁ P₂ c₁ c₂).Level i j ∧ Twins P₁ P₂ (frame P₁ P₂ c₁ c₂) i j
  | .number h, h', heq, ha | .bool h, h', heq, ha | .text h, h', heq, ha => by
    cases h' <;> cases heq
    rename_i h'
    exact ⟨ha, .literal (ha.aligned h h') h h' rfl⟩
  | .ident h, h', heq, ha => by
    cases h' <;> cases heq
    rename_i h'
    exact ⟨ha, .ident (ha.aligned h h') h h'⟩
  | .hole h, h', heq, ha => by
    cases h' <;> cases heq
    rename_i h'
    exact ⟨ha, .hole (ha.aligned h h') h h'⟩
  | .binary hl hr h, h', heq, ha => by
    cases h' with
    | binary hl' hr' h' =>
      simp only [Expr.shape, Shape.binary.injEq] at heq
      obtain ⟨rfl, hlhs, hrhs⟩ := heq
      -- the left operand ends level, so the right one begins level
      obtain ⟨hi, hlhs⟩ := hl.twins hl' hlhs ha
      obtain ⟨hj, hrhs⟩ := hr.twins hr' hrhs hi.succ
      exact ⟨hj.succ, .binary (hj.succ.aligned h h') h h' hlhs hrhs⟩
    | _ => cases heq
  | .pipe hl hr h, h', heq, ha => by
    cases h' with
    | pipe hl' hr' h' =>
      simp only [Expr.shape, Shape.pipe.injEq] at heq
      obtain ⟨hsource, htarget⟩ := heq
      obtain ⟨hi, hsource⟩ := hl.twins hl' hsource ha
      obtain ⟨hj, htarget⟩ := hr.twins hr' htarget hi.succ
      exact ⟨hj.succ, .pipe (hj.succ.aligned h h') h h' hsource htarget⟩
    | _ => cases heq
  | .call hargs h, h', heq, ha => by
    cases h' with
    | call hargs' h' =>
      simp only [Expr.shape, Shape.call.injEq] at heq
      obtain ⟨rfl, heq⟩ := heq
      obtain ⟨hb, hnames, hvalues⟩ := hargs.twins hargs' heq ha
      exact ⟨hb, .call (hb.aligned h h') h h' hnames hvalues⟩
    | _ => cases heq

theorem StoredArgs.twins : StoredArgs P₁ a₁ es₁ args₁ b₁ → StoredArgs P₂ a₂ es₂ args₂ b₂ →
    argShapes es₁ = argShapes es₂ → (frame P₁ P₂ c₁ c₂).Level a₁ a₂ →
    (frame P₁ P₂ c₁ c₂).Level b₁ b₂ ∧ args₁.map Arg.name = args₂.map Arg.name ∧
      ∀ q ∈ args₁.zip args₂, Twins P₁ P₂ (frame P₁ P₂ c₁ c₂) q.1.value q.2.value
  | .nil, h', heq, ha => by
    cases h' with
    | nil => exact ⟨ha, rfl, by simp⟩
    | cons => cases heq
  | .cons hv hs, h', heq, ha => by
    cases h' with
    | nil => cases heq
    | cons hv' hs' =>
      simp only [argShapes, List.cons.injEq, Prod.mk.injEq] at heq
      obtain ⟨⟨rfl, hvalue⟩, heq⟩ := heq
      obtain ⟨hi, hvalue⟩ := hv.twins hv' hvalue ha
      obtain ⟨hb, hnames, hvalues⟩ := hs.twins hs' heq hi.succ
      refine ⟨hb, by rw [List.map_cons, List.map_cons, hnames], ?_⟩
      rw [List.zip_cons_cons]
      exact List.forall_mem_cons.mpr ⟨hvalue, hvalues⟩

end

/-! ## Calls -/

theorem Supplies.rel {Q : NodeId → NodeId → Prop} {literal₁ literal₂ : NodeId → Float → Prop}
    (h₁ : Binding.Supplies literal₁ params args₁ values₁)
    (h₂ : Binding.Supplies literal₂ params args₂ values₂)
    (hparams : Signature.CopiesRequired params) (hargs : List.Forall₂ (Matches Q) args₁ args₂)
    (hliteral : ∀ (k : Nat) v w x, values₁[k]? = some v → values₂[k]? = some w → literal₁ v x →
      literal₂ w x → Q v w) :
    List.Forall₂ Q values₁ values₂ := by
  have hargument : ∀ {k : Nat} {p v w a}, params[k]? = some p →
      Binding.given params args₁ k = some a →
        v = a.value → values₂[k]? = some w → Q v w := by
    intro k p v w a hp hgiven hvalue hw
    obtain ⟨b, hgiven', hQ⟩ := given_some hargs hgiven
    cases h₂.supply k p w hp hw with
    | argument hg hb =>
      cases hgiven'.symm.trans hg
      exact hvalue.symm ▸ hb ▸ hQ
    | literal hg | copy hg => cases hgiven'.symm.trans hg
  refine List.forall₂_iff_get.mpr ⟨h₁.length.trans h₂.length.symm, fun k hk hk' => ?_⟩
  have hv : values₁[k]? = some values₁[k] := List.getElem?_eq_getElem hk
  have hw : values₂[k]? = some values₂[k] := List.getElem?_eq_getElem hk'
  have hp : params[k]? = some (params.get ⟨k, h₁.length ▸ hk⟩) := List.getElem?_eq_getElem _
  cases h₁.supply k _ _ hp hv with
  | argument hgiven hvalue => exact hargument hp hgiven hvalue hw
  | literal hgiven hfallback hx =>
    have hgiven' := given_none hargs hgiven
    cases h₂.supply k _ _ hp hw with
    | argument hg => cases hgiven'.symm.trans hg
    | literal _ hfallback' hx' =>
      cases hfallback.symm.trans hfallback'
      exact hliteral k _ _ _ hv hw hx hx'
    | copy _ hfallback' => cases hfallback.symm.trans hfallback'
  | copy hgiven hfallback hj =>
    have hgiven' := given_none hargs hgiven
    cases h₂.supply k _ _ hp hw with
    | argument hg => cases hgiven'.symm.trans hg
    | literal _ hfallback' => cases hfallback.symm.trans hfallback'
    | copy _ hfallback' hj' =>
      cases hfallback.symm.trans hfallback'
      -- the parameter that is copied is required, so its value is an argument
      obtain ⟨q, hq, hreq⟩ := hparams _ (List.mem_of_getElem? hp) _ hfallback
      cases h₁.supply _ q _ hq hj with
      | argument hgiven hvalue => exact hargument hq hgiven hvalue hj'
      | literal _ hx _ | copy _ hx _ => cases hreq.symm.trans hx

def SameSignatures (T₁ T₂ : SymbolTable) : Prop :=
  ∀ {callee m₁ m₂ params₁ params₂}, (T₁.lookup callee).map Symbol.meaning = some m₁ →
    (T₂.lookup callee).map Symbol.meaning = some m₂ → m₁.signature? = some params₁ →
    m₂.signature? = some params₂ → params₁ = params₂

theorem CallResolved.twins {i j : NodeId} {f : Frame} (hi : f.Aligned i j)
    (h₁ : CallResolved R₁ T₁ f.size₁ s₁ callee args₁ i)
    (h₂ : CallResolved R₂ T₂ f.size₂ s₂ callee args₂ j)
    (hargs : List.Forall₂ (Matches (Twins R₁.patch.nodes R₂.patch.nodes f)) args₁ args₂)
    (hsame : SameSignatures T₁ T₂) (hok : SignaturesOk T₁) :
    Twins R₁.patch.nodes R₂.patch.nodes f i j := by
  obtain ⟨hm₁, hsig₁, hsup₁, hnode₁, hnames₁, -⟩ := h₁
  obtain ⟨hm₂, hsig₂, hsup₂, hnode₂, hnames₂, -⟩ := h₂
  cases hsame hm₁ hm₂ hsig₁ hsig₂
  have hvalues := Supplies.rel hsup₁ hsup₂ (hok.copies _ _ _ hm₁ hsig₁) hargs
    fun _ _ _ _ _ _ hv hw =>
    .fresh hv.1 hw.1 hv.2 hw.2
  rw [List.forall₂_map_left_iff, List.forall₂_map_right_iff] at hvalues
  refine .call hi hnode₁ hnode₂ ?_ fun q hq => (List.forall₂_iff_zip.mp hvalues).2 hq
  rw [List.map_congr_left hnames₁, List.map_congr_left hnames₂, List.map_const', List.map_const',
    hvalues.length_eq]

/-! ## Rewriting -/

namespace Rewritten

theorem of_literal (h : Rewritten P R T source i j) (hP : P[i]? = some node)
    (hlit : node.kind.isLiteral) :
    j = i ∧ R.patch.nodes[i]? = some node := by
  cases h with
  | literal hP' _ hR =>
    cases hP.symm.trans hP'
    exact ⟨rfl, hR⟩
  | _ hP' =>
    cases hP.symm.trans hP'
    cases hlit

theorem of_ident (h : Rewritten P R T source i j) (hP : P[i]? = some ⟨.ident x, s⟩) :
    j = i ∧ R.patch.nodes[i]? = some ⟨.ident x, s⟩ := by
  cases h <;> simp_all [NodeKind.isLiteral]

theorem of_hole (h : Rewritten P R T source i j) (hP : P[i]? = some ⟨.hole, s⟩) :
    source = some j := by
  cases h <;> simp_all [NodeKind.isLiteral]

theorem of_binary (h : Rewritten P R T source i j) (hP : P[i]? = some ⟨.binary op lhs rhs, s⟩) :
    j = i ∧ ∃ lhs' rhs', Rewritten P R T source lhs lhs' ∧ Rewritten P R T source rhs rhs' ∧
      R.patch.nodes[i]? = some ⟨.binary op lhs' rhs', s⟩ := by
  cases h with
  | literal hP' hlit =>
    cases hP.symm.trans hP'
    cases hlit
  | binary hP' hl hr hR =>
    cases hP.symm.trans hP'
    exact ⟨rfl, _, _, hl, hr, hR⟩
  | _ hP' => cases hP.symm.trans hP'

theorem of_pipe (h : Rewritten P R T source i j) (hP : P[i]? = some ⟨.pipe inflow target, s⟩) :
    ∃ inflow', Rewritten P R T source inflow inflow' ∧ Rewritten P R T (some inflow') target j := by
  cases h with
  | literal hP' hlit =>
    cases hP.symm.trans hP'
    cases hlit
  | pipe hP' hs ht =>
    cases hP.symm.trans hP'
    exact ⟨_, hs, ht⟩
  | _ hP' => cases hP.symm.trans hP'

theorem of_call (h : Rewritten P R T source i j) (hP : P[i]? = some ⟨.call callee args, s⟩) :
    j = i ∧ ∃ args', args'.map Arg.name = args.map Arg.name ∧
      (∀ q ∈ args.zip args', Rewritten P R T source q.1.value q.2.value) ∧
      CallResolved R T P.size s callee args' i := by
  cases h with
  | literal hP' hlit =>
    cases hP.symm.trans hP'
    cases hlit
  | call hP' hnames hargs hcall =>
    cases hP.symm.trans hP'
    exact ⟨rfl, _, hnames, hargs, hcall⟩
  | _ hP' => cases hP.symm.trans hP'

end Rewritten

theorem matches_of_zip {S V W : NodeId → NodeId → Prop}
    {args₁ args₂ args₁' args₂' : List (Arg NodeId)}
    (hnames : args₁.map Arg.name = args₂.map Arg.name)
    (hnames₁ : args₁'.map Arg.name = args₁.map Arg.name)
    (hnames₂ : args₂'.map Arg.name = args₂.map Arg.name)
    (h₁ : ∀ q ∈ args₁.zip args₁', V q.1.value q.2.value)
    (h₂ : ∀ q ∈ args₂.zip args₂', W q.1.value q.2.value)
    (hstep : ∀ q ∈ args₁.zip args₂, ∀ {i j}, V q.1.value i → W q.2.value j → S i j) :
    List.Forall₂ (Matches S) args₁' args₂' := by
  induction args₁ generalizing args₂ args₁' args₂' with
  | nil =>
    obtain rfl : args₂ = [] := by simpa using hnames.symm
    obtain rfl : args₁' = [] := by simpa using hnames₁
    obtain rfl : args₂' = [] := by simpa using hnames₂
    exact .nil
  | cons x₁ args₁ ih =>
    -- All four lists are of one length, so each has a first argument.
    obtain ⟨x₂, args₂, rfl⟩ : ∃ x xs, args₂ = x :: xs :=
      List.exists_cons_of_ne_nil (by rintro rfl; simp at hnames)
    obtain ⟨x₁', args₁', rfl⟩ : ∃ x xs, args₁' = x :: xs :=
      List.exists_cons_of_ne_nil (by rintro rfl; simp at hnames₁)
    obtain ⟨x₂', args₂', rfl⟩ : ∃ x xs, args₂' = x :: xs :=
      List.exists_cons_of_ne_nil (by rintro rfl; simp at hnames₂)
    simp only [List.map_cons, List.cons.injEq] at hnames hnames₁ hnames₂
    simp only [List.zip_cons_cons, List.forall_mem_cons] at h₁ h₂ hstep
    refine .cons ⟨?_, hstep.1 h₁.1 h₂.1⟩ (ih hnames.2 hnames₁.2 hnames₂.2 h₁.2 h₂.2 hstep.2)
    rw [hnames₁.1, hnames.1, hnames₂.1]

/-- Nodes that correspond are stood for by nodes that correspond. -/
theorem Twins.rewritten (hok : SignaturesOk T₁) (hsame : SameSignatures T₁ T₂)
    (ht : Twins P₁ P₂ (frame P₁ P₂ c₁ c₂) i₁ i₂) : ∀ {source₁ source₂ j₁ j₂},
    Rewritten P₁ R₁ T₁ source₁ i₁ j₁ → Rewritten P₂ R₂ T₂ source₂ i₂ j₂ →
    Option.Rel (Twins R₁.patch.nodes R₂.patch.nodes (frame P₁ P₂ c₁ c₂)) source₁ source₂ →
    Twins R₁.patch.nodes R₂.patch.nodes (frame P₁ P₂ c₁ c₂) j₁ j₂ := by
  induction ht with
  | literal ha hP₁ hP₂ hlit =>
    intro source₁ source₂ j₁ j₂ h₁ h₂ _
    obtain ⟨rfl, hR₁⟩ := h₁.of_literal hP₁ hlit
    obtain ⟨rfl, hR₂⟩ := h₂.of_literal hP₂ hlit
    exact .literal ha hR₁ hR₂ hlit
  | fresh hle _ hP₁ => exact absurd hle (Nat.not_le.mpr (Array.getElem?_eq_some_iff.mp hP₁).1)
  | ident ha hP₁ hP₂ =>
    intro source₁ source₂ j₁ j₂ h₁ h₂ _
    obtain ⟨rfl, hR₁⟩ := h₁.of_ident hP₁
    obtain ⟨rfl, hR₂⟩ := h₂.of_ident hP₂
    exact .ident ha hR₁ hR₂
  | hole _ hP₁ hP₂ =>
    intro source₁ source₂ j₁ j₂ h₁ h₂ hsource
    obtain rfl := h₁.of_hole hP₁
    obtain rfl := h₂.of_hole hP₂
    cases hsource with
    | some ht => exact ht
  | binary ha hP₁ hP₂ _ _ ihl ihr =>
    intro source₁ source₂ j₁ j₂ h₁ h₂ hsource
    obtain ⟨rfl, _, _, hl₁, hr₁, hR₁⟩ := h₁.of_binary hP₁
    obtain ⟨rfl, _, _, hl₂, hr₂, hR₂⟩ := h₂.of_binary hP₂
    exact .binary ha hR₁ hR₂ (ihl hl₁ hl₂ hsource) (ihr hr₁ hr₂ hsource)
  | pipe _ hP₁ hP₂ _ _ ihs iht =>
    intro source₁ source₂ j₁ j₂ h₁ h₂ hsource
    obtain ⟨_, hs₁, ht₁⟩ := h₁.of_pipe hP₁
    obtain ⟨_, hs₂, ht₂⟩ := h₂.of_pipe hP₂
    -- the target is rewritten with what became of the source in its holes
    exact iht ht₁ ht₂ (.some (ihs hs₁ hs₂ hsource))
  | call ha hP₁ hP₂ hnames _ ih =>
    intro source₁ source₂ j₁ j₂ h₁ h₂ hsource
    obtain ⟨rfl, _, hnames₁, hargs₁, hcall₁⟩ := h₁.of_call hP₁
    obtain ⟨rfl, _, hnames₂, hargs₂, hcall₂⟩ := h₂.of_call hP₂
    refine CallResolved.twins ha hcall₁ hcall₂ ?_ hsame hok
    exact matches_of_zip hnames hnames₁ hnames₂ hargs₁ hargs₂ fun q hq _ _ hq₁ hq₂ =>
      ih q hq hq₁ hq₂ hsource

/-! ## Programs with the same functions -/

/-- The programs define the same functions, wherever the definitions stand. -/
def SameDefinitions (program₁ program₂ : List Statement) : Prop :=
  ∀ name params body, .define name params body ∈ program₁.map Statement.shape ↔
    .define name params body ∈ program₂.map Statement.shape

theorem SameDefinitions.symm (h : SameDefinitions program₁ program₂) :
    SameDefinitions program₂ program₁ :=
  fun name params body => (h name params body).symm

/-- The functions have the same name and the same parameters, and their bodies correspond. -/
structure TwinFunctions (P₁ P₂ : Arena) (R₁ R₂ : Resolved) (f₁ f₂ : Function) : Prop where
  name : f₁.name = f₂.name
  params : f₁.params = f₂.params
  bodies : ∃ c₁ c₂ i₁ i₂ params₁ params₂ body₁ body₂ s₁ s₂,
    Twins P₁ P₂ (frame P₁ P₂ c₁ c₂) i₁ i₂ ∧
    R₁.patch.nodes[f₁.definition]? = some ⟨.define f₁.name params₁ body₁, s₁⟩ ∧
    Rewritten P₁ R₁ (.above R₁.symbols.globals (bodyScope params₁)) none i₁ body₁ ∧
    R₂.patch.nodes[f₂.definition]? = some ⟨.define f₂.name params₂ body₂, s₂⟩ ∧
    Rewritten P₂ R₂ (.above R₂.symbols.globals (bodyScope params₂)) none i₂ body₂

inductive TwinMeanings (P₁ P₂ : Arena) (R₁ R₂ : Resolved) : Meaning → Meaning → Prop
  | builtin : TwinMeanings P₁ P₂ R₁ R₂ (.builtin b) (.builtin b)
  | function : TwinFunctions P₁ P₂ R₁ R₂ f₁ f₂ →
      TwinMeanings P₁ P₂ R₁ R₂ (.function f₁) (.function f₂)

theorem TwinMeanings.signature (h : TwinMeanings P₁ P₂ R₁ R₂ m₁ m₂) :
    m₁.signature? = m₂.signature? := by
  cases h with
  | builtin => rfl
  | function h => exact congrArg some h.params

theorem Elaborated.calls_cases (h : Elaborated P ids R) (hcalls : R.Calls callee m) :
    (∃ b, m = .builtin b) ∨ ∃ f, m = .function f := by
  obtain ⟨s, hnamed, rfl⟩ := Option.map_eq_some_iff.mp hcalls
  cases h.globals.known s (Scope.named?_eq_some hnamed).1 with
  | builtin b hb => exact .inl ⟨b, hb⟩
  | function i name params body span _ _ hsym => exact .inr ⟨_, congrArg Symbol.meaning hsym⟩

theorem map_formal_eq {params₁ params₂ : List Parameter}
    (h : params₁.map Parameter.shape = params₂.map Parameter.shape) :
    params₁.map formal = params₂.map formal := by
  have hformal : formal = (fun q : String × Option Float => formal ⟨q.1, q.2, .origin⟩) ∘
      Parameter.shape := rfl
  rw [hformal, ← List.map_map, h, List.map_map]

section

variable (hE₁ : Elaborated P₁ ids₁ R₁) (hs₁ : StoredList P₁ 0 program₁ ids₁)
  (hE₂ : Elaborated P₂ ids₂ R₂) (hs₂ : StoredList P₂ 0 program₂ ids₂)
  (hdefs : SameDefinitions program₁ program₂)

include hE₁ hs₁ hE₂ hs₂ hdefs

theorem exists_twinFunction (hcalls : R₁.Calls callee (.function f₁)) :
    ∃ f₂, R₂.Calls callee (.function f₂) ∧ TwinFunctions P₁ P₂ R₁ R₂ f₁ f₂ := by
  obtain ⟨s, hnamed, hm⟩ := Option.map_eq_some_iff.mp hcalls
  obtain ⟨hmem, rfl⟩ := Scope.named?_eq_some hnamed
  cases hE₁.globals.known s hmem with
  | builtin b hb => cases hb.symm.trans hm
  | function i name params body span hi hP hsym =>
    subst hsym
    cases hm
    obtain ⟨a, st, hst, -, hstored⟩ := hs₁.statement hi
    obtain ⟨e, rfl, -, hbody⟩ := hstored.of_define hP
    obtain ⟨st', hst', hshape⟩ := List.mem_map.mp ((hdefs _ _ _).mp (List.mem_map_of_mem hst))
    cases st' with
    | define name' params' e' span' =>
      simp only [Statement.shape, StatementShape.define.injEq] at hshape
      obtain ⟨rfl, hparams, he⟩ := hshape
      obtain ⟨a', i', hi', hstored'⟩ := hs₂.stored hst'
      cases hstored' with
      | define hbody' hP' =>
        obtain ⟨-, -, _, hR, hrew⟩ := hE₁.functions _ hi _ _ _ _ hP
        obtain ⟨-, -, _, hR', hrew'⟩ := hE₂.functions _ hi' _ _ _ _ hP'
        refine ⟨_, hE₂.calls_definition hi' hP', rfl, (map_formal_eq hparams).symm, ?_⟩
        exact ⟨a, a', _, _, _, _, _, _, _, _, (hbody.twins hbody' he.symm ⟨0, rfl, rfl⟩).2,
          hR, hrew, hR', hrew'⟩
    | _ => cases hshape

theorem twinMeanings (hcalls₁ : R₁.Calls callee m₁) (hcalls₂ : R₂.Calls callee m₂) :
    TwinMeanings P₁ P₂ R₁ R₂ m₁ m₂ := by
  rcases hE₁.calls_cases hcalls₁ with ⟨b, rfl⟩ | ⟨f, rfl⟩
  · rcases hE₂.calls_cases hcalls₂ with ⟨b', rfl⟩ | ⟨f, rfl⟩
    · cases (hE₁.builtin hs₁ hcalls₁).2.symm.trans (hE₂.builtin hs₂ hcalls₂).2
      exact .builtin
    · obtain ⟨f', hcalls, -⟩ := exists_twinFunction hE₂ hs₂ hE₁ hs₁ hdefs.symm hcalls₂
      cases hcalls₁.symm.trans hcalls
  · obtain ⟨f', hcalls, htwin⟩ := exists_twinFunction hE₁ hs₁ hE₂ hs₂ hdefs hcalls₁
    cases hcalls₂.symm.trans hcalls
    exact .function htwin

/-- Trees of one shape are stood for by nodes that correspond. -/
theorem Rewritten.twins (hvalues₁ : ∀ s ∈ scope₁, s.isValue) (hvalues₂ : ∀ s ∈ scope₂, s.isValue)
    (h₁ : Rewritten P₁ R₁ (.above R₁.symbols.globals scope₁) none i₁ j₁)
    (h₂ : Rewritten P₂ R₂ (.above R₂.symbols.globals scope₂) none i₂ j₂)
    (ht : Twins P₁ P₂ (frame P₁ P₂ c₁ c₂) i₁ i₂) :
    Twins R₁.patch.nodes R₂.patch.nodes (frame P₁ P₂ c₁ c₂) j₁ j₂ := by
  refine ht.rewritten (hE₁.globals.signaturesOk hvalues₁) ?_ h₁ h₂ .none
  intro callee m₁ m₂ params₁ params₂ hm₁ hm₂ hsig₁ hsig₂
  have htwin := twinMeanings hE₁ hs₁ hE₂ hs₂ hdefs (.of_lookup hvalues₁ hm₁ hsig₁)
    (.of_lookup hvalues₂ hm₂ hsig₂)
  exact Option.some.inj (hsig₁.symm.trans (htwin.signature.trans hsig₂))

theorem TwinFunctions.twins (h : TwinFunctions P₁ P₂ R₁ R₂ f₁ f₂)
    (hdef₁ : R₁.patch.nodes[f₁.definition]? = some ⟨.define f₁.name params₁ body₁, s₁⟩)
    (hdef₂ : R₂.patch.nodes[f₂.definition]? = some ⟨.define f₂.name params₂ body₂, s₂⟩) :
    ∃ c₁ c₂, Twins R₁.patch.nodes R₂.patch.nodes (frame P₁ P₂ c₁ c₂) body₁ body₂ := by
  obtain ⟨c₁, c₂, _, _, _, _, _, _, _, _, ht, hdef₁', hrew₁, hdef₂', hrew₂⟩ := h.bodies
  cases hdef₁.symm.trans hdef₁'
  cases hdef₂.symm.trans hdef₂'
  exact ⟨c₁, c₂, hrew₁.twins hE₁ hs₁ hE₂ hs₂ hdefs bodyScope_isValue bodyScope_isValue hrew₂ ht⟩

end

end SignalPatch
