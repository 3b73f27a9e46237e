import SignalPatch.Binding
import SignalPatch.Proofs.Storage

/-!
# Matching arguments, as callers see it

`given` says which argument of a call belongs to a parameter: the one at its place among those
without a name, or the one with its name. Where matching gives values, each parameter has its
argument, or else a fresh literal or the value of the parameter it copies, and no argument is left
over (`bind_supplies`).
-/

namespace SignalPatch

/-- Parameters copy only parameters that every call must supply. -/
def Signature.CopiesRequired (params : Signature) : Prop :=
  ∀ p ∈ params, ∀ j, p.fallback = .sameAs j → ∃ q, params[j]? = some q ∧ q.fallback = .required

def Issue.isMismatch : Issue → Bool
  | .tooFewArguments _ _ _ | .tooManyArguments _ _ _ | .unknownParameter _ _ | .duplicateArgument _
  | .positionalAfterNamed | .missingArgument _ _ => true
  | _ => false

namespace Binding

def given (params : Signature) (args : List (Arg α)) (k : Nat) : Option (Arg α) :=
  (args.filter (·.name.isNone))[k]?.or (args.find? fun a => a.name.bind params.index? == some k)

theorem mem_of_given (h : given params args k = some a) : a ∈ args := by
  rcases Option.or_eq_some_iff.mp h with h | ⟨_, h⟩
  · exact (List.mem_filter.mp (List.mem_of_getElem? h)).1
  · exact List.mem_of_find?_eq_some h

theorem index?_lt {params : Signature} (h : params.index? n = some k) : k < params.length :=
  (List.findIdx?_eq_some_iff_getElem.mp h).1

/-! ## Placing arguments -/

/-- What holds after arguments were placed without a finding. -/
structure Seated (params : Signature) (args : List (Arg NodeId)) (s : Seating) : Prop where
  length : s.slots.length = params.length
  positional : s.positional = (args.filter (·.name.isNone)).length
  named : s.named = args.any (·.name.isSome)
  slots : ∀ k < params.length, s.slots[k]? = some ((given params args k).map Arg.value)
  placed : ∀ a ∈ args, ∃ k, given params args k = some a ∧ (k < params.length ∨ k < s.positional)

theorem given_snoc_named {args : List (Arg NodeId)} (ha : a.name = some n) (k : Nat) :
    given params (args ++ [a]) k =
      (given params args k).or (if params.index? n = some k then some a else none) := by
  have hfind : ([a].find? fun a => a.name.bind params.index? == some k) =
      if params.index? n = some k then some a else none := by
    by_cases h : params.index? n = some k <;> simp [ha, h]
  simp only [given, List.filter_append, List.find?_append, hfind]
  simp [ha, Option.or_assoc]

theorem given_snoc_positional {args : List (Arg NodeId)} (ha : a.name = none)
    (hall : args.any (·.name.isSome) = false) (k : Nat) :
    given params (args ++ [a]) k =
      if k = (args.filter (·.name.isNone)).length then some a else given params args k := by
  have hfind : ∀ b ∈ args ++ [a], b.name = none := by
    intro b hb
    rcases List.mem_append.mp hb with hb | hb
    · simpa using List.any_eq_false.mp hall b hb
    · rwa [List.mem_singleton.mp hb]
  have hnone : (args ++ [a]).find? (fun b => b.name.bind params.index? == some k) = none :=
    List.find?_eq_none.mpr fun b hb => by simp [hfind b hb]
  have hnone' : args.find? (fun b => b.name.bind params.index? == some k) = none :=
    List.find?_eq_none.mpr fun b hb => by simp [hfind b (List.mem_append_left _ hb)]
  simp only [given, hnone, hnone', Option.or_none, List.filter_append]
  by_cases hk : k = (args.filter (·.name.isNone)).length
  · simp [hk, ha]
  · by_cases hlt : k < (args.filter (·.name.isNone)).length
    · simp [hk, List.getElem?_append_left hlt]
    · rw [if_neg hk, List.getElem?_eq_none (by simp [ha]; omega), List.getElem?_eq_none (by omega)]

theorem seat_findings (callee : String) (params : Signature) (s : Seating) (a : Arg NodeId) :
    s.findings <+: (seat callee params s a).findings := by
  unfold seat seatNamed seatPositional
  dsimp only [Seating.report]
  (repeat' split) <;> simp

theorem Seated.seatNamed (h : Seated params args s) (ha : a.name = some n)
    (hf : (seatNamed callee params s n a).findings = []) :
    Seated params (args ++ [a]) (seatNamed callee params s n a) := by
  unfold Binding.seatNamed at hf ⊢
  cases hi : params.index? n with
  | none => simp [hi, Seating.report] at hf
  | some i =>
    have hlt := index?_lt hi
    simp only [hi] at hf ⊢
    cases hs : s.slots[i]?.join with
    | some v => simp [hs, Seating.report] at hf
    | none =>
      -- The slot is free, so no argument before this one is for it.
      have hgi : given params args i = none := by
        rw [h.slots i hlt] at hs
        simpa using hs
      refine ⟨by simp [h.length], by simp [h.positional, ha], by simp [ha], ?_, ?_⟩
      · intro k hk
        rw [given_snoc_named ha, List.getElem?_set]
        by_cases hki : i = k
        · subst hki
          simp [h.length, hlt, hgi, hi]
        · simp [hki, h.slots k hk, hi]
      · intro b hb
        rcases List.mem_append.mp hb with hb | hb
        · obtain ⟨k, hk, hlt'⟩ := h.placed b hb
          exact ⟨k, by rw [given_snoc_named ha, hk, Option.some_or], hlt'⟩
        · obtain rfl := List.mem_singleton.mp hb
          exact ⟨i, by rw [given_snoc_named ha, hgi, hi]; simp, .inl hlt⟩

theorem given_positional_none {args : List (Arg α)} (hall : args.any (·.name.isSome) = false) :
    given params args (args.filter (·.name.isNone)).length = none := by
  have hfind : args.find? (fun b => b.name.bind params.index? ==
      some (args.filter (·.name.isNone)).length) = none :=
    List.find?_eq_none.mpr fun c hc => by
      have := List.any_eq_false.mp hall c hc
      simp at this
      simp [this]
  simp [given, hfind]

theorem Seated.seatPositional (h : Seated params args s) (ha : a.name = none)
    (hf : (seatPositional s a).findings = []) :
    Seated params (args ++ [a]) (seatPositional s a) := by
  unfold Binding.seatPositional at hf ⊢
  cases hn : s.named with
  | true => simp [hn, Seating.report] at hf
  | false =>
    -- No argument before this one has a name, so its place is the number of those before it.
    have hall : args.any (·.name.isSome) = false := h.named ▸ hn
    simp only [Bool.false_eq_true, ↓reduceIte]
    refine ⟨by simp [h.length], by simp [h.positional, ha], ?_, ?_, ?_⟩
    · simp [List.any_append, hall, ha]
    · intro k hk
      rw [given_snoc_positional ha hall, List.getElem?_set, h.positional]
      by_cases hkp : (args.filter (·.name.isNone)).length = k
      · simp [hkp, h.length, hk]
      · simp [hkp, Ne.symm hkp, h.slots k hk]
    · intro b hb
      rcases List.mem_append.mp hb with hb | hb
      · obtain ⟨k, hk, hlt⟩ := h.placed b hb
        have hne : k ≠ (args.filter (·.name.isNone)).length := by
          rintro rfl
          cases hk.symm.trans (given_positional_none hall)
        refine ⟨k, by rw [given_snoc_positional ha hall, if_neg hne, hk], ?_⟩
        rcases hlt with hlt | hlt
        · exact .inl hlt
        · exact .inr (Nat.lt_succ_of_lt hlt)
      · obtain rfl := List.mem_singleton.mp hb
        refine ⟨s.positional, ?_, .inr (Nat.lt_succ_self _)⟩
        rw [given_snoc_positional ha hall, h.positional, if_pos rfl]

theorem Seated.seat (h : Seated params args s) (hf : (seat callee params s a).findings = []) :
    Seated params (args ++ [a]) (seat callee params s a) := by
  unfold Binding.seat at hf ⊢
  cases ha : a.name with
  | some n =>
    simp only [ha] at hf ⊢
    exact h.seatNamed ha hf
  | none =>
    simp only [ha] at hf ⊢
    exact h.seatPositional ha hf

theorem Seated.foldl (rest : List (Arg NodeId)) (h : Seated params args s)
    (hf : (rest.foldl (Binding.seat callee params) s).findings = []) :
    Seated params (args ++ rest) (rest.foldl (Binding.seat callee params) s) := by
  induction rest generalizing args s with
  | nil => simpa using h
  | cons a rest ih =>
    have hmono : ∀ (rest : List (Arg NodeId)) (s : Seating),
        s.findings <+: (rest.foldl (Binding.seat callee params) s).findings := by
      intro rest
      induction rest with
      | nil => exact fun s => List.prefix_rfl
      | cons b rest ih => exact fun s => (seat_findings callee params s b).trans (ih _)
    have ha : (Binding.seat callee params s a).findings = [] := by
      have := hmono rest (Binding.seat callee params s a)
      rw [List.foldl_cons] at hf
      rw [hf] at this
      exact List.prefix_nil.mp this
    simpa using ih (h.seat ha) hf

theorem seatAll_seated (callee : String) (params : Signature) (args : List (Arg NodeId))
    (hf : (seatAll callee params args).findings = []) :
    Seated params args (seatAll callee params args) := by
  have hstart : Seated params [] { slots := params.map fun _ => none } := by
    refine ⟨by simp, rfl, rfl, ?_, by simp⟩
    intro k hk
    simp [given, hk]
  simpa [seatAll] using hstart.foldl args hf

/-! ## Filling what is left -/

/-- What holds after the first `j` parameters were filled, when `seated` were the slots before. -/
structure Filled (params : Signature) (span : Span) (nodes : Arena) (seated : List (Option NodeId))
    (j : Nat) (f : Filling) : Prop where
  grown : nodes.Extends f.nodes
  length : f.slots.length = seated.length
  ahead : ∀ k, j ≤ k → f.slots[k]? = seated[k]?
  kept : ∀ (k : Nat) (v : NodeId), seated[k]? = some (some v) → f.slots[k]? = some (some v)
  filled : ∀ (k : Nat) (p : Formal) (v : NodeId), k < j → params[k]? = some p →
    f.slots[k]? = some (some v) → seated[k]? = some (some v) ∨ seated[k]? = some none ∧
      ((∃ x, p.fallback = .value x ∧ nodes.size ≤ v ∧ f.nodes[v]? = some ⟨.number x, span⟩) ∨
        ∃ i, p.fallback = .sameAs i ∧ f.slots[i]? = some (some v))
  covered : f.missing = [] → ∀ (k : Nat) (p : Formal), k < j → params[k]? = some p →
    (∃ v, f.slots[k]? = some (some v)) ∨
      ∃ i, p.fallback = .sameAs i ∧ ∀ v, seated[i]? ≠ some (some v)

theorem Filled.leave (h : Filled params span nodes seated j f)
    (hj : (∃ v, f.slots[j]? = some (some v)) ∨ f.slots[j]? = some none ∧ missing ≠ [])
    (hmissing : missing = [] → f.missing = []) :
    Filled params span nodes seated (j + 1) { f with missing } := by
  refine ⟨h.grown, h.length, fun k hk => h.ahead k (by omega), h.kept, ?_, ?_⟩
  · intro k q w hk hq hw
    rcases Nat.lt_succ_iff_lt_or_eq.mp hk with hk | rfl
    · exact h.filled k q w hk hq hw
    · exact .inl (h.ahead k (Nat.le_refl _) ▸ hw)
  · intro hm k q hk hq
    rcases Nat.lt_succ_iff_lt_or_eq.mp hk with hk | rfl
    · exact h.covered (hmissing hm) k q hk hq
    · exact .inl (hj.resolve_right fun hnone => hnone.2 hm)

theorem Filled.put {nodes' : Arena} {o : Option NodeId} (h : Filled params span nodes seated j f)
    (hp : params[j]? = some p) (hj : f.slots[j]? = some none) (hnodes : f.nodes.Extends nodes')
    (hnew : ∀ v, o = some v →
      (∃ x, p.fallback = .value x ∧ nodes.size ≤ v ∧ nodes'[v]? = some ⟨.number x, span⟩) ∨
        ∃ i, p.fallback = .sameAs i ∧ f.slots[i]? = some (some v))
    (hcovered : (∃ v, o = some v) ∨ ∃ i, p.fallback = .sameAs i ∧ ∀ v, seated[i]? ≠ some (some v)) :
    Filled params span nodes seated (j + 1)
      { f with nodes := nodes', slots := f.slots.set j o } := by
  have hlt : j < f.slots.length := (List.getElem?_eq_some_iff.mp hj).1
  -- what is put into the free slot changes no slot that was filled
  have hother : ∀ (k : Nat) (v : NodeId), f.slots[k]? = some (some v) →
      (f.slots.set j o)[k]? = some (some v) := by
    intro k v hk
    have hne : j ≠ k := by
      rintro rfl
      simp [hj] at hk
    rw [List.getElem?_set_ne hne, hk]
  have hself : (f.slots.set j o)[j]? = some o := by simp [hlt]
  refine ⟨h.grown.trans hnodes, by simp [h.length], ?_, ?_, ?_, ?_⟩
  · intro k hk
    rw [List.getElem?_set_ne (by omega), h.ahead k (by omega)]
  · intro k v hk
    exact hother k v (h.kept k v hk)
  · intro k q w hk hq hw
    rcases Nat.lt_succ_iff_lt_or_eq.mp hk with hk | rfl
    · rw [List.getElem?_set_ne (by omega)] at hw
      rcases h.filled k q w hk hq hw with hin | ⟨hn, ⟨y, hy, hge, hnode⟩ | ⟨i, hi, hiw⟩⟩
      · exact .inl hin
      · have hlt' : w < f.nodes.size := (Array.getElem?_eq_some_iff.mp hnode).1
        exact .inr ⟨hn, .inl ⟨y, hy, hge, hnodes.2 w hlt' ▸ hnode⟩⟩
      · exact .inr ⟨hn, .inr ⟨i, hi, hother i w hiw⟩⟩
    · obtain rfl : p = q := Option.some.inj (hp.symm.trans hq)
      have hw : o = some w := Option.some.inj (hself.symm.trans hw)
      refine .inr ⟨h.ahead k (Nat.le_refl _) ▸ hj, (hnew w hw).imp id ?_⟩
      exact fun ⟨i, hi, hiw⟩ => ⟨i, hi, hother i w hiw⟩
  · intro hm k q hk hq
    rcases Nat.lt_succ_iff_lt_or_eq.mp hk with hk | rfl
    · exact (h.covered hm k q hk hq).imp (fun ⟨v, hv⟩ => ⟨v, hother k v hv⟩) id
    · obtain rfl : p = q := Option.some.inj (hp.symm.trans hq)
      exact hcovered.imp (fun ⟨v, hv⟩ => ⟨v, hv ▸ hself⟩) id

theorem Filled.fill (h : Filled params span nodes seated j f) (hp : params[j]? = some p)
    (hlen : j < seated.length) : Filled params span nodes seated (j + 1) (fill span f (p, j)) := by
  have hj : j < f.slots.length := h.length ▸ hlen
  simp only [Binding.fill]
  cases hs : f.slots[j]?.join with
  | some v => exact h.leave (.inl ⟨v, Option.join_eq_some_iff.mp hs⟩) id
  | none =>
    have hfree : f.slots[j]? = some none := by
      rw [List.getElem?_eq_getElem hj] at hs ⊢
      simpa using hs
    cases hfb : p.fallback with
    | required => exact h.leave (.inr ⟨hfree, by simp⟩) (by simp)
    | value x =>
      refine h.put hp hfree (Arena.extends_push f.nodes ⟨.number x, span⟩) ?_ (.inl ⟨_, rfl⟩)
      intro v hv
      obtain rfl : f.nodes.size = v := Option.some.inj hv
      exact .inl ⟨x, hfb, h.grown.1, Array.getElem?_push_size⟩
    | sameAs i =>
      refine h.put hp hfree (.refl _) ?_ ?_
      · exact fun v hv => .inr ⟨i, hfb, Option.join_eq_some_iff.mp hv⟩
      · by_cases hi : ∃ v, seated[i]? = some (some v)
        · obtain ⟨v, hv⟩ := hi
          exact .inl ⟨v, by simp [h.kept i v hv]⟩
        · exact .inr ⟨i, hfb, fun v hv => hi ⟨v, hv⟩⟩

theorem Filled.foldl (rest : Signature) (h : Filled params span nodes seated j f)
    (hdrop : params.drop j = rest) (hlen : seated.length = params.length) :
    Filled params span nodes seated params.length
      ((rest.zipIdx j).foldl (Binding.fill span) f) := by
  induction rest generalizing j f with
  | nil =>
    have hj : params.length ≤ j := List.drop_eq_nil_iff.mp hdrop
    refine ⟨h.grown, h.length, fun k hk => ?_, h.kept, fun k p v hk hp hv => ?_,
      fun hm k p hk hp => ?_⟩
    · rw [List.getElem?_eq_none (by simp [h.length]; omega), List.getElem?_eq_none (by omega)]
    · exact h.filled k p v (by omega) hp hv
    · exact h.covered hm k p (by omega) hp
  | cons p rest ih =>
    have hp : params[j]? = some p := by
      rw [← List.head?_drop, hdrop]
      rfl
    have hj : j < params.length := (List.getElem?_eq_some_iff.mp hp).1
    have hrest : params.drop (j + 1) = rest := by
      rw [← List.tail_drop, hdrop]
      rfl
    exact ih (h.fill hp (hlen ▸ hj)) hrest

theorem fillAll_filled (params : Signature) (span : Span) (nodes : Arena)
    (slots : List (Option NodeId)) (hlen : slots.length = params.length) :
    Filled params span nodes slots params.length (fillAll params span nodes slots) :=
  Filled.foldl params ⟨.refl nodes, rfl, fun _ _ => rfl, fun _ _ h => h, fun _ _ _ h => by omega,
    fun _ _ _ h => by omega⟩ rfl hlen

/-! ## The outcome -/

/-- How a parameter comes by its value: from its argument, as a fresh literal, or from the parameter
it copies. -/
inductive Supply (literal : NodeId → Float → Prop) (params : Signature) (args : List (Arg NodeId))
    (values : List NodeId) (k : Nat) (p : Formal) (v : NodeId) : Prop
  | argument : given params args k = some a → v = a.value → Supply literal params args values k p v
  | literal : given params args k = none → p.fallback = .value x → literal v x →
      Supply literal params args values k p v
  | copy : given params args k = none → p.fallback = .sameAs j → values[j]? = some v →
      Supply literal params args values k p v

/-- One value per parameter, and every argument is one of them. -/
structure Supplies (literal : NodeId → Float → Prop) (params : Signature)
    (args : List (Arg NodeId)) (values : List NodeId) : Prop where
  length : values.length = params.length
  supply : ∀ (k : Nat) (p : Formal) (v : NodeId), params[k]? = some p → values[k]? = some v →
    Supply literal params args values k p v
  used : ∀ a ∈ args, a.value ∈ values

theorem Supplies.mono {P Q : NodeId → Float → Prop} (h : Supplies P params args values)
    (hpq : ∀ v x, v ∈ values → P v x → Q v x) : Supplies Q params args values := by
  refine ⟨h.length, fun k p v hp hv => ?_, h.used⟩
  cases h.supply k p v hp hv with
  | argument hg ha => exact .argument hg ha
  | literal hg hx hl => exact .literal hg hx (hpq v _ (List.mem_of_getElem? hv) hl)
  | copy hg hj hjv => exact .copy hg hj hjv

theorem Supplies.origin (h : Supplies literal params args values)
    (hparams : Signature.CopiesRequired params) (hv : v ∈ values) :
    (∃ a ∈ args, v = a.value) ∨ ∃ x, literal v x := by
  obtain ⟨k, hk⟩ := List.mem_iff_getElem?.mp hv
  have hlt : k < params.length := h.length ▸ (List.getElem?_eq_some_iff.mp hk).1
  have hp : params[k]? = some params[k] := List.getElem?_eq_getElem hlt
  cases h.supply k _ v hp hk with
  | argument hg ha => exact .inl ⟨_, mem_of_given hg, ha⟩
  | literal _ _ hx => exact .inr ⟨_, hx⟩
  | copy _ hj hjv =>
    -- the parameter that is copied is required, so its value is an argument
    obtain ⟨q, hq, hreq⟩ := hparams _ (List.mem_of_getElem? hp) _ hj
    cases h.supply _ q v hq hjv with
    | argument hg ha => exact .inl ⟨_, mem_of_given hg, ha⟩
    | literal _ hx _ => rw [hreq] at hx; cases hx
    | copy _ hj' _ => rw [hreq] at hj'; cases hj'

theorem mapM_id_eq_some {slots : List (Option α)} (h : slots.mapM id = some values) :
    slots = values.map some := by
  induction slots generalizing values with
  | nil => simpa using h
  | cons o slots ih =>
    cases o with
    | none => simp at h
    | some v =>
      cases hm : slots.mapM id with
      | none => simp [hm] at h
      | some vs =>
        obtain rfl : v :: vs = values := by simpa [hm] using h
        rw [ih hm]
        rfl

theorem fillAll_extends (params : Signature) (span : Span) (nodes : Arena)
    (slots : List (Option NodeId)) : nodes.Extends (fillAll params span nodes slots).nodes := by
  have hfold : ∀ (ps : List (Formal × Nat)) (f : Filling), nodes.Extends f.nodes →
      nodes.Extends (ps.foldl (fill span) f).nodes := by
    intro ps
    induction ps with
    | nil => exact fun f h => h
    | cons p ps ih =>
      intro f h
      refine ih _ ?_
      unfold fill
      dsimp only
      (repeat' split) <;> try exact h
      exact h.trans (Arena.extends_push _ _)
  exact hfold _ _ (.refl nodes)

theorem bind_extends (callee : String) (params : Signature) (args : List (Arg NodeId)) (span : Span)
    (nodes : Arena) : nodes.Extends (bind callee params args span nodes).nodes :=
  fillAll_extends ..

theorem fillAll_fresh (params : Signature) (span : Span) (nodes : Arena)
    (slots : List (Option NodeId)) :
    ∀ (k : Nat) node, nodes.size ≤ k → (fillAll params span nodes slots).nodes[k]? = some node →
      ∃ x, node = ⟨.number x, span⟩ := by
  unfold fillAll
  apply List.foldlRecOn params.zipIdx (fill span) (motive := fun filled =>
    ∀ (k : Nat) node, nodes.size ≤ k → filled.nodes[k]? = some node →
      ∃ x, node = ⟨.number x, span⟩)
  · intro k node hk hnode
    have := (Array.getElem?_eq_some_iff.mp hnode).1
    dsimp only at this
    omega
  · rintro filled hfilled ⟨formal, i⟩ - k node hk hnode
    unfold fill at hnode
    dsimp only at hnode
    (repeat' split at hnode) <;> try exact hfilled k node hk hnode
    rw [Arena.add, Array.getElem?_push] at hnode
    split at hnode
    · cases hnode
      exact ⟨_, rfl⟩
    · exact hfilled k node hk hnode

theorem bind_fresh {nodes : Arena} {k : Nat} (hk : nodes.size ≤ k)
    (hnode : (bind callee params args span nodes).nodes[k]? = some node) :
    ∃ x, node = ⟨.number x, span⟩ :=
  fillAll_fresh _ _ _ _ k node hk hnode

theorem seat_reports {seated : Seating} {a : Arg NodeId}
    (h : f ∈ (seat callee params seated a).findings) :
    f ∈ seated.findings ∨ f.issue.isMismatch ∧ f.span = a.span := by
  revert h
  unfold seat seatNamed seatPositional
  dsimp only [Seating.report]
  (repeat' split) <;> try exact .inl
  all_goals
    intro hf
    refine (List.mem_append.mp hf).imp_right fun hf => ?_
    rw [List.mem_singleton.mp hf]
    exact ⟨rfl, rfl⟩

theorem bind_reports {nodes : Arena} (h : f ∈ (bind callee params args span nodes).findings) :
    f.issue.isMismatch ∧ (f.span = span ∨ ∃ a ∈ args, f.span = a.span) := by
  have hseated : ∀ f ∈ (seatAll callee params args).findings, f.issue.isMismatch ∧
      (f.span = span ∨ ∃ a ∈ args, f.span = a.span) := by
    refine List.foldlRecOn (motive := fun s : Seating => ∀ f ∈ s.findings, f.issue.isMismatch ∧
      (f.span = span ∨ ∃ a ∈ args, f.span = a.span)) args _ (by simp) fun s hs a ha f hf => ?_
    rcases seat_reports hf with hf | ⟨hissue, hspan⟩
    · exact hs f hf
    · exact ⟨hissue, .inr ⟨a, ha, hspan⟩⟩
  -- A finding is about one argument, or about the call as a whole.
  rcases List.mem_append.mp h with hf | hf
  · exact hseated f hf
  · obtain ⟨issue, hi, rfl⟩ := List.mem_map.mp hf
    refine ⟨?_, .inl rfl⟩
    rcases List.mem_append.mp hi with hi | hi
    · unfold surplus at hi
      split at hi <;> simp at hi
      subst hi
      rfl
    · unfold shortage at hi
      split at hi
      · simp at hi
      · split at hi
        · obtain ⟨name, _, rfl⟩ := List.mem_map.mp hi
          rfl
        · rw [List.mem_singleton.mp hi]
          rfl

theorem bind_isError (callee : String) (params : Signature) (args : List (Arg NodeId)) (span : Span)
    (nodes : Arena) : ∀ f ∈ (bind callee params args span nodes).findings, f.isError := by
  rintro ⟨issue, s⟩ hf
  have hissue := (bind_reports hf).1
  cases issue <;> first | rfl | cases hissue

/-- Where matching gives values they are the right ones, and nothing was wrong. -/
theorem bind_supplies (h : (bind callee params args span nodes).values = some values) :
    Supplies (fun v x => nodes.size ≤ v ∧
      (bind callee params args span nodes).nodes[v]? = some ⟨.number x, span⟩) params args values ∧
      (bind callee params args span nodes).findings = [] := by
  simp only [bind] at h
  split at h
  · rename_i hfs
    simp only [List.isEmpty_iff, List.append_eq_nil_iff, List.map_eq_nil_iff] at hfs
    obtain ⟨hseat, hsurplus, hshort⟩ := hfs
    have hs := seatAll_seated callee params args hseat
    have hf := fillAll_filled params span nodes (seatAll callee params args).slots hs.length
    have hslots := mapM_id_eq_some h
    have hget : ∀ (k : Nat) (v : NodeId), values[k]? = some v →
        (fillAll params span nodes (seatAll callee params args).slots).slots[k]? =
          some (some v) := by
      intro k v hv
      rw [hslots, List.getElem?_map, hv]
      rfl
    have hlen : values.length = params.length := by
      rw [← hs.length, ← hf.length, hslots, List.length_map]
    have hpos : (seatAll callee params args).positional ≤ params.length := by
      unfold surplus at hsurplus
      split at hsurplus
      · simp at hsurplus
      · omega
    refine ⟨⟨hlen, ?_, ?_⟩, by simp [bind, hseat, hsurplus, hshort]⟩
    · intro k p v hp hv
      have hk := (List.getElem?_eq_some_iff.mp hp).1
      -- a slot holds an argument, a literal default or what another slot holds
      rcases hf.filled k p v hk hp (hget k v hv) with hin | ⟨hn, ⟨x, hx, hge, hnode⟩ | ⟨i, hi, hiv⟩⟩
      · rw [hs.slots k hk] at hin
        obtain ⟨a, ha, rfl⟩ := Option.map_eq_some_iff.mp (Option.some.inj hin)
        exact .argument ha rfl
      · rw [hs.slots k hk] at hn
        exact .literal (by simpa using hn) hx ⟨hge, hnode⟩
      · rw [hs.slots k hk] at hn
        refine .copy (by simpa using hn) hi ?_
        rw [hslots, List.getElem?_map] at hiv
        simpa using hiv
    · intro a ha
      obtain ⟨k, hg, hk⟩ := hs.placed a ha
      have hk : k < params.length := by omega
      have hkept := hf.kept k a.value (by rw [hs.slots k hk, hg]; rfl)
      rw [hslots, List.getElem?_map] at hkept
      exact List.mem_of_getElem? (by simpa using hkept)
  · cases h

theorem mapM_id_isSome {slots : List (Option α)}
    (h : ∀ k < slots.length, ∃ v, slots[k]? = some (some v)) :
    ∃ values, slots.mapM id = some values := by
  induction slots with
  | nil => exact ⟨[], rfl⟩
  | cons o slots ih =>
    obtain ⟨v, hv⟩ := h 0 (by simp)
    obtain rfl : o = some v := by simpa using hv
    obtain ⟨vs, hvs⟩ := ih fun k hk => by simpa using h (k + 1) (by simpa using hk)
    exact ⟨v :: vs, by simp [hvs]⟩

theorem shortage_eq_nil (h : shortage callee params s missing = []) : missing = [] := by
  unfold shortage at h
  split at h
  · rename_i he
    simpa using he
  · rename_i he
    split at h
    · simp only [List.map_eq_nil_iff] at h
      simp [h] at he
    · simp at h

theorem Filled.required {params : Signature} {k : Nat} {p : Formal}
    (h : Filled params span nodes seated params.length f) (hmissing : f.missing = [])
    (hp : params[k]? = some p) (hreq : p.fallback = .required) :
    ∃ v, seated[k]? = some (some v) := by
  have hk := (List.getElem?_eq_some_iff.mp hp).1
  rcases h.covered hmissing k p hk hp with ⟨v, hv⟩ | ⟨i, hi, -⟩
  · rcases h.filled k p v hk hp hv with hin | ⟨-, ⟨x, hx, -⟩ | ⟨i, hi, -⟩⟩
    · exact ⟨v, hin⟩
    · simp [hreq] at hx
    · simp [hreq] at hi
  · simp [hreq] at hi

theorem bind_values_isSome (hparams : Signature.CopiesRequired params)
    (h : (bind callee params args span nodes).findings = []) :
    ∃ values, (bind callee params args span nodes).values = some values := by
  simp only [bind] at h ⊢
  rw [h]
  simp only [List.append_eq_nil_iff, List.map_eq_nil_iff] at h
  obtain ⟨hseat, -, hshort⟩ := h
  have hs := seatAll_seated callee params args hseat
  have hf := fillAll_filled params span nodes (seatAll callee params args).slots hs.length
  have hmissing := shortage_eq_nil hshort
  simp only [List.isEmpty_nil, ↓reduceIte]
  refine mapM_id_isSome fun k hk => ?_
  have hk : k < params.length := by rwa [hf.length, hs.length] at hk
  have hp : params[k]? = some (params[k]) := List.getElem?_eq_getElem hk
  rcases hf.covered hmissing k _ hk hp with hv | ⟨i, hi, hno⟩
  · exact hv
  · obtain ⟨q, hq, hreq⟩ := hparams _ (List.getElem_mem hk) i hi
    obtain ⟨v, hv⟩ := hf.required hmissing hq hreq
    exact absurd hv (hno v)

end Binding

end SignalPatch
