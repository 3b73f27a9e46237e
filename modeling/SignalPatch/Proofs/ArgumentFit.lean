import SignalPatch.Proofs.ArgumentMatching
import Mathlib.Data.List.Induction
import Mathlib.Data.List.Perm.Basic
import Mathlib.Data.List.ReduceOption

/-!
# Which arguments fit a signature

Whether the arguments of a call fit the parameters is a matter of their names alone: those without
one come first and are not too many, each name is that of a parameter that is still free, and no
required parameter is left out. `bind_findings_iff` says that matching reports nothing exactly then.

So the order of named arguments is irrelevant: `Fits.rearranged` for whether they fit,
`Rearranged.given_eq` for which of them each parameter gets.

The literals that matching makes for absent arguments are not shared: each stands in one place
(`bind_literal_place`).
-/

namespace SignalPatch.Binding

/-! ## Names that can be placed -/

structure Placeable (params : Signature) (names : List (Option String)) : Prop where
  ordered : names.Pairwise fun m n => n = none → m = none
  distinct : names.reduceOption.Nodup
  free : ∀ n, some n ∈ names → ∃ k, params.index? n = some k ∧ names.count none ≤ k

/-- Arguments of these names fit the parameters. -/
structure Fits (params : Signature) (names : List (Option String)) : Prop extends
    Placeable params names where
  room : names.count none ≤ params.length
  supplied : ∀ (k : Nat) (p : Formal), params[k]? = some p → p.fallback = .required →
    k < names.count none ∨ ∃ n, some n ∈ names ∧ params.index? n = some k

theorem length_positional (args : List (Arg α)) :
    (args.filter (·.name.isNone)).length = (args.map Arg.name).count none := by
  induction args with
  | nil => rfl
  | cons a args ih => cases h : a.name <;> simp [h, ih]

theorem given_eq_none_iff {args : List (Arg α)} : given params args k = none ↔
    (args.map Arg.name).count none ≤ k ∧
      ∀ n, some n ∈ args.map Arg.name → params.index? n ≠ some k := by
  rw [given, Option.or_eq_none_iff, List.getElem?_eq_none_iff, length_positional,
    List.find?_eq_none]
  refine and_congr_right fun _ => ⟨fun h n hn => ?_, fun h a ha => ?_⟩
  · obtain ⟨a, ha, hname⟩ := List.mem_map.mp hn
    simpa [hname] using h a ha
  · cases hname : a.name with
    | none => simp
    | some n => simpa using h n (List.mem_map.mpr ⟨a, ha, hname⟩)

theorem index?_inj {params : Signature} (hm : params.index? m = some k)
    (hn : params.index? n = some k) : m = n := by
  obtain ⟨_, hm, -⟩ := List.findIdx?_eq_some_iff_getElem.mp hm
  obtain ⟨_, hn, -⟩ := List.findIdx?_eq_some_iff_getElem.mp hn
  simp only [beq_iff_eq] at hm hn
  exact hm.symm.trans hn

theorem placeable_of_positional (h : ∀ n ∈ names, n = none) : Placeable params names := by
  rw [List.eq_replicate_of_mem h]
  refine ⟨List.pairwise_replicate.mpr (.inr fun _ => rfl), ?_, ?_⟩
  · rw [List.reduceOption_replicate_none]
    exact List.nodup_nil
  · intro n hn
    cases List.eq_of_mem_replicate hn

theorem placeable_snoc_positional : Placeable params (names ++ [none]) ↔ ∀ n ∈ names, n = none := by
  constructor
  · intro h n hn
    exact (List.pairwise_append.mp h.ordered).2.2 n hn none (by simp) rfl
  · intro hall
    refine placeable_of_positional fun n hn => ?_
    rcases List.mem_append.mp hn with hn | hn
    · exact hall n hn
    · exact List.mem_singleton.mp hn

theorem placeable_snoc_named : Placeable params (names ++ [some n]) ↔ Placeable params names ∧
    some n ∉ names ∧ ∃ k, params.index? n = some k ∧ names.count none ≤ k := by
  -- A named argument is counted with no positional one and adds its name at the end.
  have hcount : (names ++ [some n]).count none = names.count none := by simp
  have hreduce : (names ++ [some n]).reduceOption = names.reduceOption ++ [n] := by
    simp [List.reduceOption_append]
  constructor
  · rintro ⟨hordered, hdistinct, hfree⟩
    rw [hcount] at hfree
    rw [hreduce] at hdistinct
    obtain ⟨hdistinct, -, hn⟩ := List.nodup_append.mp hdistinct
    refine ⟨⟨(List.pairwise_append.mp hordered).1, hdistinct, fun m hm => hfree m (by simp [hm])⟩,
      ?_, hfree n (by simp)⟩
    exact fun hmem => hn n (List.reduceOption_mem_iff.mpr hmem) n (by simp) rfl
  · rintro ⟨h, hn, hk⟩
    refine ⟨?_, ?_, ?_⟩
    · refine List.pairwise_append.mpr ⟨h.ordered, by simp, ?_⟩
      intro m _ o ho ho'
      rw [List.mem_singleton.mp ho] at ho'
      cases ho'
    · rw [hreduce]
      refine List.nodup_append.mpr ⟨h.distinct, by simp, ?_⟩
      rintro m hm o ho rfl
      rw [List.mem_singleton.mp ho] at hm
      exact hn (List.reduceOption_mem_iff.mp hm)
    · intro m hm
      rw [hcount]
      rcases List.mem_append.mp hm with hm | hm
      · exact h.free m hm
      · obtain rfl : m = n := by simpa using hm
        exact hk

/-! ## Matching reports exactly the arguments that do not fit -/

theorem seatPositional_findings_iff (h : Seated params args s) (hs : s.findings = []) :
    (seatPositional s a).findings = [] ↔ ∀ n ∈ args.map Arg.name, n = none := by
  have hnamed : s.named = false ↔ ∀ n ∈ args.map Arg.name, n = none := by
    rw [h.named]
    simp
  rw [← hnamed, seatPositional]
  split
  · simp_all [Seating.report]
  · simp_all

theorem seatNamed_findings_iff (h : Seated params args s) (hs : s.findings = []) :
    (seatNamed callee params s n a).findings = [] ↔
      ∃ k, params.index? n = some k ∧ given params args k = none := by
  unfold seatNamed
  cases hi : params.index? n with
  | none => simp [Seating.report]
  | some k =>
    have hslot := h.slots k (index?_lt hi)
    cases hg : given params args k <;> simp [hslot, hg, hs, Seating.report]

theorem seatAll_findings_iff (callee : String) (params : Signature) (args : List (Arg NodeId)) :
    (seatAll callee params args).findings = [] ↔ Placeable params (args.map Arg.name) := by
  induction args using List.reverseRecOn with
  | nil => exact ⟨fun _ => ⟨by simp, by simp, by simp⟩, fun _ => rfl⟩
  | append_singleton args a ih =>
    have hstep : seatAll callee params (args ++ [a]) =
        seat callee params (seatAll callee params args) a := by
      simp [seatAll]
    have hbefore : (seatAll callee params (args ++ [a])).findings = [] →
        (seatAll callee params args).findings = [] := by
      intro hf
      have := seat_findings callee params (seatAll callee params args) a
      rw [← hstep, hf] at this
      exact List.prefix_nil.mp this
    rw [List.map_append, List.map_singleton]
    cases hname : a.name with
    | none =>
      have hseat : seatAll callee params (args ++ [a]) =
          seatPositional (seatAll callee params args) a := by
        rw [hstep, seat, hname]
      rw [placeable_snoc_positional]
      constructor
      · intro hf
        have hs := hbefore hf
        rw [hseat] at hf
        exact (seatPositional_findings_iff (seatAll_seated _ _ _ hs) hs).mp hf
      · intro hall
        have hs := ih.mpr (placeable_of_positional hall)
        rw [hseat]
        exact (seatPositional_findings_iff (seatAll_seated _ _ _ hs) hs).mpr hall
    | some n =>
      have hseat : seatAll callee params (args ++ [a]) =
          seatNamed callee params (seatAll callee params args) n a := by
        rw [hstep, seat, hname]
      rw [placeable_snoc_named, ← ih]
      -- the parameter is free if no argument came at its place and none of the same name
      have hfree : (∃ k, params.index? n = some k ∧ given params args k = none) ↔
          some n ∉ args.map Arg.name ∧
            ∃ k, params.index? n = some k ∧ (args.map Arg.name).count none ≤ k := by
        constructor
        · rintro ⟨k, hk, hg⟩
          obtain ⟨hcount, hnames⟩ := given_eq_none_iff.mp hg
          exact ⟨fun hmem => hnames n hmem hk, k, hk, hcount⟩
        · rintro ⟨hmem, k, hk, hcount⟩
          refine ⟨k, hk, given_eq_none_iff.mpr ⟨hcount, fun m hm hmk => hmem ?_⟩⟩
          rwa [index?_inj hk hmk]
      constructor
      · intro hf
        have hs := hbefore hf
        rw [hseat] at hf
        exact ⟨hs, hfree.mp ((seatNamed_findings_iff (seatAll_seated _ _ _ hs) hs).mp hf)⟩
      · rintro ⟨hs, hn⟩
        rw [hseat]
        exact (seatNamed_findings_iff (seatAll_seated _ _ _ hs) hs).mpr (hfree.mpr hn)

theorem fillAll_missing (params : Signature) (span : Span) (nodes : Arena)
    (slots : List (Option NodeId))
    (h : ∀ (k : Nat) (p : Formal), params[k]? = some p → p.fallback = .required →
      ∃ v, slots[k]? = some (some v)) :
    (fillAll params span nodes slots).missing = [] := by
  -- a slot that holds an argument keeps it, so a required parameter never finds its slot empty
  have hfold : ∀ f : Filling, f = params.zipIdx.foldl (fill span) { nodes, slots } →
      f.missing = [] ∧ ∀ (k : Nat) (v : NodeId), slots[k]? = some (some v) →
        f.slots[k]? = some (some v) := by
    rintro f rfl
    apply List.foldlRecOn params.zipIdx (fill span) (motive := fun f =>
      f.missing = [] ∧ ∀ (k : Nat) (v : NodeId), slots[k]? = some (some v) →
        f.slots[k]? = some (some v))
    · exact ⟨rfl, fun _ _ hv => hv⟩
    · rintro f ⟨hmissing, hkept⟩ ⟨p, i⟩ hmem
      have hp : params[i]? = some p := List.mem_zipIdx_iff_getElem?.mp hmem
      have hset : ∀ (o : Option NodeId), f.slots[i]?.join = none → ∀ (k : Nat) (v : NodeId),
          slots[k]? = some (some v) → (f.slots.set i o)[k]? = some (some v) := by
        intro o hempty k v hv
        have hne : i ≠ k := by
          rintro rfl
          simp [hkept i v hv] at hempty
        rw [List.getElem?_set_ne hne, hkept k v hv]
      unfold fill
      dsimp only
      split
      · exact ⟨hmissing, hkept⟩
      · rename_i hempty
        split
        · rename_i hreq
          obtain ⟨v, hv⟩ := h i p hp hreq
          simp [hkept i v hv] at hempty
        · exact ⟨hmissing, hset _ hempty⟩
        · exact ⟨hmissing, hset _ hempty⟩
  exact (hfold _ rfl).1

theorem given_isSome_iff {args : List (Arg α)} : (∃ a, given params args k = some a) ↔
    k < (args.map Arg.name).count none ∨
      ∃ n, some n ∈ args.map Arg.name ∧ params.index? n = some k := by
  rw [← Option.isSome_iff_exists, Option.isSome_iff_ne_none, ne_eq, given_eq_none_iff]
  grind

/-- Matching reports nothing exactly if the names of the arguments fit. -/
theorem bind_findings_iff (callee : String) (params : Signature) (args : List (Arg NodeId))
    (span : Span) (nodes : Arena) :
    (bind callee params args span nodes).findings = [] ↔ Fits params (args.map Arg.name) := by
  simp only [bind, List.append_eq_nil_iff, List.map_eq_nil_iff, seatAll_findings_iff]
  constructor
  · rintro ⟨hplace, hsurplus, hshort⟩
    -- Nothing was reported, so the slots hold what is given, and a slot that must be filled is.
    have hs := seatAll_seated callee params args ((seatAll_findings_iff ..).mpr hplace)
    have hf := fillAll_filled params span nodes (seatAll callee params args).slots hs.length
    refine ⟨hplace, ?_, ?_⟩
    · rw [← length_positional, ← hs.positional]
      unfold surplus at hsurplus
      split at hsurplus
      · cases hsurplus
      · omega
    · intro k p hp hreq
      have hmissing := shortage_eq_nil hshort
      obtain ⟨v, hv⟩ := hf.required hmissing hp hreq
      rw [hs.slots k (List.getElem?_eq_some_iff.mp hp).1] at hv
      obtain ⟨a, ha, -⟩ := Option.map_eq_some_iff.mp (Option.some.inj hv)
      exact given_isSome_iff.mp ⟨a, ha⟩
  · intro h
    have hs := seatAll_seated callee params args ((seatAll_findings_iff ..).mpr h.toPlaceable)
    refine ⟨h.toPlaceable, ?_, ?_⟩
    · rw [surplus, if_neg (by rw [hs.positional, length_positional]; exact Nat.not_lt.mpr h.room)]
    · rw [shortage, if_pos]
      rw [List.isEmpty_iff]
      refine fillAll_missing _ _ _ _ fun k p hp hreq => ?_
      obtain ⟨a, ha⟩ := given_isSome_iff.mpr (h.supplied k p hp hreq)
      exact ⟨a.value, by rw [hs.slots k (List.getElem?_eq_some_iff.mp hp).1, ha]; rfl⟩

/-! ## The order of named arguments -/

/-- The same arguments, with named ones at the end in another order. -/
def Rearranged (name : α → Option String) (xs ys : List α) : Prop :=
  ∃ front named named', xs = front ++ named ∧ ys = front ++ named' ∧ named.Perm named' ∧
    ∀ a ∈ named, name a ≠ none

theorem Rearranged.refl (name : α → Option String) (xs : List α) : Rearranged name xs xs :=
  ⟨xs, [], [], by simp, by simp, .refl _, by simp⟩

theorem Rearranged.symm (h : Rearranged name xs ys) : Rearranged name ys xs := by
  obtain ⟨front, named, named', hxs, hys, hperm, hnamed⟩ := h
  exact ⟨front, named', named, hys, hxs, hperm.symm, fun a ha => hnamed a (hperm.mem_iff.mpr ha)⟩

theorem Rearranged.perm (h : Rearranged name xs ys) : xs.Perm ys := by
  obtain ⟨front, named, named', rfl, rfl, hperm, -⟩ := h
  exact hperm.append_left front

theorem Rearranged.eq_of_unnamed {name : α → Option String} (h : Rearranged name xs ys)
    (hnames : ∀ y ∈ ys, name y = none) : xs = ys := by
  obtain ⟨front, named, named', rfl, rfl, hperm, hnamed⟩ := h
  obtain rfl : named = [] := List.eq_nil_iff_forall_not_mem.mpr fun a ha =>
    hnamed a ha (hnames a (List.mem_append_right front (hperm.mem_iff.mp ha)))
  rw [List.nil_perm.mp hperm]

theorem Rearranged.map {name : α → Option String} {name' : β → Option String} (f : α → β)
    (hf : ∀ a, name' (f a) = name a) (h : Rearranged name xs ys) :
    Rearranged name' (xs.map f) (ys.map f) := by
  obtain ⟨front, named, named', rfl, rfl, hperm, hnamed⟩ := h
  refine ⟨front.map f, named.map f, named'.map f, by simp, by simp, hperm.map f, ?_⟩
  intro b hb
  obtain ⟨a, ha, rfl⟩ := List.mem_map.mp hb
  rw [hf]
  exact hnamed a ha

theorem forall₂_append_left {r : α → β → Prop} {xs ys : List α} {zs : List β}
    (h : List.Forall₂ r (xs ++ ys) zs) :
    ∃ us vs, List.Forall₂ r xs us ∧ List.Forall₂ r ys vs ∧ zs = us ++ vs := by
  induction xs generalizing zs with
  | nil => exact ⟨[], zs, .nil, h, rfl⟩
  | cons x xs ih =>
    cases h with
    | cons hx h =>
      obtain ⟨us, vs, hus, hvs, rfl⟩ := ih h
      exact ⟨_ :: us, vs, .cons hx hus, hvs, rfl⟩

theorem map_eq_of_forall₂ {r : α → β → Prop} {f : α → γ} {g : β → γ}
    (hfg : ∀ a b, r a b → f a = g b) (h : List.Forall₂ r xs ys) : xs.map f = ys.map g := by
  induction h with
  | nil => rfl
  | cons hab _ ih => rw [List.map_cons, List.map_cons, hfg _ _ hab, ih]

theorem Rearranged.exists_forall₂ {name : α → Option String} {name' : β → Option String}
    {r : α → β → Prop} (hname : ∀ a b, r a b → name a = name' b) (h : Rearranged name xs ys)
    (hr : List.Forall₂ r ys zs) : ∃ ws, List.Forall₂ r xs ws ∧ Rearranged name' ws zs := by
  obtain ⟨front, named, named', rfl, rfl, hperm, hnamed⟩ := h
  obtain ⟨front₂, named₂', hfront, hnamed', rfl⟩ := forall₂_append_left hr
  obtain ⟨named₂, hr₂, hperm₂⟩ := List.perm_comp_forall₂ hperm hnamed'
  refine ⟨front₂ ++ named₂, List.rel_append hfront hr₂, front₂, named₂, named₂',
    rfl, rfl, hperm₂, ?_⟩
  intro b hb
  have hmem := List.mem_map_of_mem (f := name') hb
  rw [← map_eq_of_forall₂ hname hr₂] at hmem
  obtain ⟨a, ha, hab⟩ := List.mem_map.mp hmem
  exact hab ▸ hnamed a ha

theorem Fits.rearranged {args args' : List (Arg α)} (hr : Rearranged Arg.name args args')
    (h : Fits params (args.map Arg.name)) : Fits params (args'.map Arg.name) := by
  have hperm := hr.perm.map Arg.name
  obtain ⟨front, named, named', rfl, rfl, hnames, hnamed⟩ := hr
  have hcount := hperm.count_eq none
  have hmem : ∀ {n : Option String}, n ∈ (front ++ named).map Arg.name ↔
      n ∈ (front ++ named').map Arg.name :=
    hperm.mem_iff
  -- Only the order depends on more than which names there are.
  refine ⟨⟨?_, ?_, ?_⟩, ?_, ?_⟩
  · have hlast : ∀ n ∈ named'.map Arg.name, n ≠ none := by
      intro n hn
      obtain ⟨a, ha, rfl⟩ := List.mem_map.mp hn
      exact hnamed a (hnames.mem_iff.mpr ha)
    rw [List.map_append] at h ⊢
    refine List.pairwise_append.mpr ⟨(List.pairwise_append.mp h.ordered).1, ?_, ?_⟩
    · exact List.Pairwise.imp_of_mem (fun _ hn _ hnone => absurd hnone (hlast _ hn))
        (List.pairwise_of_forall fun _ _ => trivial)
    · exact fun _ _ n hn hnone => absurd hnone (hlast n hn)
  · exact (hperm.filterMap id).nodup_iff.mp h.distinct
  · intro n hn
    rw [← hcount]
    exact h.free n (hmem.mpr hn)
  · exact hcount ▸ h.room
  · intro k p hp hreq
    rw [← hcount]
    exact (h.supplied k p hp hreq).imp id fun ⟨n, hn, hk⟩ => ⟨n, hmem.mp hn, hk⟩

theorem find?_eq_of_perm {xs ys : List α} (h : xs.Perm ys)
    (hone : xs.Pairwise fun a b => ¬ (p a = true ∧ p b = true)) : xs.find? p = ys.find? p := by
  rw [← List.head?_filter, ← List.head?_filter]
  have hperm := h.filter p
  have hone := hone.filter p
  have hall : ∀ a ∈ xs.filter p, p a = true := fun a ha => (List.mem_filter.mp ha).2
  rcases hx : xs.filter p with _ | ⟨a, _ | ⟨b, rest⟩⟩ <;> rw [hx] at hperm hone hall
  · rw [List.nil_perm.mp hperm]
  · rw [List.singleton_perm.mp hperm]
  · exact absurd ⟨hall a (by simp), hall b (by simp)⟩ (List.rel_of_pairwise_cons hone (by simp))

theorem Rearranged.given_eq {args args' : List (Arg α)} (hr : Rearranged Arg.name args args')
    (hdistinct : (args.map Arg.name).reduceOption.Nodup) (params : Signature) (k : Nat) :
    given params args k = given params args' k := by
  have hfind : args.find? (fun a => a.name.bind params.index? == some k) =
      args'.find? fun a => a.name.bind params.index? == some k := by
    refine find?_eq_of_perm hr.perm ?_
    have hapart := List.pairwise_map.mp (List.pairwise_filterMap.mp hdistinct)
    refine hapart.imp fun {a b} hne => ?_
    simp only [beq_iff_eq, Option.bind_eq_some_iff]
    rintro ⟨⟨m, hm, hmk⟩, n, hn, hnk⟩
    exact hne m hm n hn (index?_inj hmk hnk)
  have hfilter : args.filter (·.name.isNone) = args'.filter (·.name.isNone) := by
    obtain ⟨front, named, named', rfl, rfl, hperm, hnamed⟩ := hr
    have hnil : ∀ xs : List (Arg α), (∀ a ∈ xs, a.name ≠ none) →
        xs.filter (·.name.isNone) = [] := by
      intro xs hxs
      exact List.filter_eq_nil_iff.mpr fun a ha => by simp [hxs a ha]
    rw [List.filter_append, List.filter_append, hnil named hnamed,
      hnil named' fun a ha => hnamed a (hperm.mem_iff.mpr ha)]
  rw [given, given, hfind, hfilter]

theorem Supplies.rearranged {args args' : List (Arg NodeId)}
    (h : Supplies literal params args values) (hr : Rearranged Arg.name args args')
    (hdistinct : (args.map Arg.name).reduceOption.Nodup) :
    Supplies literal params args' values := by
  refine ⟨h.length, fun k p v hp hv => ?_, fun a ha => h.used a (hr.perm.mem_iff.mpr ha)⟩
  have hg := hr.given_eq hdistinct params k
  cases h.supply k p v hp hv with
  | argument ha hv => exact .argument (hg ▸ ha) hv
  | literal hnone hx hl => exact .literal (hg ▸ hnone) hx hl
  | copy hnone hj hjv => exact .copy (hg ▸ hnone) hj hjv

/-! ## Literals for absent arguments -/

/-- While slots are filled, those that were seated hold nodes of `nodes`, and no two slots hold the
same fresh one. -/
structure Apart (params : Signature) (nodes : Arena) (seated : List (Option NodeId)) (f : Filling) :
    Prop where
  grown : nodes.size ≤ f.nodes.size
  bound : ∀ (k : Nat) (v : NodeId), f.slots[k]? = some (some v) → v < f.nodes.size
  place : ∀ (k j : Nat) (v : NodeId), nodes.size ≤ v → f.slots[k]? = some (some v) →
    f.slots[j]? = some (some v) → k = j
  required : ∀ (k : Nat) (p : Formal), params[k]? = some p → p.fallback = .required →
    f.slots[k]? = seated[k]?

theorem Apart.fill (hparams : Signature.CopiesRequired params)
    (hseated : ∀ (k : Nat) (v : NodeId), seated[k]? = some (some v) → v < nodes.size)
    (h : Apart params nodes seated f) (hp : params[i]? = some p) :
    Apart params nodes seated (fill span f (p, i)) := by
  have hother : ∀ (o : Option NodeId), p.fallback ≠ .required →
      ∀ (k : Nat) (q : Formal), params[k]? = some q →
        q.fallback = .required → (f.slots.set i o)[k]? = seated[k]? := by
    intro o hne k q hq hreq
    have hki : i ≠ k := by
      rintro rfl
      cases hp.symm.trans hq
      exact hne hreq
    rw [List.getElem?_set_ne hki]
    exact h.required k q hq hreq
  unfold Binding.fill
  dsimp only
  split
  · exact h
  · split
    · exact ⟨h.grown, h.bound, h.place, h.required⟩
    · rename_i x hx
      -- the fresh literal is in no other slot yet
      have hnew : ∀ (k : Nat) (v : NodeId), (f.slots.set i (some f.nodes.size))[k]? =
          some (some v) →
            k = i ∧ v = f.nodes.size ∨ f.slots[k]? = some (some v) := by
        intro k v hv
        rw [List.getElem?_set] at hv
        split at hv
        · subst i
          split at hv
          · exact .inl ⟨rfl, by simpa using hv.symm⟩
          · cases hv
        · exact .inr hv
      refine ⟨?_, ?_, ?_, hother _ (by simp [hx])⟩
      · simp only [Arena.add, Array.size_push]
        exact Nat.le_succ_of_le h.grown
      · intro k v hv
        simp only [Arena.add, Array.size_push]
        rcases hnew k v hv with ⟨-, rfl⟩ | hv
        · exact Nat.lt_succ_self _
        · exact Nat.lt_succ_of_lt (h.bound k v hv)
      · intro k j v hge hk hj
        rcases hnew k v hk with ⟨hki, rfl⟩ | hk
        · rcases hnew j _ hj with ⟨hji, -⟩ | hj
          · exact hki.trans hji.symm
          · exact absurd (h.bound j _ hj) (Nat.lt_irrefl _)
        · rcases hnew j v hj with ⟨-, rfl⟩ | hj
          · exact absurd (h.bound k _ hk) (Nat.lt_irrefl _)
          · exact h.place k j v hge hk hj
    · rename_i j hx
      -- the parameter that is copied is required, so what it holds is no fresh literal
      obtain ⟨q, hq, hreq⟩ := hparams p (List.mem_of_getElem? hp) j hx
      have hnew : ∀ (k : Nat) (v : NodeId), (f.slots.set i f.slots[j]?.join)[k]? = some (some v) →
          v < nodes.size ∨ f.slots[k]? = some (some v) := by
        intro k v hv
        rw [List.getElem?_set] at hv
        split at hv
        · split at hv
          · have hjv : f.slots[j]? = some (some v) := by simpa [Option.join_eq_some_iff] using hv
            exact .inl (hseated j v (h.required j q hq hreq ▸ hjv))
          · cases hv
        · exact .inr hv
      refine ⟨h.grown, ?_, ?_, hother _ (by simp [hx])⟩
      · intro k v hv
        rcases hnew k v hv with hlt | hv
        · exact Nat.lt_of_lt_of_le hlt h.grown
        · exact h.bound k v hv
      · intro k l v hge hk hl
        have hk := (hnew k v hk).resolve_left (Nat.not_lt.mpr hge)
        have hl := (hnew l v hl).resolve_left (Nat.not_lt.mpr hge)
        exact h.place k l v hge hk hl

theorem bind_literal_place {nodes : Arena} {k j : Nat} (hparams : Signature.CopiesRequired params)
    (hargs : ∀ a ∈ args, a.value < nodes.size)
    (h : (bind callee params args span nodes).values = some values) (hv : nodes.size ≤ v)
    (hk : values[k]? = some v) (hj : values[j]? = some v) : k = j := by
  have hfits := (bind_findings_iff ..).mp (bind_supplies h).2
  have hs := seatAll_seated callee params args ((seatAll_findings_iff ..).mpr hfits.toPlaceable)
  -- What is seated was there before, so an id beyond the old nodes is one that `fill` added.
  have hseated : ∀ (k : Nat) (v : NodeId), (seatAll callee params args).slots[k]? = some (some v) →
      v < nodes.size := by
    intro k v hv
    have hlt : k < params.length := hs.length ▸ (List.getElem?_eq_some_iff.mp hv).1
    rw [hs.slots k hlt] at hv
    obtain ⟨a, ha, rfl⟩ := Option.map_eq_some_iff.mp (Option.some.inj hv)
    exact hargs a (mem_of_given ha)
  have hapart : Apart params nodes (seatAll callee params args).slots
      (fillAll params span nodes (seatAll callee params args).slots) := by
    refine List.foldlRecOn params.zipIdx (fill span) (motive := Apart params nodes _) ?_ ?_
    · refine ⟨Nat.le_refl _, hseated, fun k j v hge hk _ => ?_, fun _ _ _ _ => rfl⟩
      exact absurd (hseated k v hk) (Nat.not_lt.mpr hge)
    · rintro f hf ⟨p, i⟩ hmem
      exact hf.fill hparams hseated (List.mem_zipIdx_iff_getElem?.mp hmem)
  have hslots : (fillAll params span nodes (seatAll callee params args).slots).slots =
      values.map some := by
    simp only [bind] at h
    split at h
    · exact mapM_id_eq_some h
    · cases h
  refine hapart.place k j v hv ?_ ?_ <;> rw [hslots, List.getElem?_map]
  · rw [hk]; rfl
  · rw [hj]; rfl

end SignalPatch.Binding
