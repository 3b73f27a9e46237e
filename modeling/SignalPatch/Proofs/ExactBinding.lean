import SignalPatch.Proofs.ArgumentFit
import SignalPatch.Proofs.ResolvedPatch

/-!
# Arguments are bound exactly

Which parameter an argument is for is said here without looking at how arguments are placed: an
argument with a name is for the parameter of that name, and one without is for the parameter at its
place among the arguments without a name (`IsFor`). A call is admissible if these are distinct,
exist, and leave out no required parameter. `bind_exact` says that exactly the admissible calls are
bound, and to what.
-/

namespace SignalPatch

/-- The names of the parameters differ, and each parameter copies only one that stands before it and
that every call must supply. -/
structure Signature.Regular (params : Signature) : Prop where
  distinct : (params.map Formal.name).Nodup
  copies : ∀ (k : Nat) (p : Formal) (j : Nat), params[k]? = some p → p.fallback = .sameAs j →
    j < k ∧ ∃ q, params[j]? = some q ∧ q.fallback = .required

theorem Signature.Regular.copiesRequired {params : Signature} (h : params.Regular) :
    params.CopiesRequired := by
  intro p hp j hj
  obtain ⟨k, hk⟩ := List.mem_iff_getElem?.mp hp
  exact (h.copies k p j hk hj).2

namespace Binding

/-- The `i`-th argument is for the `k`-th parameter. -/
inductive IsFor (params : Signature) (args : List (Arg α)) (i k : Nat) : Prop
  | position : args[i]? = some a → a.name = none → (args.take i).countP (·.name.isNone) = k →
      IsFor params args i k
  | name : args[i]? = some a → a.name = some p.name → params[k]? = some p → IsFor params args i k

/-- The arguments can be given to the parameters. -/
structure Admissible (params : Signature) (args : List (Arg α)) : Prop where
  ordered : ∀ (i j : Nat) (a b : Arg α), i < j → args[i]? = some a → args[j]? = some b →
    a.name ≠ none → b.name ≠ none
  room : args.countP (·.name.isNone) ≤ params.length
  named : ∀ a ∈ args, ∀ n, a.name = some n → ∃ p ∈ params, p.name = n
  once : ∀ i j k, IsFor params args i k → IsFor params args j k → i = j
  supplied : ∀ (k : Nat) (p : Formal), params[k]? = some p → p.fallback = .required →
    ∃ i, IsFor params args i k

/-- The values are what the call at `span` gives the parameters, where `nodes` has become
`nodes'`. -/
structure Bound (params : Signature) (args : List (Arg NodeId)) (span : Span) (nodes nodes' : Arena)
    (values : List NodeId) : Prop where
  length : values.length = params.length
  used : ∀ i < args.length, ∃! k, k < params.length ∧ IsFor params args i k
  argument : ∀ (i k : Nat) (a : Arg NodeId), IsFor params args i k → args[i]? = some a →
    values[k]? = some a.value
  literal : ∀ (k : Nat) (p : Formal) (x : Float), params[k]? = some p →
    (∀ i, ¬ IsFor params args i k) →
    p.fallback = .value x → ∃ v, values[k]? = some v ∧ nodes.size ≤ v ∧
      nodes'[v]? = some ⟨.number x, span⟩
  copy : ∀ (k : Nat) (p : Formal) (j : Nat), params[k]? = some p → (∀ i, ¬ IsFor params args i k) →
    p.fallback = .sameAs j → ∃ v, values[k]? = some v ∧ values[j]? = some v
  /-- Other nodes stay, and literals are not shared. -/
  grown : nodes.Extends nodes'
  fresh : (∀ a ∈ args, a.value < nodes.size) → ∀ (k j : Nat) (v : NodeId), nodes.size ≤ v →
    values[k]? = some v → values[j]? = some v → k = j

/-! ## Places of arguments -/

theorem getElem?_filter_eq_some {p : α → Bool} {xs : List α} {k : Nat} :
    (xs.filter p)[k]? = some a ↔ ∃ i, xs[i]? = some a ∧ p a ∧ (xs.take i).countP p = k := by
  induction xs generalizing k with
  | nil => simp
  | cons x xs ih =>
    by_cases hx : p x
    · rw [List.filter_cons_of_pos hx]
      constructor
      · intro h
        cases k with
        | zero =>
          obtain rfl : x = a := by simpa using h
          exact ⟨0, by simp, hx, by simp⟩
        | succ k =>
          obtain ⟨i, hi, ha, hk⟩ := ih.mp (by simpa using h)
          exact ⟨i + 1, by simpa using hi, ha, by simp [hx, hk]⟩
      · rintro ⟨i, hi, ha, hk⟩
        cases i with
        | zero =>
          obtain rfl : 0 = k := hk
          simpa using hi
        | succ i =>
          obtain rfl : (xs.take i).countP p + 1 = k := by simpa [hx] using hk
          simpa using ih.mpr ⟨i, by simpa using hi, ha, rfl⟩
    · rw [List.filter_cons_of_neg hx, ih]
      constructor
      · rintro ⟨i, hi, ha, hk⟩
        exact ⟨i + 1, by simpa using hi, ha, by simp [hx, hk]⟩
      · rintro ⟨i, hi, ha, hk⟩
        cases i with
        | zero =>
          obtain rfl : x = a := by simpa using hi
          exact absurd ha hx
        | succ i => exact ⟨i, by simpa using hi, ha, by simpa [hx] using hk⟩

theorem index?_eq_some_iff {params : Signature} (hdistinct : (params.map Formal.name).Nodup) :
    params.index? n = some k ↔ ∃ p, params[k]? = some p ∧ p.name = n := by
  rw [Signature.index?, List.findIdx?_eq_some_iff_getElem]
  constructor
  · rintro ⟨hk, hname, -⟩
    exact ⟨_, List.getElem?_eq_getElem hk, by simpa using hname⟩
  · rintro ⟨p, hp, rfl⟩
    obtain ⟨hk, rfl⟩ := List.getElem?_eq_some_iff.mp hp
    refine ⟨hk, by simp, fun j hj => ?_⟩
    have hne := List.pairwise_iff_getElem.mp (List.pairwise_map.mp hdistinct) j k (by omega) hk hj
    simpa using hne

section
variable {params : Signature} {args : List (Arg α)} {i j k : Nat}

theorem isFor_of_given (hdistinct : (params.map Formal.name).Nodup)
    (h : given params args k = some a) :
    ∃ i, IsFor params args i k ∧ args[i]? = some a := by
  rcases Option.or_eq_some_iff.mp h with h | ⟨-, h⟩
  · obtain ⟨i, hi, ha, hk⟩ := getElem?_filter_eq_some.mp h
    exact ⟨i, .position hi (by simpa using ha) hk, hi⟩
  · obtain ⟨i, hi⟩ := List.mem_iff_getElem?.mp (List.mem_of_find?_eq_some h)
    have hk := List.find?_some h
    rw [beq_iff_eq, Option.bind_eq_some_iff] at hk
    obtain ⟨n, hn, hk⟩ := hk
    obtain ⟨p, hp, rfl⟩ := (index?_eq_some_iff hdistinct).mp hk
    exact ⟨i, .name hi hn hp, hi⟩

theorem given_ne_none_of_isFor (hdistinct : (params.map Formal.name).Nodup)
    (h : IsFor params args i k) :
    given params args k ≠ none := by
  intro hnone
  obtain ⟨hcount, hnames⟩ := given_eq_none_iff.mp hnone
  cases h with
  | position ha hname hk =>
    have hlt := getElem?_filter_eq_some (p := fun a : Arg α => a.name.isNone) |>.mpr
      ⟨i, ha, by simp [hname], hk⟩
    have := (List.getElem?_eq_some_iff.mp hlt).1
    rw [length_positional] at this
    omega
  | name ha hname hp =>
    refine hnames _ (List.mem_map.mpr ⟨_, List.mem_of_getElem? ha, hname⟩) ?_
    exact (index?_eq_some_iff hdistinct).mpr ⟨_, hp, rfl⟩

theorem given_eq_none_iff_isFor (hdistinct : (params.map Formal.name).Nodup) :
    given params args k = none ↔ ∀ i, ¬ IsFor params args i k := by
  refine ⟨fun h i hi => given_ne_none_of_isFor hdistinct hi h, fun h => ?_⟩
  cases hg : given params args k with
  | none => rfl
  | some a =>
    obtain ⟨i, hi, -⟩ := isFor_of_given hdistinct hg
    exact absurd hi (h i)

theorem given_of_isFor (hdistinct : (params.map Formal.name).Nodup)
    (honce : ∀ i j k, IsFor params args i k → IsFor params args j k → i = j)
    (h : IsFor params args i k) (ha : args[i]? = some a) : given params args k = some a := by
  obtain ⟨b, hb⟩ := Option.ne_none_iff_exists'.mp (given_ne_none_of_isFor hdistinct h)
  obtain ⟨j, hj, hbj⟩ := isFor_of_given hdistinct hb
  obtain rfl := honce i j k h hj
  rw [hb, ← hbj, ha]

/-! ## Admissible calls -/

theorem exists_position (h : k < (args.map Arg.name).count none) :
    ∃ (i : Nat) (a : Arg α), args[i]? = some a ∧ a.name = none ∧
      (args.take i).countP (·.name.isNone) = k := by
  rw [← length_positional] at h
  obtain ⟨i, hi, ha, hk⟩ := getElem?_filter_eq_some.mp (List.getElem?_eq_getElem h)
  exact ⟨i, _, hi, by simpa using ha, hk⟩

theorem countP_unnamed (args : List (Arg α)) :
    args.countP (·.name.isNone) = (args.map Arg.name).count none := by
  rw [List.countP_eq_length_filter, length_positional]

theorem position_lt (ha : args[i]? = some a) (hname : a.name = none) :
    (args.take i).countP (·.name.isNone) < (args.map Arg.name).count none := by
  have h := getElem?_filter_eq_some (p := fun a : Arg α => a.name.isNone) |>.mpr
    ⟨i, ha, by simp [hname], rfl⟩
  rw [← length_positional]
  exact (List.getElem?_eq_some_iff.mp h).1

theorem position_strictMono (hij : i < j) (ha : args[i]? = some a) (hname : a.name = none) :
    (args.take i).countP (·.name.isNone) < (args.take j).countP (·.name.isNone) := by
  have hle : ((args.take (i + 1)).countP (·.name.isNone)) ≤ (args.take j).countP (·.name.isNone) :=
    (List.take_sublist_take_left hij).countP_le
  have hsucc : (args.take (i + 1)).countP (·.name.isNone) =
      (args.take i).countP (·.name.isNone) + 1 := by
    rw [List.take_add_one, ha, List.countP_append]
    simp [hname]
  omega

theorem reduceOption_names (args : List (Arg α)) :
    (args.map Arg.name).reduceOption = args.filterMap Arg.name := by
  rw [List.reduceOption, List.filterMap_map]
  rfl

theorem Admissible.fits (hdistinct : (params.map Formal.name).Nodup) (h : Admissible params args) :
    Fits params (args.map Arg.name) := by
  refine ⟨⟨?_, ?_, ?_⟩, countP_unnamed args ▸ h.room, ?_⟩
  · rw [List.pairwise_map, List.pairwise_iff_getElem]
    intro i j hi hj hij hnone
    by_contra hsome
    exact h.ordered i j _ _ hij (List.getElem?_eq_getElem hi)
      (List.getElem?_eq_getElem hj) hsome hnone
  · rw [reduceOption_names, List.Nodup, List.pairwise_filterMap, List.pairwise_iff_getElem]
    rintro i j hi hj hij n hn _ hm rfl
    obtain ⟨p, hp, rfl⟩ := h.named _ (List.getElem_mem hi) n hn
    obtain ⟨k, hk⟩ := List.mem_iff_getElem?.mp hp
    have heq := h.once i j k (.name (List.getElem?_eq_getElem hi) hn hk)
      (.name (List.getElem?_eq_getElem hj) hm hk)
    omega
  · intro n hn
    obtain ⟨a, ha, hname⟩ := List.mem_map.mp hn
    obtain ⟨i, hi⟩ := List.mem_iff_getElem?.mp ha
    obtain ⟨p, hp, rfl⟩ := h.named a ha n hname
    obtain ⟨k, hk⟩ := List.mem_iff_getElem?.mp hp
    refine ⟨k, (index?_eq_some_iff hdistinct).mpr ⟨p, hk, rfl⟩, ?_⟩
    -- else an argument without a name would be for the same parameter
    by_contra hlt
    obtain ⟨j, b, hj, hb, hjk⟩ := exists_position (Nat.not_le.mp hlt)
    obtain rfl := h.once i j k (.name hi hname hk) (.position hj hb hjk)
    cases hi.symm.trans hj
    rw [hname] at hb
    cases hb
  · intro k p hp hreq
    obtain ⟨i, hi⟩ := h.supplied k p hp hreq
    cases hi with
    | position ha hname hk => exact .inl (hk ▸ position_lt ha hname)
    | name ha hname hq =>
      exact .inr ⟨_, List.mem_map.mpr ⟨_, List.mem_of_getElem? ha, hname⟩,
        (index?_eq_some_iff hdistinct).mpr ⟨_, hq, rfl⟩⟩

theorem Fits.once (hdistinct : (params.map Formal.name).Nodup) (h : Fits params (args.map Arg.name))
    (hi : IsFor params args i k) (hj : IsFor params args j k) : i = j := by
  -- the parameters of names come behind those that are supplied by position
  have hbehind : ∀ {i : Nat} {a : Arg α} {q : Formal}, args[i]? = some a → a.name = some q.name →
      params[k]? = some q → (args.map Arg.name).count none ≤ k := by
    intro i a q ha hname hq
    obtain ⟨k', hk', hle⟩ := h.free q.name (List.mem_map.mpr ⟨a, List.mem_of_getElem? ha, hname⟩)
    rw [(index?_eq_some_iff hdistinct).mpr ⟨q, hq, rfl⟩] at hk'
    cases hk'
    exact hle
  cases hi with
  | position ha hname hk =>
    cases hj with
    | position hb hname' hk' =>
      rcases Nat.lt_trichotomy i j with hlt | heq | hlt
      · have := position_strictMono hlt ha hname
        omega
      · exact heq
      · have := position_strictMono hlt hb hname'
        omega
    | name hb hname' hq =>
      have := position_lt ha hname
      have := hbehind hb hname' hq
      omega
  | name ha hname hq =>
    cases hj with
    | position hb hname' hk' =>
      have := position_lt hb hname'
      have := hbehind ha hname hq
      omega
    | name hb hname' hq' =>
      cases hq.symm.trans hq'
      have hnodup := h.distinct
      rw [reduceOption_names, List.Nodup, List.pairwise_filterMap,
        List.pairwise_iff_getElem] at hnodup
      obtain ⟨hi, rfl⟩ := List.getElem?_eq_some_iff.mp ha
      obtain ⟨hj, rfl⟩ := List.getElem?_eq_some_iff.mp hb
      rcases Nat.lt_trichotomy i j with hlt | heq | hlt
      · exact absurd rfl (hnodup i j hi hj hlt _ hname _ hname')
      · exact heq
      · exact absurd rfl (hnodup j i hj hi hlt _ hname' _ hname)

theorem Fits.admissible (hdistinct : (params.map Formal.name).Nodup)
    (h : Fits params (args.map Arg.name)) :
    Admissible params args := by
  refine ⟨?_, (countP_unnamed args).symm ▸ h.room, ?_, fun i j k => h.once hdistinct, ?_⟩
  · intro i j a b hij ha hb hsome hnone
    obtain ⟨hi, rfl⟩ := List.getElem?_eq_some_iff.mp ha
    obtain ⟨hj, rfl⟩ := List.getElem?_eq_some_iff.mp hb
    exact hsome (List.pairwise_iff_getElem.mp (List.pairwise_map.mp h.ordered) i j hi hj hij hnone)
  · intro a ha n hname
    obtain ⟨k, hk, -⟩ := h.free n (List.mem_map.mpr ⟨a, ha, hname⟩)
    obtain ⟨p, hp, hpn⟩ := (index?_eq_some_iff hdistinct).mp hk
    exact ⟨p, List.mem_of_getElem? hp, hpn⟩
  · intro k p hp hreq
    rcases h.supplied k p hp hreq with hlt | ⟨n, hn, hk⟩
    · obtain ⟨i, a, ha, hname, hik⟩ := exists_position hlt
      exact ⟨i, .position ha hname hik⟩
    · obtain ⟨a, ha, hname⟩ := List.mem_map.mp hn
      obtain ⟨i, hi⟩ := List.mem_iff_getElem?.mp ha
      obtain ⟨q, hq, rfl⟩ := (index?_eq_some_iff hdistinct).mp hk
      exact ⟨i, .name hi hname hq⟩

theorem Admissible.lt_length (h : Admissible params args) (hi : IsFor params args i k) :
    k < params.length := by
  cases hi with
  | position ha hname hk =>
    have hlt := position_lt ha hname
    have hroom := h.room
    rw [countP_unnamed] at hroom
    omega
  | name _ _ hp => exact (List.getElem?_eq_some_iff.mp hp).1

theorem Admissible.existsUnique (hdistinct : (params.map Formal.name).Nodup)
    (h : Admissible params args) (hi : i < args.length) :
    ∃! k, k < params.length ∧ IsFor params args i k := by
  have ha : args[i]? = some args[i] := List.getElem?_eq_getElem hi
  cases hname : args[i].name with
  | none =>
    have hfor : IsFor params args i _ := .position ha hname rfl
    refine ⟨_, ⟨h.lt_length hfor, hfor⟩, ?_⟩
    rintro k ⟨-, hk⟩
    cases hk with
    | position _ _ hk => exact hk.symm
    | name hb hname' _ =>
      cases ha.symm.trans hb
      rw [hname] at hname'
      cases hname'
  | some n =>
    obtain ⟨p, hp, rfl⟩ := h.named _ (List.getElem_mem hi) n hname
    obtain ⟨k, hk⟩ := List.mem_iff_getElem?.mp hp
    have hfor : IsFor params args i k := .name ha hname hk
    refine ⟨k, ⟨h.lt_length hfor, hfor⟩, ?_⟩
    rintro k' ⟨-, hk'⟩
    cases hk' with
    | position hb hname' _ =>
      cases ha.symm.trans hb
      rw [hname] at hname'
      cases hname'
    | name hb hname' hq =>
      cases ha.symm.trans hb
      rw [hname] at hname'
      -- No two parameters have one name, so the name gives the place.
      have hindex := (index?_eq_some_iff hdistinct).mpr ⟨_, hq, (Option.some.inj hname').symm⟩
      rw [(index?_eq_some_iff hdistinct).mpr ⟨p, hk, rfl⟩] at hindex
      exact (Option.some.inj hindex).symm

end

/-! ## Calls -/

theorem bind_bound {params : Signature} {args : List (Arg NodeId)} (hparams : params.Regular)
    (hargs : Admissible params args)
    (h : (bind callee params args span nodes).values = some values) :
    Bound params args span nodes (bind callee params args span nodes).nodes values := by
  obtain ⟨hsupplies, -⟩ := bind_supplies h
  -- every parameter has a value, and where no argument is for it, it is the fallback
  have hvalue : ∀ (k : Nat) (p : Formal), params[k]? = some p → ∃ v, values[k]? = some v := by
    intro k p hp
    have hk := hsupplies.length ▸ (List.getElem?_eq_some_iff.mp hp).1
    exact ⟨_, List.getElem?_eq_getElem hk⟩
  refine ⟨hsupplies.length, fun i => hargs.existsUnique hparams.distinct, ?_, ?_, ?_,
    bind_extends .., ?_⟩
  · intro i k a hi ha
    have hg := given_of_isFor hparams.distinct hargs.once hi ha
    have hp : params[k]? = some _ := List.getElem?_eq_getElem (hargs.lt_length hi)
    obtain ⟨v, hv⟩ := hvalue k _ hp
    cases hsupplies.supply k _ v hp hv with
    | argument hg' hva =>
      cases hg.symm.trans hg'
      rw [hv, hva]
    | literal hnone _ _ | copy hnone _ _ => cases hnone.symm.trans hg
  · intro k p x hp hfree hx
    obtain ⟨v, hv⟩ := hvalue k p hp
    have hnone := (given_eq_none_iff_isFor hparams.distinct).mpr hfree
    cases hsupplies.supply k p v hp hv with
    | argument hg _ => cases hnone.symm.trans hg
    | literal _ hx' hl =>
      cases hx.symm.trans hx'
      exact ⟨v, hv, hl⟩
    | copy _ hj _ => cases hx.symm.trans hj
  · intro k p j hp hfree hj
    obtain ⟨v, hv⟩ := hvalue k p hp
    have hnone := (given_eq_none_iff_isFor hparams.distinct).mpr hfree
    cases hsupplies.supply k p v hp hv with
    | argument hg _ => cases hnone.symm.trans hg
    | literal _ hx _ => cases hj.symm.trans hx
    | copy _ hj' hjv =>
      cases hj.symm.trans hj'
      exact ⟨v, hv, hjv⟩
  · intro hlt k j v hge hk hj
    exact bind_literal_place hparams.copiesRequired hlt h hge hk hj

end Binding

/-! ## Signatures that occur -/

def Fallback.copied? : Fallback → Option Nat
  | .sameAs j => some j
  | _ => none

theorem Builtin.regular : ∀ b ∈ Builtin.table, b.params.Regular := by
  have hall : ∀ b ∈ Builtin.table, (b.params.map Formal.name).Nodup ∧
      ∀ q ∈ b.params.zipIdx, ∀ j ∈ q.1.fallback.copied?, j < q.2 := by
    decide
  intro b hb
  obtain ⟨hdistinct, hbefore⟩ := hall b hb
  refine ⟨hdistinct, fun k p j hp hj => ⟨?_, copiesRequired hb p (List.mem_of_getElem? hp) j hj⟩⟩
  exact hbefore (p, k) (List.mem_zipIdx_iff_getElem?.mpr hp) j (by rw [hj]; rfl)

theorem regular_formals (h : Resolving.repeatedParameters function [] ps = []) :
    Signature.Regular (ps.map Resolving.formal) := by
  refine ⟨?_, fun k p j hp hj => ?_⟩
  · rw [List.map_map]
    exact (Resolving.nodup_of_repeatedParameters h).1
  · -- the parameters of a function copy nothing
    obtain ⟨q, -, rfl⟩ := List.mem_map.mp (List.mem_of_getElem? hp)
    unfold Resolving.formal at hj
    split at hj <;> cases hj

namespace Binding

/-- The signatures of built-in functions are regular, and so are those of functions without a
repeated parameter. A call to a regular signature is bound exactly if it is admissible, and then to
the right values and without a finding; else an error is found. -/
theorem bind_exact :
    (∀ b ∈ Builtin.table, b.params.Regular) ∧
    (∀ function ps, Resolving.repeatedParameters function [] ps = [] →
      Signature.Regular (ps.map Resolving.formal)) ∧
    ∀ (callee : String) (params : Signature) (args : List
      (Arg NodeId)) (span : Span) (nodes : Arena), params.Regular →
      ((bind callee params args span nodes).values.isSome ↔ Admissible params args) ∧
      (∀ values, (bind callee params args span nodes).values = some values →
        Bound params args span nodes (bind callee params args span nodes).nodes values ∧
          (bind callee params args span nodes).findings = []) ∧
      ((bind callee params args span nodes).values = none →
        ∃ f ∈ (bind callee params args span nodes).findings, f.isError) := by
  refine ⟨Builtin.regular, fun _ _ => regular_formals,
    fun callee params args span nodes hparams => ?_⟩
  -- No values without a finding: what fits is bound.
  have hnone : (bind callee params args span nodes).values = none →
      ∃ f, f ∈ (bind callee params args span nodes).findings := by
    intro hnone
    by_contra hempty
    have hquiet : (bind callee params args span nodes).findings = [] :=
      List.eq_nil_iff_forall_not_mem.mpr fun f hf => hempty ⟨f, hf⟩
    obtain ⟨values, hsome⟩ := bind_values_isSome hparams.copiesRequired hquiet
    cases hnone.symm.trans hsome
  have hfits : ∀ {values}, (bind callee params args span nodes).values = some values →
      Admissible params args :=
        fun h => ((bind_findings_iff ..).mp (bind_supplies h).2).admissible hparams.distinct
  refine ⟨⟨fun h => ?_, fun h => ?_⟩, fun values h => ?_, fun h => ?_⟩
  · obtain ⟨values, hvalues⟩ := Option.isSome_iff_exists.mp h
    exact hfits hvalues
  · have hfindings := (bind_findings_iff callee params args span nodes).mpr
      (h.fits hparams.distinct)
    obtain ⟨values, hvalues⟩ := bind_values_isSome hparams.copiesRequired hfindings
    exact hvalues ▸ rfl
  · exact ⟨bind_bound hparams (hfits h) h, (bind_supplies h).2⟩
  · obtain ⟨f, hf⟩ := hnone h
    exact ⟨f, hf, bind_isError _ _ _ _ _ f hf⟩

def panned : Signature :=
  [⟨"in", .required⟩, ⟨"gain", .value 1⟩, ⟨"width", .value 0.5⟩, ⟨"right", .sameAs 0⟩]

def pannedArgs : List (Arg NodeId) := [⟨some "gain", 1, .origin⟩, ⟨some "in", 0, .origin⟩]

def pannedNodes : Arena := #[⟨.ident "x", .origin⟩, ⟨.number 2, .origin⟩]

theorem panned_regular : panned.Regular := by
  refine ⟨by decide, fun k p j hp hj => ?_⟩
  obtain _ | _ | _ | _ | k := k <;> cases hp <;> cases hj
  exact ⟨by decide, _, rfl, rfl⟩

/-- The node of `in` is also that of `right`, and `width` gets a literal of its own. -/
theorem panned_exact : panned.Regular ∧
    (bind "pan" panned pannedArgs .origin pannedNodes).values = some [0, 1, 2, 0] ∧
    Bound panned pannedArgs .origin pannedNodes
      (bind "pan" panned pannedArgs .origin pannedNodes).nodes [0, 1, 2, 0] ∧
    (bind "pan" panned (pannedArgs ++ pannedArgs) .origin pannedNodes).values = none ∧
    ¬ Admissible panned (pannedArgs ++ pannedArgs) := by
  have hexact := bind_exact.2.2 "pan" panned
  have hvalues : (bind "pan" panned pannedArgs .origin pannedNodes).values =
      some [0, 1, 2, 0] := rfl
  have hnone : (bind "pan" panned (pannedArgs ++ pannedArgs) .origin pannedNodes).values = none :=
    rfl
  refine ⟨panned_regular, hvalues, ?_, hnone, fun hargs => ?_⟩
  · exact ((hexact pannedArgs .origin pannedNodes panned_regular).2.1 _ hvalues).1
  · have hsome := (hexact _ .origin pannedNodes panned_regular).1.mpr hargs
    rw [hnone] at hsome
    cases hsome

end Binding

end SignalPatch
