import SignalPatch.Proofs.LoweringAdequacy
import SignalPatch.Proofs.PairedNodes

/-!
# Patches of a program that is written in two ways

The statements of two ways of writing a program lie apart in either arena, so all their nodes are
paired together (`Layout.exists_partners`). Once both are resolved, functions have partners whose
bodies are partners, and so have the other statements (`exists_pairedPatches`). The first program
may go on with further statements, as long as these define no functions.
-/

namespace SignalPatch

open Resolving (formal)

/-! ## Statements -/

def Spot.node (z : Spot Statement) : NodeId :=
  match z.label with
  | .expr _ => z.root
  | _ => z.root + 1

def NodeKind.isDefinition : NodeKind → Bool
  | .define .. => true
  | _ => false

def Resolved.actions (R : Resolved) (ids : List NodeId) : List NodeId :=
  ids.filter fun i => !(R.patch.nodes.kind i).isDefinition

/-- The node stands for the statement that lies at the spot. -/
inductive Settled (P : Arena) (R : Resolved) (z : Spot Statement) (i : NodeId) : Prop
  | define : z.label = .define name params body s →
      (R.patch.nodes.kind i).isDefinition → Settled P R z i
  | assign : z.label = .assign x e s → R.patch.nodes[i]? = some ⟨.assign x u, s⟩ →
      (∀ s ∈ scope, s.isValue) → Rewritten P R (.above R.symbols.globals scope) none z.root u →
        Settled P R z i
  | expr : z.label = .expr e → (∀ s ∈ scope, s.isValue) →
      Rewritten P R (.above R.symbols.globals scope) none z.root i → Settled P R z i

/-- Where the statements of a program lie, and which nodes stand for them. -/
structure Layout (P : Arena) (R : Resolved) (ss : List Statement) (ids ids' : List NodeId)
    (zs : List (Spot Statement)) : Prop where
  labels : zs.map Spot.label = ss
  nodes : zs.map Spot.node = ids
  apart : zs.Pairwise Spot.Apart
  stored : ∀ z ∈ zs, StoredStatement P z.start z.label z.node
  settled : List.Forall₂ (Settled P R) zs ids'

theorem StoredStatement.tree {z : Spot Statement} (h : StoredStatement P z.start z.label z.node) :
    Stored P z.start z.label.tree z.root := by
  obtain ⟨label, start, root⟩ := z
  cases label with
  | define name params body s =>
    cases h with
    | define h => exact h
  | assign x value s =>
    cases h with
    | assign h => exact h
  | expr e =>
    cases h with
    | expr h => exact h

theorem StatementsResolved.layout (h : StatementsResolved P R vars ids ids')
    (hvalues : ∀ s ∈ vars, s.isValue) :
    ∀ {a ss}, StoredList P a ss ids → ∃ zs, Layout P R ss ids ids' zs ∧ ∀ z ∈ zs, a ≤ z.start := by
  -- one more spot in front of a layout
  have hcons : ∀ {a b s i ss ids i' ids'} (root : Nat), a ≤ b → StoredStatement P b s i →
      (⟨s, b, root⟩ : Spot Statement).node = i → root ≤ i → Settled P R ⟨s, b, root⟩ i' →
      (∃ zs, Layout P R ss ids ids' zs ∧ ∀ z ∈ zs, i + 1 ≤ z.start) →
      ∃ zs, Layout P R (s :: ss) (i :: ids) (i' :: ids') zs ∧ ∀ z ∈ zs, a ≤ z.start := by
    rintro a b s i ss ids i' ids' root hab hs rfl hroot hsettled ⟨zs, hzs, hstart⟩
    have hle := hs.le
    refine ⟨⟨s, b, root⟩ :: zs, ⟨?_, ?_, ?_, ?_, .cons hsettled hzs.settled⟩, ?_⟩
    · rw [List.map_cons, hzs.labels]
    · rw [List.map_cons, hzs.nodes]
    · refine List.pairwise_cons.mpr ⟨fun z hz => Spot.apart_of_lt ?_, hzs.apart⟩
      exact Nat.lt_of_le_of_lt hroot (hstart z hz)
    · exact List.forall_mem_cons.mpr ⟨hs, hzs.stored⟩
    · rw [List.forall_mem_cons]
      exact ⟨hab, fun z hz => Nat.le_trans (Nat.le_trans hab hle) (Nat.le_of_succ_le (hstart z hz))⟩
  induction h with
  | nil =>
    rintro a ss (_ | _)
    exact ⟨[], ⟨rfl, rfl, .nil, by simp, .nil⟩, by simp⟩
  | define hP hR _ ih =>
    rintro a ss (_ | ⟨hab, hs, hrest⟩)
    obtain ⟨body, rfl, rfl, hbody⟩ := hs.of_define hP
    refine hcons _ hab hs rfl (Nat.le_succ _) (.define rfl ?_) (ih hvalues hrest)
    rw [Arena.kind_eq hR]
    rfl
  | assign hP hR hrew _ _ ih =>
    rintro a ss (_ | ⟨hab, hs, hrest⟩)
    obtain ⟨value, rfl, rfl, hvalue⟩ := hs.of_assign hP
    refine hcons _ hab hs rfl (Nat.le_succ _) (.assign rfl hR hvalues hrew) (ih ?_ hrest)
    rw [List.forall_mem_cons]
    exact ⟨rfl, hvalues⟩
  | expr hrew _ ih =>
    rintro a ss (_ | ⟨hab, hs, hrest⟩)
    obtain ⟨node, hP, hkind⟩ := hrew.read
    obtain ⟨e, rfl, he⟩ := hs.of_expr hP hkind
    exact hcons _ hab hs rfl (Nat.le_refl _) (.expr rfl hvalues hrew) (ih hvalues hrest)

theorem Settled.isDefinition_eq (h : Settled P R z i) :
    (R.patch.nodes.kind i).isDefinition = z.label.isDefinition := by
  cases h with
  | define hz hi =>
    rw [hz, hi]
    rfl
  | assign hz hi =>
    rw [hz, Arena.kind_eq hi]
    rfl
  | expr hz _ hrew =>
    obtain ⟨node, hnode, hkind⟩ := hrew.root (by simp)
    rw [hz, Arena.kind_eq hnode]
    cases hk :
      node.kind <;> simp_all [NodeKind.isStatement, NodeKind.isDefinition, Statement.isDefinition]

theorem Layout.actions (h : Layout P R ss ids ids' zs) :
    List.Forall₂ (Settled P R) (zs.filter (!·.label.isDefinition)) (R.actions ids') := by
  refine List.rel_filter (fun z i hz => ?_) h.settled
  dsimp only
  rw [hz.isDefinition_eq]

theorem forall₂_of_append {r : α → β → Prop} (h : List.Forall₂ r (xs ++ xs') (ys ++ ys'))
    (hlen : xs.length = ys.length) : List.Forall₂ r xs ys ∧ List.Forall₂ r xs' ys' := by
  obtain ⟨us, vs, hus, hvs, heq⟩ := Binding.forall₂_append_left h
  obtain ⟨rfl, rfl⟩ := List.append_inj heq (hlen.symm.trans hus.length_eq)
  exact ⟨hus, hvs⟩

/-- All trees of two ways of writing a program are paired together, those of the definitions in the
order of the first program. -/
theorem Layout.exists_partners (h₁ : Layout P₁ R₁ ss₁ ids₁ ids₁' zs)
    (h₂ : Layout P₂ R₂ ss₂ ids₂ ids₂' ws) (hv : ProgramVaries v ss₁ ss₂) (hc : ProgramChecks ss₂) :
    ∃ B mid, Pairing (· < P₁.size) (· < P₂.size) B ∧ mid.Perm (ws.filter (·.label.isDefinition)) ∧
      List.Forall₂
        (fun z w => z.label.Varies v w.label ∧ Paired (v.ofTree z.label) P₁ P₂ B z.root w.root)
        (zs.filter (!·.label.isDefinition)) (ws.filter (!·.label.isDefinition)) ∧
      List.Forall₂
        (fun z w => z.label.Varies v w.label ∧ Paired (v.ofTree z.label) P₁ P₂ B z.root w.root)
        (zs.filter (·.label.isDefinition)) mid := by
  have hothers := hv.others
  obtain ⟨defs, hdefs, hperm⟩ := hv.definitions
  simp only [← h₁.labels, ← h₂.labels, List.filter_map, Function.comp_def] at hothers hdefs hperm
  rw [List.forall₂_map_left_iff, List.forall₂_map_right_iff] at hothers
  rw [List.forall₂_map_left_iff] at hdefs
  -- the spots of the definitions of the second program, in the order of the first
  obtain ⟨mid, hmid, hmoved⟩ := List.perm_comp_forall₂ (r := fun s w => s = Spot.label w) hperm
    (List.forall₂_map_left_iff.mpr (List.forall₂_same.mpr fun _ _ => rfl))
  obtain rfl := (List.map_id _).symm.trans
    (Binding.map_eq_of_forall₂ (f := id) (fun _ _ h => h) hmid)
  rw [List.forall₂_map_right_iff] at hdefs
  have hvaries := List.rel_append hothers hdefs
  have hperm₁ := List.filter_append_perm (fun z : Spot Statement => !z.label.isDefinition) zs
  have hperm₂ := (hmoved.append_left (ws.filter (!·.label.isDefinition))).trans (by
    simpa using List.filter_append_perm (fun z : Spot Statement => !z.label.isDefinition) ws)
  simp only [Bool.not_not] at hperm₁
  have hpartners : List.Forall₂ (fun z w => Spot.Partners (v.ofTree z.label) P₁ P₂ z w)
      (zs.filter (!·.label.isDefinition) ++ zs.filter (·.label.isDefinition))
      (ws.filter (!·.label.isDefinition) ++ mid) := by
    refine List.forall₂_iff_get.mpr ⟨hvaries.length_eq, fun k hk hk' => ?_⟩
    have hw := hperm₂.mem_iff.mp (List.get_mem _ ⟨k, hk'⟩)
    have hlabel : (List.get _ ⟨k, hk'⟩).label ∈ ss₂ := h₂.labels ▸ List.mem_map_of_mem hw
    obtain ⟨roles, -, hchecks⟩ := hc.tree hlabel
    exact Stored.paired ((List.forall₂_iff_get.mp hvaries).2 k hk hk').tree hchecks
      (h₁.stored _ (hperm₁.mem_iff.mp (List.get_mem ..))).tree (h₂.stored _ hw).tree
  obtain ⟨B, hB, hpaired⟩ := SignalPatch.exists_partners hpartners (Spot.apart_perm hperm₁ h₁.apart)
    (Spot.apart_perm hperm₂ h₂.apart)
  have hbound : ∀ {P : Arena} {R : Resolved} {ss ids ids'} {zs zs' : List (Spot Statement)},
      Layout P R ss ids ids' zs → zs'.Perm zs → ∀ n, (∃ z ∈ zs', z.Covers n) → n < P.size := by
    rintro P R ss ids ids' zs zs' h hperm n ⟨z, hz, hn⟩
    exact Nat.lt_of_le_of_lt hn.2 (h.stored z (hperm.mem_iff.mp hz)).tree.lt_size
  refine ⟨B, mid, hB.widen (hbound h₁ hperm₁) (hbound h₂ hperm₂), hmoved, ?_⟩
  exact forall₂_of_append (forall₂_and hvaries hpaired) hothers.length_eq

theorem Layout.of_append (h : Layout P R (ss ++ more) ids ids' zs) : ∃ front rest ids₁ ids₁' ids₂',
    zs = front ++ rest ∧ ids' = ids₁' ++ ids₂' ∧ Layout P R ss ids₁ ids₁' front ∧
      rest.map Spot.label = more ∧ rest.length = ids₂'.length := by
  obtain ⟨front, rest, rfl, rfl, rfl⟩ := List.map_eq_append_iff.mp h.labels
  obtain ⟨ids₁', ids₂', hfront, hrest, rfl⟩ := Binding.forall₂_append_left h.settled
  refine ⟨front, rest, _, ids₁', ids₂', rfl, rfl, ⟨rfl, rfl, ?_, ?_, hfront⟩, rfl, hrest.length_eq⟩
  · exact h.apart.sublist (List.sublist_append_left _ _)
  · exact fun z hz => h.stored z (List.mem_append_left _ hz)

/-! ## Names -/

structure ResolvedProgram (P : Arena) (ss : List Statement) (ids : List NodeId) (R : Resolved) :
    Prop where
  stored : StoredList P 0 ss ids
  elaborated : Elaborated P ids R
  survey : ResolvedSurvey P ids ss R

def Role.signature? : Role → Option Signature
  | .value => none
  | .builtin b => some b.params
  | .function params => some params

theorem Meaning.signature?_role (m : Meaning) : m.role.signature? = m.signature? := by
  cases m <;> rfl

theorem definitions_append (hmore : ∀ s ∈ more, s.isDefinition = false) :
    definitions (ss ++ more) = definitions ss := by
  have hnone : definitions more = [] := by
    refine List.filterMap_eq_nil_iff.mpr fun s hs => ?_
    have := hmore s hs
    cases s with
    | define => cases this
    | assign | expr => rfl
  rw [definitions, List.filterMap_append, ← definitions, ← definitions, hnone, List.append_nil]

theorem globalRole_respells {v : Latitude} (h : v.Respells callee callee') (ss : List Statement) :
    globalRole ss callee' = globalRole ss callee := by
  cases hb : Builtin.find? callee with
  | none => rw [h.eq_of_find? hb]
  | some b => simp [globalRole, h.find?, hb]

theorem BinaryOp.find?_functionName (op : BinaryOp) : ∃ b, Builtin.find? op.functionName = some b ∧
    b.kind = .op (Lowering.binaryOpcode op) ∧ b.params = Builtin.binary ∧ b.stateful = false := by
  cases op <;> exact ⟨_, rfl, rfl, rfl, rfl⟩

namespace ResolvedProgram

theorem role (h : ResolvedProgram P ss ids R) : R.symbols.globals.role = globalRole ss :=
  h.survey.globals.role

theorem calls_role (h : ResolvedProgram P ss ids R) (hcalls : R.Calls callee m) :
    globalRole ss callee = some m.role := by
  obtain ⟨s, hs, rfl⟩ := Option.map_eq_some_iff.mp hcalls
  rw [← h.role, Scope.role, hs]
  rfl

theorem calls_builtin (h : ResolvedProgram P ss ids R)
    (hrole : globalRole ss callee = some (.builtin b)) :
    R.Calls callee (.builtin b) := by
  rw [← h.role] at hrole
  obtain ⟨s, hs, hm⟩ := Option.map_eq_some_iff.mp hrole
  have hmeaning : s.meaning = .builtin b := by
    cases hk : s.meaning <;> simp_all [Meaning.role]
  rw [Resolved.Calls, hs, Option.map_some, hmeaning]

section

variable {v : Manner} (h₁ : ResolvedProgram P₁ (ss₁ ++ more) ids₁ R₁)
  (h₂ : ResolvedProgram P₂ ss₂ ids₂ R₂)
  (hv : ProgramVaries v ss₁ ss₂) (hmore : ∀ s ∈ more, s.isDefinition = false)

include h₁ hv hmore

theorem globalRole_eq (hcallee : v.Respells callee callee') :
    globalRole ss₂ callee' = globalRole (ss₁ ++ more) callee := by
  have hperm := hv.definitions_perm
  rw [← definitions_append hmore] at hperm
  rw [globalRole_respells hcallee, globalRole_perm h₁.survey.checks.definable hperm]

include h₂

theorem spelledAlike (hvalues₁ : ∀ s ∈ scope₁, s.isValue) (hvalues₂ : ∀ s ∈ scope₂, s.isValue) :
    SpelledAlike v.toLatitude (.above R₁.symbols.globals scope₁)
      (.above R₂.symbols.globals scope₂) where
  signatures := by
    intro callee callee' m₁ m₂ params₁ params₂ hcallee hm₁ hm₂ hsig₁ hsig₂
    have hrole₁ := h₁.calls_role (.of_lookup hvalues₁ hm₁ hsig₁)
    have hrole₂ := h₂.calls_role (.of_lookup hvalues₂ hm₂ hsig₂)
    rw [globalRole_eq h₁ hv hmore hcallee, hrole₁] at hrole₂
    rw [← Meaning.signature?_role, Option.some.inj hrole₂, Meaning.signature?_role, hsig₂] at hsig₁
    exact (Option.some.inj hsig₁).symm
  operators := by
    intro op m params hm hsig
    obtain ⟨b, hb, -, hparams, -⟩ := op.find?_functionName
    have hrole := h₂.calls_role (.of_lookup hvalues₂ hm hsig)
    rw [globalRole, hb] at hrole
    rw [← Meaning.signature?_role, ← Option.some.inj hrole] at hsig
    exact (Option.some.inj hsig).symm.trans hparams

end

end ResolvedProgram

/-! ## Patches -/

inductive StatementPaired (v : Manner) (R₁ R₂ : Resolved) (C : Nat → Nat → Prop) :
    NodeId → NodeId → Prop
  | assign : R₁.patch.nodes[i]? = some ⟨.assign x u, s⟩ →
      R₂.patch.nodes[j]? = some ⟨.assign (v.name x) w, s'⟩ →
      Paired v R₁.patch.nodes R₂.patch.nodes C u w → StatementPaired v R₁ R₂ C i j
  | expr : (R₁.patch.nodes.kind i).isStatement = false →
      (R₂.patch.nodes.kind j).isStatement = false →
      Paired v R₁.patch.nodes R₂.patch.nodes C i j → StatementPaired v R₁ R₂ C i j

inductive FunctionPaired (v : Manner) (R₁ R₂ : Resolved) (C : Nat → Nat → Prop) (f₁ f₂ : Function) :
    Prop
  | intro : f₁.name = f₂.name →
      R₁.patch.nodes[f₁.definition]? = some ⟨.define f₁.name params₁ body₁, s₁⟩ →
      R₂.patch.nodes[f₂.definition]? = some ⟨.define f₂.name params₂ body₂, s₂⟩ →
      params₁.map Parameter.name = params₂.map Parameter.name →
      Paired v.inBody R₁.patch.nodes R₂.patch.nodes C body₁ body₂ → FunctionPaired v R₁ R₂ C f₁ f₂

/-- Where both have a host parameter of one name, it is the same up to its place. -/
def HostsMatch (hosts hosts' : List HostParam) : Prop :=
  ∀ {name p p'}, hosts.find? (·.name == name) = some p →
  hosts'.find? (·.name == name) = some p' → p.placeless = p'.placeless

theorem HostsAgree.hostsMatch (h : HostsAgree hosts hosts') : HostsMatch hosts hosts' := by
  intro name p p' hp hp'
  have hfind := h name
  rw [hp, hp'] at hfind
  exact Option.some.inj hfind

/-- What the names of two ways of writing a program have in common once they are resolved. -/
structure PairedGlobals (v : Manner) (R₁ R₂ : Resolved) (n₁ n₂ : Nat) (C : Nat → Nat → Prop) :
    Prop where
  one : ∀ {x y x' y'}, C x y → C x' y' → (x = x' ↔ y = y')
  normal₁ : NormalPatch R₁ n₁
  normal₂ : NormalPatch R₂ n₂
  read₁ : PatternsRead R₁.patch.nodes R₁.patterns
  hosts : HostsMatch R₁.hostParams R₂.hostParams
  builtins : ∀ {callee callee' b}, v.Respells callee callee' → R₁.Calls callee (.builtin b) →
    R₂.Calls callee' (.builtin b)
  operators : ∀ op : BinaryOp, ∃ b, R₂.Calls op.functionName (.builtin b) ∧ b ∈ Builtin.table ∧
    b.kind = .op (Lowering.binaryOpcode op) ∧ b.params = Builtin.binary ∧ b.stateful = false
  functions : ∀ {callee callee' f₁}, v.Respells callee callee' → R₁.Calls callee (.function f₁) →
    ∃ f₂, R₂.Calls callee' (.function f₂) ∧ FunctionPaired v R₁ R₂ C f₁ f₂

theorem PairedGlobals.inBody (h : PairedGlobals v R₁ R₂ n₁ n₂ C) :
    PairedGlobals v.inBody R₁ R₂ n₁ n₂ C where
  __ := h
  functions := by
    intro callee callee' f₁ hcallee hcalls
    obtain ⟨f₂, hf₂, ⟨hname, hdef₁, hdef₂, hparams, hbodies⟩⟩ := h.functions hcallee hcalls
    exact ⟨f₂, hf₂, .intro hname hdef₁ hdef₂ hparams hbodies⟩

/-- What two ways of writing a program have in common once they are resolved. The first one may go
on with the statements `rest`. -/
structure PairedPatches (v : Manner) (R₁ R₂ : Resolved) (n₁ n₂ : Nat) (rest : List NodeId)
    (C : Nat → Nat → Prop) : Prop extends PairedGlobals v R₁ R₂ n₁ n₂ C where
  statements : ∃ front, R₁.actions R₁.patch.statements = front ++ rest ∧
    List.Forall₂ (StatementPaired v R₁ R₂ C) front (R₂.actions R₂.patch.statements)

theorem forall₂_comp {r : α → β → Prop} {q : α → γ → Prop} {r' : γ → δ → Prop} {t : β → δ → Prop}
    (h : List.Forall₂ q xs ys) (h₁ : List.Forall₂ r xs as) (h₂ : List.Forall₂ r' ys bs)
    (ht : ∀ x y a b, x ∈ xs → q x y → r x a → r' y b → t a b) : List.Forall₂ t as bs := by
  induction h generalizing as bs with
  | nil =>
    cases h₁
    cases h₂
    exact .nil
  | cons hxy _ ih =>
    cases h₁ with
    | cons hxa h₁ =>
      cases h₂ with
      | cons hyb h₂ =>
        refine .cons (ht _ _ _ _ (by simp) hxy hxa hyb) (ih h₁ h₂ fun x y a b hx => ?_)
        exact ht x y a b (List.mem_cons_of_mem _ hx)

section

variable {v : Manner} (h₁ : ResolvedProgram P₁ (ss₁ ++ more) ids₁ R₁)
  (h₂ : ResolvedProgram P₂ ss₂ ids₂ R₂)
  (hv : ProgramVaries v ss₁ ss₂) (hmore : ∀ s ∈ more, s.isDefinition = false)

include h₁ h₂ hv hmore

theorem Paired.resolved {w : Manner} {B : Nat → Nat → Prop} (h : Paired w P₁ P₂ B i j)
    (hw : w.toLatitude = v.toLatitude) (hvalues₁ : ∀ s ∈ scope₁, s.isValue)
    (hvalues₂ : ∀ s ∈ scope₂, s.isValue)
    (hrew₁ : Rewritten P₁ R₁ (.above R₁.symbols.globals scope₁) none i i')
    (hrew₂ : Rewritten P₂ R₂ (.above R₂.symbols.globals scope₂) none j j') :
    Paired w R₁.patch.nodes R₂.patch.nodes (Adjoined P₁ P₂ R₁ R₂ B) i' j' := by
  have hsame := h₁.spelledAlike h₂ hv hmore hvalues₁ hvalues₂
  rw [← hw] at hsame
  exact h.rewritten (h₁.elaborated.globals.signaturesOk hvalues₁) hsame hrew₁ hrew₂ .none

theorem Settled.paired {B : Nat → Nat → Prop} (hz : Settled P₁ R₁ z i) (hw : Settled P₂ R₂ w j)
    (hdef : z.label.isDefinition = false) (hvaries : z.label.Varies v w.label)
    (hpaired : Paired (v.ofTree z.label) P₁ P₂ B z.root w.root) :
    StatementPaired v R₁ R₂ (Adjoined P₁ P₂ R₁ R₂ B) i j := by
  have htree : v.ofTree z.label = v := if_neg (by simp [hdef])
  rw [htree] at hpaired
  cases hz with
  | define hz =>
    rw [hz] at hdef
    cases hdef
  | assign hz hR₁ hvalues₁ hrew₁ =>
    cases hw with
    | assign hw hR₂ hvalues₂ hrew₂ =>
      rw [hz, hw] at hvaries
      cases hvaries
      exact .assign hR₁ hR₂ (hpaired.resolved h₁ h₂ hv hmore rfl hvalues₁ hvalues₂ hrew₁ hrew₂)
    | define hw | expr hw =>
      rw [hz, hw] at hvaries
      cases hvaries
  | expr hz hvalues₁ hrew₁ =>
    cases hw with
    | expr hw hvalues₂ hrew₂ =>
      obtain ⟨node₁, hnode₁, hkind₁⟩ := hrew₁.root (by simp)
      obtain ⟨node₂, hnode₂, hkind₂⟩ := hrew₂.root (by simp)
      refine .expr ?_ ?_ (hpaired.resolved h₁ h₂ hv hmore rfl hvalues₁ hvalues₂ hrew₁ hrew₂)
      · rw [Arena.kind_eq hnode₁, hkind₁]
      · rw [Arena.kind_eq hnode₂, hkind₂]
    | define hw | assign hw =>
      rw [hz, hw] at hvaries
      cases hvaries

theorem Layout.exists_function {zs ws mid : List (Spot Statement)} {B : Nat → Nat → Prop}
    (L₁ : Layout P₁ R₁ (ss₁ ++ more) ids₁ ids₁' zs) (L₂ : Layout P₂ R₂ ss₂ ids₂ ids₂' ws)
    (hmoved : mid.Perm (ws.filter (·.label.isDefinition)))
    (hdefs : List.Forall₂ (fun z w => z.label.Varies v w.label ∧
      Paired (v.ofTree z.label) P₁ P₂ B z.root w.root) (zs.filter (·.label.isDefinition)) mid)
    (hcallee : v.Respells callee callee') (hcalls : R₁.Calls callee (.function f₁)) :
    ∃ f₂, R₂.Calls callee' (.function f₂) ∧
      FunctionPaired v R₁ R₂ (Adjoined P₁ P₂ R₁ R₂ B) f₁ f₂ := by
  have hfind : Builtin.find? callee = none := by
    have hrole := h₁.calls_role hcalls
    unfold globalRole at hrole
    cases hb : Builtin.find? callee with
    | none => rfl
    | some b =>
      rw [hb] at hrole
      cases hrole
  obtain rfl := hcallee.eq_of_find? hfind
  obtain ⟨s, hnamed, hm⟩ := Option.map_eq_some_iff.mp hcalls
  obtain ⟨hmem, rfl⟩ := Scope.named?_eq_some hnamed
  cases h₁.elaborated.globals.known s hmem with
  | builtin b hb => cases hb.symm.trans hm
  | function i name params body span hi hP hsym =>
    subst hsym
    cases hm
    obtain ⟨-, -, body', hR₁, hrew₁⟩ := h₁.elaborated.functions i hi name params body span hP
    -- the spot of the definition, and its partner
    obtain ⟨z, hz, hzi⟩ := List.mem_map.mp (L₁.nodes.symm ▸ hi)
    obtain ⟨e, hlabel, hbody, -⟩ := (L₁.stored z hz).of_define (hzi.symm ▸ hP)
    obtain ⟨w, hw, hvaries, hpaired⟩ := exists_mem_left hdefs.flip
      (List.mem_filter.mpr ⟨hz, by rw [hlabel]; rfl⟩)
    have hws := (List.mem_filter.mp (hmoved.mem_iff.mp hw)).1
    have hroot : z.root = body := by
      simp only [Spot.node, hlabel] at hbody
      exact Nat.succ.inj hbody
    rw [hlabel] at hvaries
    rw [hroot, hlabel] at hpaired
    obtain ⟨label, start, root⟩ := w
    dsimp only at hvaries hpaired
    cases hvaries with
    | @define _ params₂ _ _ _ _ span₂ hparams _ =>
      have hstored := L₂.stored _ hws
      cases hstored with
      | define _ hP₂ =>
        have hi₂ : root + 1 ∈ ids₂ := L₂.nodes ▸ List.mem_map_of_mem hws
        obtain ⟨-, -, body₂', hR₂, hrew₂⟩ := h₂.elaborated.functions _ hi₂ _ _ _ _ hP₂
        refine ⟨_, h₂.elaborated.calls_definition hi₂ hP₂, .intro rfl hR₁ hR₂ ?_
          (hpaired.resolved h₁ h₂ hv hmore rfl bodyScope_isValue bodyScope_isValue hrew₁ hrew₂)⟩
        have hnames := congrArg (List.map Prod.fst) hparams
        rw [List.map_map, List.map_map] at hnames
        exact hnames

/-- Two ways of writing a program are resolved to patches that have all in common that lowering asks
for. -/
theorem exists_pairedPatches (hhosts : HostsMatch R₁.hostParams R₂.hostParams) :
    ∃ C rest, PairedPatches v R₁ R₂ P₁.size P₂.size rest C ∧ (more = [] → rest = []) := by
  obtain ⟨zs, L₁, -⟩ := h₁.elaborated.statements.layout (by simp) h₁.stored
  obtain ⟨ws, L₂, -⟩ := h₂.elaborated.statements.layout (by simp) h₂.stored
  obtain ⟨front, later, _, ids₁', ids₂', rfl, hids, L, hlater, hlength⟩ := L₁.of_append
  obtain ⟨B, mid, hB, hmoved, hothers, hdefs⟩ := L.exists_partners L₂ hv h₂.survey.checks
  refine ⟨Adjoined P₁ P₂ R₁ R₂ B, R₁.actions ids₂', ⟨⟨?_, h₁.elaborated.normal h₁.stored,
    h₂.elaborated.normal h₂.stored, h₁.elaborated.read, hhosts, ?_, ?_, ?_⟩, ?_⟩, ?_⟩
  · exact fun h h' => h.one hB h₁.survey.unshared h₂.survey.unshared h'
  · intro callee callee' b hcallee hcalls
    refine h₂.calls_builtin ?_
    rw [h₁.globalRole_eq hv hmore hcallee, h₁.calls_role hcalls]
    rfl
  · intro op
    obtain ⟨b, hb, hkind, hparams, hstateful⟩ := op.find?_functionName
    refine ⟨b, h₂.calls_builtin ?_, Builtin.mem_table hb, hkind, hparams, hstateful⟩
    rw [globalRole, hb]
  · intro callee callee' f₁ hcallee hcalls
    -- the later statements define nothing
    have hnone : later.filter (·.label.isDefinition) = [] := by
      refine List.filter_eq_nil_iff.mpr fun z hz => ?_
      simp [hmore z.label (hlater ▸ List.mem_map_of_mem hz)]
    rw [← List.append_nil (front.filter _), ← hnone, ← List.filter_append] at hdefs
    exact L₁.exists_function h₁ h₂ hv hmore L₂ hmoved hdefs hcallee hcalls
  · refine ⟨R₁.actions ids₁', by rw [hids]; exact List.filter_append _ _, ?_⟩
    refine forall₂_comp hothers L.actions L₂.actions fun z w i j hz hzw hsettled₁ hsettled₂ => ?_
    exact hsettled₁.paired h₁ h₂ hv hmore hsettled₂
      (by simpa using (List.mem_filter.mp hz).2) hzw.1 hzw.2
  · rintro rfl
    obtain rfl := List.map_eq_nil_iff.mp hlater
    obtain rfl := List.eq_nil_of_length_eq_zero hlength.symm
    rfl

end

end SignalPatch
