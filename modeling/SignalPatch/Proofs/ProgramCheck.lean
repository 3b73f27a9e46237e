import Mathlib.Data.List.Nodup
import SignalPatch.Proofs.StaticCheck

/-!
# When a program can be resolved

`ProgramChecks` says of a list of statements, as they were written, that resolution finds no error
in it: its functions can be defined besides the built-in ones, their bodies check, and so do the
other statements, one after the other. What a name means outside of bodies does not depend on where
its function is defined (`globalRole`).

`resolve_success_iff` says that a stored program is resolved successfully exactly if it checks, and
`ResolvedSurvey` what else is known of the outcome.
-/

namespace SignalPatch

open Resolving (formal Clean Step)

/-! ## Roles of names -/

def Scope.role (scope : Scope) (n : String) : Option Role :=
  (scope.named? n).map fun s => s.meaning.role

/-- What names can be used as in an open scope. -/
def seenFrom (scope : Scope) (roles : String → Option Role) (n : String) : Option Role :=
  (scope.role n).or (roles n)

theorem role_above (G scope : Scope) :
    (SymbolTable.above G scope).role = seenFrom scope G.role := by
  funext n
  simp only [SymbolTable.role, seenFrom, Scope.role, SymbolTable.lookup_above]
  cases scope.named? n <;> rfl

theorem seenFrom_congr {scope scope' : Scope} (h : scope.outline = scope'.outline)
    (roles : String → Option Role) : seenFrom scope roles = seenFrom scope' roles := by
  have hrole : ∀ scope : Scope, scope.role = scope.outline.role := by
    intro scope
    funext n
    rw [Scope.role, Scope.role, Scope.named?_outline, Option.map_map]
    rfl
  unfold seenFrom
  rw [hrole scope, h, ← hrole scope']

def Statement.definition? : Statement → Option (String × Signature)
  | .define name params _ _ => some (name, params.map formal)
  | _ => none

def definitions (ss : List Statement) : List (String × Signature) :=
  ss.filterMap Statement.definition?

def globalRole (ss : List Statement) (n : String) : Option Role :=
  match Builtin.find? n with
  | some b => some (.builtin b)
  | none => ((definitions ss).find? (·.1 == n)).map fun d => .function d.2

theorem standard_symbols : ∀ s ∈ SymbolTable.builtinSymbols ++ SymbolTable.aliasSymbols,
    (SymbolTable.standard.globals.named? s.name).map Symbol.meaning = some s.meaning := by
  decide +kernel

theorem standard_builtin (h : Builtin.find? n = some b) :
    ∃ s ∈ SymbolTable.standard.globals, s.name = n ∧ s.meaning = .builtin b := by
  have hmem : Symbol.of n (.builtin b) ∈ SymbolTable.builtinSymbols ++
      SymbolTable.aliasSymbols := by
    refine List.mem_append.mpr ?_
    cases ha : Builtin.aliases.lookup n with
    | some target =>
      refine .inr (List.mem_filterMap.mpr ⟨(n, target), ?_, by simp [h]⟩)
      obtain ⟨front, back, heq, -⟩ := List.lookup_eq_some_iff.mp ha
      simp [heq]
    | none =>
      refine .inl (List.mem_map.mpr ⟨b, Builtin.mem_table h, ?_⟩)
      have hname : b.name = Builtin.canonicalName n := by simpa using List.find?_some h
      rw [hname, Builtin.canonicalName, ha]
      rfl
  obtain ⟨s, hs, hm⟩ := Option.map_eq_some_iff.mp (standard_symbols _ hmem)
  obtain ⟨hs, hn⟩ := Scope.named?_eq_some hs
  exact ⟨s, hs, hn, hm⟩

/-! ## Statements -/

/-- The functions can be made known besides the names in `G`. -/
structure Definable (G : Scope) (defs : List (String × Signature)) : Prop where
  distinct : (defs.map fun d => Text.fingerprint d.1).Nodup
  free : ∀ d ∈ defs, G.find? (Text.fingerprint d.1) = none
  params : ∀ d ∈ defs, (d.2.map Formal.name).Nodup

def Statement.BodyChecks (roles : String → Option Role) : Statement → Prop
  | .define _ params body _ => body.Checks (seenFrom (bodyScope params) roles) none
  | _ => True

/-- The statements besides the function definitions have no error, one after the other, in the scope
of the variables `vars`. -/
inductive StatementsCheck (roles : String → Option Role) : Scope → List Statement → Prop
  | nil : StatementsCheck roles vars []
  | define : StatementsCheck roles vars ss →
      StatementsCheck roles vars (.define name params body span :: ss)
  | assign {vars : Scope} : value.Checks (seenFrom vars roles) none →
      vars.find? (Text.fingerprint x) = none →
      StatementsCheck roles (variableSymbol x span :: vars) ss →
      StatementsCheck roles vars (.assign x value span :: ss)
  | expr : e.Checks (seenFrom vars roles) none → StatementsCheck roles vars ss →
      StatementsCheck roles vars (.expr e :: ss)

structure ProgramChecks (ss : List Statement) : Prop where
  definable : Definable SymbolTable.standard.globals (definitions ss)
  bodies : ∀ s ∈ ss, s.BodyChecks (globalRole ss)
  statements : StatementsCheck (globalRole ss) [] ss

def Statement.bodyDeclarations : Statement → List HostParam
  | .define _ _ body _ => body.declarations none
  | _ => []

def Statement.declarations : Statement → List HostParam
  | .define .. => []
  | .assign _ value _ => value.declarations none
  | .expr e => e.declarations none

def programDeclarations (ss : List Statement) : List HostParam :=
  ss.flatMap Statement.bodyDeclarations ++ ss.flatMap Statement.declarations

theorem map_formal_name (params : List Parameter) :
    (params.map formal).map Formal.name = params.map Parameter.name := by
  rw [List.map_map]
  rfl

theorem definable_nil : Definable G [] := ⟨by simp, by simp, by simp⟩

theorem definable_cons (hhash : s.hash = Text.fingerprint d.1) :
    Definable G (d :: defs) ↔
      ((d.2.map Formal.name).Nodup ∧ G.find? (Text.fingerprint d.1) = none) ∧
      Definable (s :: G) defs := by
  -- A name is free behind `d` if it is free and has another fingerprint.
  have hfind : ∀ hash, Scope.find? (s :: G) hash = none ↔ Text.fingerprint d.1 ≠ hash ∧
      G.find? hash = none := by
    intro hash
    rw [Scope.find?_cons, hhash]
    split <;> simp_all
  constructor
  · rintro ⟨hdistinct, hfree, hparams⟩
    rw [List.map_cons, List.nodup_cons] at hdistinct
    rw [List.forall_mem_cons] at hfree hparams
    refine ⟨⟨hparams.1, hfree.1⟩, hdistinct.2, fun d' hd' =>
      (hfind _).mpr ⟨?_, hfree.2 d' hd'⟩, hparams.2⟩
    exact fun heq => hdistinct.1 (List.mem_map.mpr ⟨d', hd', heq.symm⟩)
  · rintro ⟨⟨hparams, hfree⟩, htail⟩
    refine ⟨?_, ?_, ?_⟩
    · rw [List.map_cons, List.nodup_cons]
      refine ⟨fun hmem => ?_, htail.distinct⟩
      obtain ⟨d', hd', heq⟩ := List.mem_map.mp hmem
      exact ((hfind _).mp (htail.free d' hd')).1 heq.symm
    · rw [List.forall_mem_cons]
      exact ⟨hfree, fun d' hd' => ((hfind _).mp (htail.free d' hd')).2⟩
    · rw [List.forall_mem_cons]
      exact ⟨hparams, htail.params⟩

namespace Resolving

/-! ## Collecting the functions -/

theorem repeatedParameters_eq_nil : repeatedParameters function seen ps = [] ↔
    (ps.map Parameter.name).Nodup ∧ ∀ p ∈ ps, p.name ∉ seen := by
  refine ⟨nodup_of_repeatedParameters, ?_⟩
  induction ps generalizing seen with
  | nil => exact fun _ => rfl
  | cons p ps ih =>
    rintro ⟨hnodup, hseen⟩
    rw [List.map_cons, List.nodup_cons] at hnodup
    rw [List.forall_mem_cons] at hseen
    rw [repeatedParameters, if_neg (by simpa using hseen.1), List.nil_append]
    refine ih ⟨hnodup.2, fun q hq => ?_⟩
    rw [List.mem_cons, not_or]
    exact ⟨fun heq => hnodup.1 (List.mem_map.mpr ⟨q, hq, heq⟩), hseen.2 q hq⟩

theorem clean_repeatedParameters : Clean (repeatedParameters function [] ps) ↔
    (ps.map Parameter.name).Nodup := by
  have hnil : Clean (repeatedParameters function [] ps) ↔
      repeatedParameters function [] ps = [] := by
    refine ⟨fun hclean => List.eq_nil_iff_forall_not_mem.mpr fun f hf => ?_,
      fun h => by simp [h, Clean]⟩
    have := repeatedParameters_isError function [] ps f hf
    rw [hclean f hf] at this
    cases this
  rw [hnil, repeatedParameters_eq_nil]
  simp

theorem hoist_define {r : Resolution} {i : NodeId} (hsym : r.symbols = ⟨[], G⟩)
    (hnode : r.nodes[i]? = some ⟨.define name params body, span⟩) :
    (Clean ((hoist i).run r).2.findings ↔ Clean r.findings ∧
      (params.map Parameter.name).Nodup ∧ G.find? (Text.fingerprint name) = none) ∧
    (Clean ((hoist i).run r).2.findings → ((hoist i).run r).2.symbols =
      ⟨[], .ofFunction ⟨name, params.map formal, i⟩ span :: G⟩) := by
  have hrun := run_hoist_define hnode
  have hdefine : ({ r with findings := r.findings ++ repeatedParameters name [] params } :
      Resolution).symbols.define? (.ofFunction ⟨name, params.map formal, i⟩ span) =
      if (G.find? (Text.fingerprint name)).isSome then none
      else some ⟨[], .ofFunction ⟨name, params.map formal, i⟩ span :: G⟩ := by
    rw [hsym]
    rfl
  -- A name that is taken is reported and not added.
  by_cases htaken : (G.find? (Text.fingerprint name)).isSome
  · rw [if_pos htaken] at hdefine
    rw [run_define_none hdefine] at hrun
    have hnot : ¬ Clean ((hoist i).run r).2.findings := by
      rw [hrun]
      exact not_clean_report rfl _ _
    refine ⟨iff_of_false hnot fun h => ?_, fun h => absurd h hnot⟩
    simp [h.2.2] at htaken
  · rw [if_neg htaken] at hdefine
    rw [run_define_some hdefine] at hrun
    rw [hrun]
    refine ⟨?_, fun _ => rfl⟩
    rw [clean_append, clean_repeatedParameters]
    simp_all

theorem forM_hoist_clean (h : StoredList P a ss ids) : ∀ {r : Resolution} {G : Scope}, r.nodes = P →
    r.symbols = ⟨[], G⟩ → Globals P all G → (∀ i ∈ ids, i ∈ all) →
    (Clean ((ids.forM hoist).run r).2.findings ↔ Clean r.findings ∧
      Definable G (definitions ss)) := by
  induction h with
  | nil => exact fun _ _ _ _ => ⟨fun h => ⟨h, definable_nil⟩, fun h => h.1⟩
  | @cons a b s i ss ids hab hs hrest ih =>
    rintro r G rfl hsym hG hall
    have hlater := fun j hj => hall j (List.mem_cons_of_mem i hj)
    have hother (hrun : ((hoist i).run r).2 = r) :
        Clean (((i :: ids).forM hoist).run r).2.findings ↔ Clean r.findings ∧
          Definable G (definitions ss) := by
      rw [run_forM_cons, hrun]
      exact ih rfl hsym hG hlater
    cases hs with
    | @define e body name params span hbody hnode =>
      obtain ⟨G₁, fs₁, hrun₁, hfirst⟩ := hoist_ok (hall (body + 1) List.mem_cons_self) hsym hG
      obtain ⟨hclean, hsymbols⟩ := hoist_define hsym hnode
      have hnext := ih (r := ((hoist (body + 1)).run r).2) (G := G₁) (by rw [hrun₁]) (by rw [hrun₁])
        hfirst.globals hlater
      have hhash : (Symbol.ofFunction ⟨name, params.map formal, body + 1⟩ span).hash =
          Text.fingerprint (name, params.map formal).1 := rfl
      have hcons : Definable G (_ :: definitions ss) ↔ _ := definable_cons hhash
      have hdefs : definitions (.define name params e span :: ss) = (name, params.map formal) ::
          definitions ss := rfl
      rw [run_forM_cons, hnext, hdefs, hcons, map_formal_name, ← and_assoc, ← hclean]
      -- Only if nothing was reported is the scope the one that `Definable` goes on with.
      refine and_congr_right fun hc => ?_
      have hG₁ := hsymbols hc
      rw [hrun₁] at hG₁
      rw [(SymbolTable.mk.inj hG₁).2]
    | assign hv hnode => exact hother (run_hoist_other (not_defines_assign hnode))
    | expr he => exact hother (run_hoist_other (he.not_defines rfl))

end Resolving

theorem mem_definitions : d ∈ definitions ss ↔
    ∃ params body span, d.2 = params.map formal ∧ .define d.1 params body span ∈ ss := by
  simp only [definitions, List.mem_filterMap]
  constructor
  · rintro ⟨s, hs, hd⟩
    cases s with
    | define name params body span =>
      cases hd
      exact ⟨params, body, span, rfl, hs⟩
    | _ => cases hd
  · rintro ⟨params, body, span, hd, hs⟩
    exact ⟨_, hs, congrArg some (Prod.ext rfl hd.symm)⟩

theorem Definable.find? (h : Definable G defs) (hd : d ∈ defs) :
    defs.find? (·.1 == d.1) = some d := by
  have hsome : (defs.find? (·.1 == d.1)).isSome := List.find?_isSome.mpr ⟨d, hd, by simp⟩
  obtain ⟨d', hd'⟩ := Option.isSome_iff_exists.mp hsome
  have hname : d'.1 = d.1 := by simpa using List.find?_some hd'
  rw [hd', List.inj_on_of_nodup_map h.distinct (List.mem_of_find?_eq_some hd') hd (by rw [hname])]

/-- The global scope once the functions of the statements `ss` are known. -/
structure GlobalsOf (P : Arena) (ids : List NodeId) (ss : List Statement) (G : Scope) : Prop extends
    Globals P ids G where
  standard : ∀ s ∈ SymbolTable.standard.globals, s ∈ G
  role : G.role = globalRole ss

theorem Globals.role_eq (hG : Globals P ids G) (h : StoredList P 0 ss ids)
    (hdef : Definable SymbolTable.standard.globals (definitions ss))
    (hstandard : ∀ s ∈ SymbolTable.standard.globals, s ∈ G)
    (hfunctions : ∀ i ∈ ids, ∀ name params body span, P[i]? =
      some ⟨.define name params body, span⟩ → .ofFunction ⟨name, params.map formal, i⟩ span ∈ G) :
    G.role = globalRole ss := by
  funext n
  rw [Scope.role, globalRole]
  -- A builtin keeps its name; any other name is defined on both sides or on neither.
  cases hb : Builtin.find? n with
  | some b =>
    obtain ⟨s, hs, rfl, hm⟩ := standard_builtin hb
    simp [hG.filed.named?_mem (hstandard s hs), hm, Meaning.role]
  | none =>
    cases hn : G.named? n with
    | some s =>
      obtain ⟨hs, rfl⟩ := Scope.named?_eq_some hn
      cases hG.known s hs with
      | builtin b _ hfind => cases hb.symm.trans hfind
      | function i name params body span hi hnode hsymbol =>
        obtain ⟨b, s', hs', -, hstored⟩ := h.statement hi
        obtain ⟨e, rfl, -⟩ := hstored.of_define hnode
        have hmem : (name, params.map formal) ∈ definitions ss :=
          mem_definitions.mpr ⟨params, e, span, rfl, hs'⟩
        subst hsymbol
        have hfind := hdef.find? hmem
        simp only [Symbol.ofFunction, Symbol.of] at hfind ⊢
        rw [hfind]
        rfl
    | none =>
      have hnone : (definitions ss).find? (·.1 == n) = none := by
        refine List.find?_eq_none.mpr fun d hd hname => ?_
        obtain rfl : d.1 = n := by simpa using hname
        obtain ⟨params, body, span, -, hs⟩ := mem_definitions.mp hd
        obtain ⟨b, i, hi, hstored⟩ := h.stored hs
        cases hstored with
        | define _ hnode =>
          have := hG.filed.named?_mem (hfunctions _ hi _ _ _ _ hnode)
          cases hn.symm.trans this
      rw [hnone]
      rfl

theorem GlobalsOf.namesOk (h : GlobalsOf P ids ss G) (hvalues : ∀ s ∈ scope, s.isValue) :
    Resolving.NamesOk (.above G scope) := by
  refine ⟨h.signaturesOk hvalues, fun n params hrole => ?_⟩
  rw [role_above, seenFrom, h.role] at hrole
  rcases Option.or_eq_some_iff.mp hrole with hrole | ⟨-, hrole⟩
  · -- what is open are values
    obtain ⟨s, hs, hmeaning⟩ := Option.map_eq_some_iff.mp hrole
    have hvalue := hvalues s (Scope.named?_eq_some hs).1
    cases hm : s.meaning <;> simp [hm, Meaning.role, Symbol.isValue] at hmeaning hvalue
  · unfold globalRole at hrole
    cases hb : Builtin.find? n with
    | none => rfl
    | some b =>
      rw [hb] at hrole
      cases hrole

namespace Resolving

/-! ## Function bodies -/

theorem Walk.step (h : Walk P a e i none r j r') (hn : P.size ≤ r.nodes.size)
    (hG : GlobalsOf P ids ss G) (hsym : r.symbols = .above G scope)
    (hvalues : ∀ s ∈ scope, s.isValue) :
    Step P.size (e.Checks (seenFrom scope G.role) none) (e.declarations none) r r' := by
  have hstep := (h.surveyed (by simp) hn (hsym ▸ hG.namesOk hvalues)).toStep
  rwa [hsym, role_above] at hstep

theorem Step.leaveScope (h : Step n Q ds { r with symbols := t } r') : Step n Q ds r r' :=
  ⟨h.clean, h.hostParams, h.unshared⟩

theorem Walk.step_set {r₁ : Resolution} (hwalk : Walk P a e i none r j r₁)
    (hn : P.size ≤ r.nodes.size) (h : Step P.size Q ds r r₁) (hnode : r₁.nodes[k]? = some node)
    (hkind : ∀ callee args, kind = .call callee args → ∀ x ∈ args, x.value < P.size) :
    Step P.size Q ds r { r₁ with symbols := t, nodes := r₁.nodes.setKind k kind } :=
  ⟨h.clean, h.hostParams, fun hu => (h.unshared hu).setKind
    (Nat.le_trans hn hwalk.within.size) hnode kind hkind⟩

theorem BodyWalk.step (h : BodyWalk P G a s i r r') (hn : P.size ≤ r.nodes.size)
    (hG : GlobalsOf P ids ss G) :
    Step P.size (s.BodyChecks G.role) s.bodyDeclarations r r' := by
  cases h with
  | define _ hbody hnode hnode' =>
    exact Step.leaveScope
      (hbody.step_set hn (hbody.step hn hG rfl bodyScope_isValue) hnode' (by simp))
  | assign _ _ | expr _ => exact .refl trivial

theorem BodyWalks.step (h : BodyWalks P G a ss' ids r r') (hn : P.size ≤ r.nodes.size)
    (hG : GlobalsOf P all ss G) :
    Step P.size (∀ s ∈ ss', s.BodyChecks G.role) (ss'.flatMap Statement.bodyDeclarations) r r' := by
  induction h with
  | nil => exact .refl (by simp)
  | cons _ hfirst _ ih =>
    have hnext := ih (Nat.le_trans hn hfirst.within.size)
    exact ((hfirst.step hn hG).andThen hnext).congr (fun _ => List.forall_mem_cons.symm)
      fun _ => List.flatMap_cons.symm

/-! ## Other statements -/

theorem StatementWalks.step (h : StatementWalks P G a ss' ids ids' vars r vars' r')
    (hG : GlobalsOf P all ss G) (hsym : r.symbols = .above G vars) (hvalues : ∀ s ∈ vars, s.isValue)
    (hn : P.size ≤ r.nodes.size) :
    Step P.size (StatementsCheck G.role vars ss') (ss'.flatMap Statement.declarations) r r' := by
  induction h with
  | nil => exact .refl .nil
  | cons _ hfirst _ ih =>
    obtain ⟨hsym₁, hvalues₁⟩ := hfirst.scope hsym hvalues
    have hnext := ih hsym₁ hvalues₁ (Nat.le_trans hn hfirst.within.size)
    cases hfirst with
    | define _ _ _ =>
      refine hnext.congr (fun _ => ⟨.define, fun h => ?_⟩) fun _ => rfl
      cases h with
      | define h => exact h
    | assign hfree hv hnode hnode' =>
      refine ((hv.step_set hn (hv.step hn hG hsym hvalues) hnode' (by simp)).andThen hnext).congr
        (fun _ => ⟨fun h => .assign h.1 hfree h.2, fun h => ?_⟩) fun _ => ?_
      · cases h with
        | assign hchecks _ h => exact ⟨hchecks, h⟩
      · rw [List.flatMap_cons]
        rfl
    | taken htaken hv hnode hnode' =>
      -- no later statement takes the error back
      refine (Step.andThen (.fail rfl not_false (fun hu => ?_) rfl) hnext).congr
        (fun _ => ⟨fun h => h.1.elim, fun h => ?_⟩) fun _ => List.flatMap_cons.symm
      · have hkept := (hv.step hn hG hsym hvalues).unshared hu
        exact hkept.setKind (Nat.le_trans hn hv.within.size) hnode' _ (by simp)
      · cases h with
        | assign _ hfree _ => cases htaken.symm.trans hfree
    | expr he =>
      refine ((he.step hn hG hsym hvalues).andThen hnext).congr
        (fun _ => ⟨fun h => .expr h.1 h.2, fun h => ?_⟩) fun _ => ?_
      · cases h with
        | expr hchecks h => exact ⟨hchecks, h⟩
      · rw [List.flatMap_cons]
        rfl

end Resolving

/-! ## Programs -/

/-- What is known of a successful resolution of the statements `ss`, besides what became of them. -/
structure ResolvedSurvey (P : Arena) (ids : List NodeId) (ss : List Statement) (R : Resolved) :
    Prop where
  checks : ProgramChecks ss
  hostParams : R.hostParams = (programDeclarations ss).foldl HostParam.declare []
  unshared : R.patch.nodes.Unshared P.size
  globals : GlobalsOf P ids ss R.symbols.globals

open Resolving in
theorem Patch.resolve_survey {p : Patch} (h : StoredList p.nodes 0 ss p.statements)
    (hunshared : p.nodes.Unshared p.nodes.size) :
    (p.resolve.success → ResolvedSurvey p.nodes p.statements ss p.resolve) ∧
      (ProgramChecks ss → p.resolve.success) := by
  obtain ⟨G, vars, r₁, r₂, r₃, hrun⟩ := p.resolve_run h
  obtain ⟨G₀, hstandard, hG₀⟩ := standard_globals p.nodes p.statements
  let r₀ : Resolution := { nodes := p.nodes }
  have hsym : r₀.symbols = ⟨[], G₀⟩ := by rw [← hstandard]
  have hglobals : SymbolTable.standard.globals = G₀ := by rw [hstandard]
  have hclean₁ := forM_hoist_clean h (r := r₀) rfl hsym hG₀ fun i hi => hi
  rw [hrun.hoisted, ← hglobals] at hclean₁
  -- Bodies and statements see the names of the program once every definition is accepted.
  have hrest : Definable SymbolTable.standard.globals (definitions ss) →
      GlobalsOf p.nodes p.statements ss G := by
    intro hdef
    have hc₁ : Clean r₁.findings := hclean₁.mpr ⟨by simp [Clean, r₀], hdef⟩
    refine ⟨hrun.known.globals, hrun.known.grows,
      hrun.known.globals.role_eq h hdef hrun.known.grows ?_⟩
    exact fun i hi name params body span hnode =>
      (hrun.known.functions hc₁ i hi name params body span hnode).1
  have hboth : ∀ hG : GlobalsOf p.nodes p.statements ss G,
      Step p.nodes.size
        ((∀ s ∈ ss, s.BodyChecks (globalRole ss)) ∧ StatementsCheck (globalRole ss) [] ss)
        (programDeclarations ss) r₁ r₃ := by
    intro hG
    have hstatements := hrun.statements.step hG rfl (by simp)
      (Nat.le_trans hrun.size hrun.bodies.within.size)
    have hstep := (hrun.bodies.step hrun.size hG).andThen hstatements.leaveScope
    rw [hG.role] at hstep
    exact hstep
  constructor
  · intro hsuccess
    obtain ⟨hc₁, hc⟩ := hrun.clean hsuccess
    have hdef := (hclean₁.mp hc₁).2
    have hG := hrest hdef
    have hsteps := hboth hG
    obtain ⟨-, hbodies, hstatements⟩ := hsteps.clean.mp hc
    refine ⟨⟨hdef, hbodies, hstatements⟩, ?_, ?_, hrun.globals ▸ hG⟩
    · rw [hrun.hostParams, hsteps.hostParams hc, hrun.opened]
    · rw [hrun.nodes]
      refine hsteps.unshared ?_
      rw [hrun.opened]
      exact hunshared
  · intro hchecks
    rw [p.resolve.success_iff_clean, hrun.findings]
    refine (hboth (hrest hchecks.definable)).clean.mpr ⟨?_, hchecks.bodies, hchecks.statements⟩
    exact hclean₁.mpr ⟨by simp [Clean, r₀], hchecks.definable⟩

/-- A program is resolved successfully exactly if it checks. -/
theorem resolve_success_iff {p : Patch} (h : StoredList p.nodes 0 ss p.statements)
    (hunshared : p.nodes.Unshared p.nodes.size) : p.resolve.success ↔ ProgramChecks ss :=
  ⟨fun hsuccess => ((p.resolve_survey h hunshared).1 hsuccess).checks,
    (p.resolve_survey h hunshared).2⟩

end SignalPatch
