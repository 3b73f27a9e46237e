import SignalPatch.Proofs.Variation

/-!
# Programs check however they are written

Whether a program can be resolved does not depend on the order of its named arguments, nor on where
its functions are defined (`ProgramVaries.checks`). It declares the same host parameters, perhaps in
another order (`ProgramVaries.declarations`); so if no name is declared twice, each name stands for
the same one (`hostsAgree_of_perm`).
-/

namespace SignalPatch

open Binding (given Rearranged)
open Resolving (formal)

/-! ## Lists in any order -/

structure Latitude.Permutes (v : Latitude) (xs ys : List α) : Prop where
  perm : xs.Perm ys
  eq : v.order = false → xs = ys

namespace Latitude.Permutes

variable {v : Latitude}

theorem of_eq (v : Latitude) (h : xs = ys) : v.Permutes xs ys := ⟨h ▸ .refl _, fun _ => h⟩

theorem append (h : v.Permutes xs ys) (h' : v.Permutes xs' ys') :
    v.Permutes (xs ++ xs') (ys ++ ys') :=
  ⟨h.perm.append h'.perm, fun hv => by rw [h.eq hv, h'.eq hv]⟩

theorem trans (h : v.Permutes xs ys) (h' : v.Permutes ys zs) : v.Permutes xs zs :=
  ⟨h.perm.trans h'.perm, fun hv => (h.eq hv).trans (h'.eq hv)⟩

theorem of_reorders {name : α → Option String} (h : v.Reorders name xs ys) : v.Permutes xs ys :=
  ⟨h.rearranged.perm, h.eq⟩

theorem flatMap {xs ys : List α} (h : v.Permutes xs ys) (f : α → List β) :
    v.Permutes (xs.flatMap f) (ys.flatMap f) :=
  ⟨h.perm.flatMap_right f, fun hv => by rw [h.eq hv]⟩

theorem flatMap_forall₂ {r : α → β → Prop} {f : α → List γ} {g : β → List γ}
    (h : List.Forall₂ r xs ys) (hfg : ∀ x ∈ xs, ∀ y, r x y → v.Permutes (f x) (g y)) :
    v.Permutes (xs.flatMap f) (ys.flatMap g) := by
  induction h with
  | nil => exact .of_eq v rfl
  | cons hxy _ ih =>
    rw [List.flatMap_cons, List.flatMap_cons]
    exact (hfg _ (by simp) _ hxy).append (ih fun x hx => hfg x (List.mem_cons_of_mem _ hx))

end Latitude.Permutes

/-! ## What calls ask for -/

theorem exists_mem_left {r : α → β → Prop} (h : List.Forall₂ r xs ys) (hy : y ∈ ys) :
    ∃ x ∈ xs, r x y := by
  induction h with
  | nil => simp at hy
  | cons hxy _ ih =>
    rcases List.mem_cons.mp hy with rfl | hy
    · exact ⟨_, List.mem_cons_self, hxy⟩
    · obtain ⟨x, hx, hr⟩ := ih hy
      exact ⟨x, List.mem_cons_of_mem _ hx, hr⟩

theorem faces_congr {xs ys : List (Arg Face)} (params : Signature)
    (h : ∀ k, (given params xs k).map Arg.value = (given params ys k).map Arg.value) :
    Binding.faces params xs = Binding.faces params ys := by
  refine List.map_congr_left fun q _ => ?_
  unfold Binding.face
  have hk := h q.2
  cases hx : given params xs q.2 <;> cases hy : given params ys q.2 <;> rw [hx, hy] at hk <;>
    simp only [Option.map_some, Option.map_none, reduceCtorEq, Option.some.injEq] at hk
  · cases q.1.fallback with
    | sameAs j => simp only [h j]
    | _ => rfl
  · exact hk

theorem faces_matches {xs ys : List (Arg Face)} (params : Signature)
    (h : List.Forall₂ (Matches Eq) xs ys) : Binding.faces params xs = Binding.faces params ys := by
  refine faces_congr params fun k => ?_
  have hrel := given_rel h params k
  generalize given params xs k = ox at hrel ⊢
  generalize given params ys k = oy at hrel ⊢
  cases hrel with
  | none => rfl
  | some hxy => exact congrArg some hxy.2

theorem faces_rearranged {xs ys : List (Arg Face)} (params : Signature)
    (h : Rearranged Arg.name xs ys) (hdistinct : (xs.map Arg.name).reduceOption.Nodup) :
    Binding.faces params xs = Binding.faces params ys :=
  faces_congr params fun k => by rw [h.given_eq hdistinct params k]

theorem Role.Takes.distinct (h : Role.Takes role args) :
    (args.map Arg.name).reduceOption.Nodup := by
  cases role with
  | value => exact h.elim
  | builtin b => exact h.1.distinct
  | function params =>
    have hfits : Binding.Fits params (args.map Arg.name) := h
    exact hfits.distinct

theorem Role.Takes.varied (h : Role.Takes role xs) (hmid : List.Forall₂ (Matches Eq) xs mid)
    (hr : Rearranged Arg.name mid ys) : Role.Takes role ys := by
  have hdistinct := h.distinct
  rw [map_name_of_matches hmid] at hdistinct
  cases role with
  | value => exact h.elim
  | function params =>
    rw [Takes, map_name_of_matches hmid] at h
    exact h.rearranged hr
  | builtin b =>
    rw [Takes, map_name_of_matches hmid, faces_matches _ hmid, faces_rearranged _ hr hdistinct] at h
    exact ⟨h.1.rearranged hr, h.2⟩

/-! ## Trees -/

theorem argsHaveHole_eq (args : List (Arg Expr)) :
    argsHaveHole args = args.any (·.value.hasHole) := by
  induction args with
  | nil => rfl
  | cons a args ih => rw [argsHaveHole, ih, List.any_cons]

theorem faceArgs_matches {args mid : List (Arg Expr)} (flow : Option Face)
    (h : List.Forall₂ (Matches fun e e' => e.face flow = e'.face flow) args mid) :
    List.Forall₂ (Matches Eq) (Expr.faceArgs flow args) (Expr.faceArgs flow mid) := by
  unfold Expr.faceArgs
  rw [List.forall₂_map_left_iff, List.forall₂_map_right_iff]
  exact h

theorem faceArgs_rearranged {mid args : List (Arg Expr)} (flow : Option Face)
    (h : Rearranged Arg.name mid args) :
    Rearranged Arg.name (Expr.faceArgs flow mid) (Expr.faceArgs flow args) :=
  h.map _ fun _ => rfl

/-- What names stand for in the first tree, they stand for in the second. -/
structure Manner.Keeps (w : Manner) (roles roles' : String → Option Role) : Prop where
  value : ∀ x, roles x = some .value → roles' (w.name x) = some .value
  function : ∀ f role, w.calls f → roles f = some role → role ≠ .value → roles' f = some role

theorem Manner.Keeps.inBody (w : Manner) (roles : String → Option Role) :
    w.inBody.Keeps roles roles :=
  ⟨fun _ h => h, fun _ _ _ h _ => h⟩

namespace Expr.Varies

variable {w : Manner}

theorem face (h : Varies w e e') (flow : Option Face) : e.face flow = e'.face flow := by
  cases h <;> rfl

theorem hasHole (h : Varies w e e') : e.hasHole = e'.hasHole := by
  induction h with
  | number | bool | text | ident | hole => rfl
  | binary _ _ ihl ihr => rw [Expr.hasHole, Expr.hasHole, ihl, ihr]
  | pipe _ _ ihs _ => rw [Expr.hasHole, Expr.hasHole, ihs]
  | call _ _ hnames _ hreorder _ ih =>
    have hargs := forall₂_matches (Q := fun e e' => e.hasHole = e'.hasHole) hnames ih
    have hmap := Binding.map_eq_of_forall₂ (fun _ _ hab => hab.2) hargs
    rw [Expr.hasHole, Expr.hasHole, argsHaveHole_eq, argsHaveHole_eq,
      ← hreorder.rearranged.perm.any_eq]
    simpa [List.any_map, Function.comp_def] using congrArg (List.any · id) hmap
  | operator _ _ _ ihl ihr =>
    rw [Expr.hasHole, Expr.hasHole, argsHaveHole_eq, ihl, ihr]
    simp

theorem isCall (hv : w.spelling = false) (h : Varies w e e') : e.isCall = e'.isCall := by
  cases h with
  | operator hs => cases hv.symm.trans hs
  | _ => rfl

/-- A tree that checks does so in another order of named arguments and with other names of
variables. -/
theorem checks (hv : w.spelling = false) (hroles : w.Keeps roles roles') (h : Varies w e e') :
    ∀ {flow}, e.Checks roles flow → e'.Checks roles' flow := by
  induction h with
  | number => exact fun _ => .number
  | bool => exact fun _ => .bool
  | text => exact fun _ => .text
  | ident => exact fun hc => .ident (hroles.value _ (Checks.ident_iff.mp hc))
  | hole => exact fun hc => Checks.hole_iff.mpr (Checks.hole_iff.mp hc)
  | binary _ _ ihl ihr =>
    intro flow hc
    obtain ⟨hl, hr⟩ := Checks.binary_iff.mp hc
    exact .binary (ihl hl) (ihr hr)
  | pipe hs ht ihs iht =>
    intro flow hc
    obtain ⟨hsource, hcall, hhole, htarget⟩ := Checks.pipe_iff.mp hc
    rw [hs.face flow] at htarget
    exact .pipe (ihs hsource) (ht.isCall hv ▸ hcall) (ht.hasHole ▸ hhole) (iht htarget)
  | call hcalls _ hnames hargs hreorder hcallee ih =>
    intro flow hc
    obtain ⟨hvalues, role, hrole, htakes⟩ := Checks.call_iff.mp hc
    have hfunction : role ≠ .value := by
      rintro rfl
      exact htakes.elim
    rw [hcallee.eq hv]
    refine .call (fun a ha => ?_) (hroles.function _ _ hcalls hrole hfunction)
      (htakes.varied (faceArgs_matches flow
      (forall₂_matches hnames fun q hq => (hargs q hq).face flow))
        (faceArgs_rearranged flow hreorder.rearranged))
    -- An argument after reordering is a varied one of those before.
    have hmid := hreorder.rearranged.perm.mem_iff.mpr ha
    obtain ⟨x, hx, hzip⟩ := exists_mem_zip (by simpa using (congrArg List.length hnames).symm) hmid
    exact ih _ hzip (hvalues x hx)
  | operator hs => cases hv.symm.trans hs

end Expr.Varies

/-! ## Host parameters of trees -/

def HostParam.placeless (p : HostParam) : HostParam := { p with offset := 0, length := 0 }

def Expr.hosts (flow : Option Face) (e : Expr) : List HostParam :=
  (e.declarations flow).map HostParam.placeless

def RolesOk (roles : String → Option Role) : Prop :=
  ∀ n b role, Builtin.find? n = some b → roles n = some role → role = .value ∨ role = .builtin b

theorem Builtin.declarations_placeless (b : Builtin) (faces : List Face) (span span' : Span) :
    (b.declarations faces span).map HostParam.placeless =
      (b.declarations faces span').map HostParam.placeless := by
  unfold declarations
  split
  · rename_i rest _
    cases Face.numbers rest <;> rfl
  · rfl

theorem callDeclarations_operator (op : BinaryOp) (args : List (Arg Face)) (span : Span) :
    callDeclarations op.functionName args span = [] := by
  have hkind : (Builtin.find? op.functionName).map Builtin.kind =
      some (.op (Lowering.binaryOpcode op)) := by
    cases op <;> decide
  obtain ⟨b, hb, hk⟩ := Option.map_eq_some_iff.mp hkind
  simp [callDeclarations, hb, Builtin.declarations, hk]

theorem callDeclarations_varied (hroles : RolesOk roles) (hrole : roles callee = some role)
    (htakes : role.Takes xs) (hmid : List.Forall₂ (Matches Eq) xs mid)
    (hr : Rearranged Arg.name mid ys) (hfind : Builtin.find? callee' = Builtin.find? callee)
    (span span' : Span) :
    (callDeclarations callee xs span).map HostParam.placeless =
      (callDeclarations callee' ys span').map HostParam.placeless := by
  unfold callDeclarations
  rw [hfind]
  cases hb : Builtin.find? callee with
  | none => rfl
  | some b =>
    rcases hroles _ _ _ hb hrole with rfl | rfl
    · exact htakes.elim
    · have hdistinct := htakes.distinct
      rw [map_name_of_matches hmid] at hdistinct
      simp only [Option.map_some, Option.getD_some]
      rw [faces_matches _ hmid, faces_rearranged _ hr hdistinct]
      exact b.declarations_placeless _ _ _

theorem Expr.hosts_call (flow : Option Face) (callee : String) (args : List (Arg Expr)) (s : Span) :
    (Expr.call callee args s).hosts flow = (args.flatMap fun a => a.value.hosts flow) ++
      (callDeclarations callee (Expr.faceArgs flow args) s).map HostParam.placeless := by
  rw [hosts, Expr.declarations, argDeclarations_eq, List.map_append, List.map_flatMap]
  rfl

theorem Expr.hosts_binary (flow : Option Face) (op : BinaryOp) (lhs rhs : Expr) (s : Span) :
    (Expr.binary op lhs rhs s).hosts flow = lhs.hosts flow ++ rhs.hosts flow := by
  rw [hosts, Expr.declarations, List.map_append]
  rfl

theorem Expr.hosts_pipe (flow : Option Face) (source target : Expr) (s : Span) :
    (Expr.pipe source target s).hosts flow = source.hosts flow ++
      target.hosts (some (source.face flow)) := by
  rw [hosts, Expr.declarations, List.map_append]
  rfl

/-- A tree that checks declares the same host parameters however it is written. -/
theorem Expr.Varies.hosts {w : Manner} (hroles : RolesOk roles) (h : Expr.Varies w e e') :
    ∀ {flow}, e.Checks roles flow → w.Permutes (e.hosts flow) (e'.hosts flow) := by
  induction h with
  | number | bool | text | ident | hole => exact fun _ => .of_eq _ rfl
  | binary _ _ ihl ihr =>
    intro flow hc
    obtain ⟨hl, hr⟩ := Checks.binary_iff.mp hc
    rw [hosts_binary, hosts_binary]
    exact (ihl hl).append (ihr hr)
  | pipe hs _ ihs iht =>
    intro flow hc
    obtain ⟨hsource, -, -, htarget⟩ := Checks.pipe_iff.mp hc
    rw [hosts_pipe, hosts_pipe, ← hs.face flow]
    exact (ihs hsource).append (iht htarget)
  | call _ _ hnames hargs hreorder hcallee ih =>
    intro flow hc
    obtain ⟨hvalues, role, hrole, htakes⟩ := Checks.call_iff.mp hc
    rw [hosts_call, hosts_call]
    have hmid :=
      forall₂_matches
        (Q := fun e e' => e.Checks roles flow → w.Permutes (e.hosts flow) (e'.hosts flow))
      hnames fun q hq => ih q hq
    -- First the arguments vary in their places, then they change places.
    refine .append (.trans (.flatMap_forall₂ hmid fun a ha b hab => ?_)
      ((Latitude.Permutes.of_reorders hreorder).flatMap _)) (.of_eq _ ?_)
    · exact hab.2 (hvalues a ha)
    · exact callDeclarations_varied hroles hrole htakes (faceArgs_matches flow
        (forall₂_matches hnames fun q hq => (hargs q hq).face flow))
        (faceArgs_rearranged flow hreorder.rearranged) hcallee.find? _ _
  | operator _ _ _ ihl ihr =>
    intro flow hc
    obtain ⟨hl, hr⟩ := Checks.binary_iff.mp hc
    rw [hosts_binary, hosts_call, callDeclarations_operator]
    simpa using (ihl hl).append (ihr hr)

/-! ## Definitions -/

theorem definitions_filter (ss : List Statement) :
    definitions (ss.filter (·.isDefinition)) = definitions ss := by
  unfold definitions
  rw [List.filterMap_filter]
  refine List.filterMap_congr fun s _ => ?_
  cases s <;> rfl

theorem Statement.Varies.definition?_eq (h : Statement.Varies w s s') :
    s.definition? = s'.definition? := by
  cases h with
  | define hparams _ => simp only [Statement.definition?, map_formal_eq hparams]
  | assign | expr => rfl

theorem ProgramVaries.definitions_perm (h : ProgramVaries w ss ss') :
    (SignalPatch.definitions ss).Perm (SignalPatch.definitions ss') := by
  obtain ⟨mid, hmid, hperm⟩ := h.definitions
  have heq : SignalPatch.definitions (ss.filter (·.isDefinition)) =
      SignalPatch.definitions mid := by
    have hmap := Binding.map_eq_of_forall₂ (fun _ _ hs => Statement.Varies.definition?_eq hs) hmid
    simpa [SignalPatch.definitions, List.filterMap_map] using congrArg (List.filterMap id) hmap
  rw [← definitions_filter ss, heq, ← definitions_filter ss']
  exact hperm.filterMap _

theorem Definable.perm (h : Definable G defs) (hperm : defs.Perm defs') : Definable G defs' where
  distinct := (hperm.map _).nodup_iff.mp h.distinct
  free := fun d hd => h.free d (hperm.mem_iff.mpr hd)
  params := fun d hd => h.params d (hperm.mem_iff.mpr hd)

/-- What a name can be used as does not depend on where functions are defined. -/
theorem globalRole_perm (h : Definable G (definitions ss))
    (hperm : (definitions ss).Perm (definitions ss')) :
    globalRole ss = globalRole ss' := by
  funext n
  unfold globalRole
  cases Builtin.find? n with
  | some b => rfl
  | none =>
    have hapart := List.pairwise_map.mp h.distinct
    have hfind : (definitions ss).find? (·.1 == n) = (definitions ss').find? (·.1 == n) := by
      refine Binding.find?_eq_of_perm hperm (hapart.imp fun {d d'} hne => ?_)
      rintro ⟨hd, hd'⟩
      simp only [beq_iff_eq] at hd hd'
      exact hne (by rw [hd, hd'])
    simp only [hfind]

theorem bodyScope_outline (h : params.map Parameter.shape = params'.map Parameter.shape) :
    (bodyScope params).outline = (bodyScope params').outline := by
  have hfold : ∀ {params params' : List Parameter} {scope scope' : Scope},
      params.map Parameter.shape = params'.map Parameter.shape → scope.outline = scope'.outline →
      Scope.outline (params.foldl (fun scope p => scope.add p.symbol) scope) =
        Scope.outline (params'.foldl (fun scope p => scope.add p.symbol) scope') := by
    intro params params' scope scope' hparams hscope
    induction params generalizing params' scope scope' with
    | nil =>
      obtain rfl : params' = [] := by simpa using hparams.symm
      exact hscope
    | cons p params ih =>
      cases params' with
      | nil => cases hparams
      | cons p' params' =>
        rw [List.map_cons, List.map_cons, List.cons.injEq] at hparams
        have hname : p.name = p'.name := congrArg Prod.fst hparams.1
        rw [List.foldl_cons, List.foldl_cons]
        refine ih hparams.2 (Scope.add_outline hscope ?_)
        simp [Parameter.symbol, Symbol.outline, Symbol.of, hname]
  exact hfold h rfl

theorem Statement.Varies.bodyChecks {w : Manner} (hv : w.spelling = false)
    (h : Statement.Varies w s s') (hc : s.BodyChecks roles) : s'.BodyChecks roles := by
  cases h with
  | define hparams hbody =>
    simp only [Statement.BodyChecks] at hc ⊢
    rw [← seenFrom_congr (bodyScope_outline hparams)]
    exact Expr.Varies.checks (w := w.inBody) hv (.inBody w _) hbody hc
  | assign | expr => trivial

/-! ## Other statements -/

theorem statementsCheck_filter :
    StatementsCheck roles vars (ss.filter (!·.isDefinition)) ↔ StatementsCheck roles vars ss := by
  induction ss generalizing vars with
  | nil => exact Iff.rfl
  | cons s ss ih =>
    cases s with
    | define name params body span =>
      refine ih.trans ⟨.define, fun h => ?_⟩
      cases h with
      | define h => exact h
    | assign x value span =>
      constructor
      · intro h
        cases h with
        | assign hc hfree h => exact .assign hc hfree (ih.mp h)
      · intro h
        cases h with
        | assign hc hfree h => exact .assign hc hfree (ih.mpr h)
    | expr e =>
      constructor
      · intro h
        cases h with
        | expr hc h => exact .expr hc (ih.mp h)
      · intro h
        cases h with
        | expr hc h => exact .expr hc (ih.mpr h)

theorem find?_eq_none_of_outline {scope scope' : Scope} {hash : UInt32}
    (h : scope.outline = scope'.outline) (hfree : scope.find? hash = none) :
    scope'.find? hash = none := by
  have hfind := Scope.find?_outline scope hash
  rw [h, Scope.find?_outline, hfree] at hfind
  exact Option.map_eq_none_iff.mp hfind

theorem StatementsCheck.varied {v : Latitude} (hv : v.spelling = false)
    (h : List.Forall₂ (Statement.Varies v.plain) ss ss') :
    ∀ {vars vars' : Scope}, vars.outline = vars'.outline → StatementsCheck roles vars ss →
      StatementsCheck roles vars' ss' := by
  induction h with
  | nil => exact fun _ _ => .nil
  | cons hs _ ih =>
    intro vars vars' hvars hc
    cases hs with
    | define =>
      cases hc with
      | define hc => exact .define (ih hvars hc)
    | assign hvalue =>
      cases hc with
      | assign hchecks hfree hc =>
        refine .assign (seenFrom_congr hvars _ ▸ hvalue.checks hv (.inBody v.plain _) hchecks) ?_
          (ih ?_ hc)
        · exact find?_eq_none_of_outline hvars hfree
        · simp only [Scope.outline, List.map_cons] at hvars ⊢
          rw [hvars]
          rfl
    | expr he =>
      cases hc with
      | expr hchecks hc =>
        exact .expr (seenFrom_congr hvars _ ▸ he.checks hv (.inBody v.plain _) hchecks)
          (ih hvars hc)

/-- If a program checks, so does another way of writing it whose statements besides the definitions
do. -/
theorem ProgramVaries.checks_of {w : Manner} (hv : w.spelling = false) (h : ProgramVaries w ss ss')
    (hc : ProgramChecks ss)
    (hothers : StatementsCheck (globalRole ss) [] (ss'.filter (!·.isDefinition))) :
    ProgramChecks ss' := by
  have hperm := h.definitions_perm
  have hroles := globalRole_perm hc.definable hperm
  obtain ⟨mid, hmid, hdefs⟩ := h.definitions
  refine ⟨hc.definable.perm hperm, fun s' hs' => ?_, hroles ▸ statementsCheck_filter.mp hothers⟩
  cases hdef : s'.isDefinition with
  | false =>
    cases s' with
    | define => cases hdef
    | assign | expr => trivial
  | true =>
    have hmem := hdefs.mem_iff.mpr (List.mem_filter.mpr ⟨hs', hdef⟩)
    obtain ⟨s, hs, hvaries⟩ := exists_mem_left hmid hmem
    rw [← hroles]
    exact hvaries.bodyChecks hv (hc.bodies s (List.mem_filter.mp hs).1)

/-- A program that checks does so with named arguments in another order and its definitions
elsewhere. -/
theorem ProgramVaries.checks {v : Latitude} (hv : v.spelling = false)
    (h : ProgramVaries v.plain ss ss') (hc : ProgramChecks ss) : ProgramChecks ss' :=
  h.checks_of hv hc (.varied hv h.others rfl (statementsCheck_filter.mpr hc.statements))

/-! ## Host parameters of programs -/

def Statement.tree : Statement → Expr
  | .define _ _ body _ => body
  | .assign _ value _ => value
  | .expr e => e

def Manner.ofTree (w : Manner) (s : Statement) : Manner := if s.isDefinition then w.inBody else w

theorem Manner.toLatitude_ofTree (w : Manner) (s : Statement) :
    (w.ofTree s).toLatitude = w.toLatitude := by
  unfold ofTree
  split <;> rfl

theorem Statement.Varies.tree {w : Manner} (h : Statement.Varies w s s') :
    s.tree.Varies (w.ofTree s) s'.tree := by
  cases h with
  | define _ h | assign h | expr h => exact h

theorem rolesOk_globalRole (ss : List Statement) : RolesOk (globalRole ss) := by
  intro n b role hb hrole
  rw [globalRole, hb] at hrole
  exact .inr (Option.some.inj hrole).symm

theorem RolesOk.inScope (h : RolesOk roles) (hvalues : ∀ s ∈ scope, s.isValue) :
    RolesOk (seenFrom scope roles) := by
  intro n b role hb hrole
  rcases Option.or_eq_some_iff.mp hrole with hrole | ⟨-, hrole⟩
  · obtain ⟨s, hs, rfl⟩ := Option.map_eq_some_iff.mp hrole
    have hvalue := hvalues s (Scope.named?_eq_some hs).1
    left
    cases hm : s.meaning <;> simp [hm, Meaning.role, Symbol.isValue] at hvalue ⊢
  · exact h n b role hb hrole

theorem StatementsCheck.tree (hroles : RolesOk roles) (h : StatementsCheck roles vars ss)
    (hvalues : ∀ s ∈ vars, s.isValue) : ∀ s ∈ ss, s.isDefinition = false →
      ∃ roles, RolesOk roles ∧ s.tree.Checks roles none := by
  induction h with
  | nil => simp
  | define _ ih =>
    rw [List.forall_mem_cons]
    exact ⟨nofun, ih hvalues⟩
  | assign hc _ _ ih =>
    rw [List.forall_mem_cons]
    refine ⟨fun _ => ⟨_, hroles.inScope hvalues, hc⟩, ih ?_⟩
    rw [List.forall_mem_cons]
    exact ⟨rfl, hvalues⟩
  | expr hc _ ih =>
    rw [List.forall_mem_cons]
    exact ⟨fun _ => ⟨_, hroles.inScope hvalues, hc⟩, ih hvalues⟩

theorem ProgramChecks.tree (h : ProgramChecks ss) (hs : s ∈ ss) :
    ∃ roles, RolesOk roles ∧ s.tree.Checks roles none := by
  have hroles := rolesOk_globalRole ss
  cases hdef : s.isDefinition with
  | false => exact h.statements.tree hroles (by simp) s hs hdef
  | true =>
    cases s with
    | define name params body span =>
      exact ⟨_, hroles.inScope bodyScope_isValue, h.bodies _ hs⟩
    | assign | expr => cases hdef

def Statement.hosts (s : Statement) : List HostParam := s.tree.hosts none

theorem flatMap_eq_filter {f g : α → List β} {p : α → Bool} (h : ∀ x, f x = if p x then g x else [])
    (xs : List α) : xs.flatMap f = (xs.filter p).flatMap g := by
  induction xs with
  | nil => rfl
  | cons x xs ih =>
    rw [List.flatMap_cons, h, ih, List.filter_cons]
    split <;> rfl

theorem map_programDeclarations (ss : List Statement) :
    (programDeclarations ss).map HostParam.placeless =
      (ss.filter (·.isDefinition)).flatMap Statement.hosts ++
        (ss.filter (!·.isDefinition)).flatMap Statement.hosts := by
  rw [programDeclarations, List.map_append, List.map_flatMap, List.map_flatMap]
  congr 1 <;>
  · refine flatMap_eq_filter (fun s => ?_) ss
    cases s <;> rfl

theorem flatMap_hosts {w : Manner} (h : List.Forall₂ (Statement.Varies w) ss ss')
    (hc : ∀ s ∈ ss, ∃ roles, RolesOk roles ∧ s.tree.Checks roles none) :
    w.Permutes (ss.flatMap Statement.hosts) (ss'.flatMap Statement.hosts) := by
  refine .flatMap_forall₂ h fun s hs s' hvaries => ?_
  obtain ⟨roles, hroles, hchecks⟩ := hc s hs
  rw [← w.toLatitude_ofTree s]
  exact hvaries.tree.hosts hroles hchecks

/-- A program declares the same host parameters however it is written. -/
theorem ProgramVaries.declarations (h : ProgramVaries w ss ss') (hc : ProgramChecks ss) :
    ((programDeclarations ss).map HostParam.placeless).Perm
      ((programDeclarations ss').map HostParam.placeless) := by
  obtain ⟨mid, hmid, hperm⟩ := h.definitions
  rw [map_programDeclarations, map_programDeclarations]
  refine .append (.trans (flatMap_hosts hmid fun s hs => ?_).perm (hperm.flatMap_right _))
    (flatMap_hosts h.others fun s hs => ?_).perm <;>
  exact hc.tree (List.mem_filter.mp hs).1

/-- If the order of arguments is kept, they are declared in the same order. -/
theorem declarations_eq {w : Manner} (hv : w.order = false)
    (h : List.Forall₂ (Statement.Varies w) ss ss') (hc : ProgramChecks ss) :
    (programDeclarations ss).map HostParam.placeless =
      (programDeclarations ss').map HostParam.placeless := by
  have heq : ∀ p : Statement → Bool, (∀ s s', Statement.Varies w s s' → p s = p s') →
      (ss.filter p).flatMap Statement.hosts = (ss'.filter p).flatMap Statement.hosts := by
    intro p hp
    have hfilter := List.rel_filter (fun s s' hs => iff_of_eq (congrArg (· = true) (hp s s' hs))) h
    exact (flatMap_hosts hfilter fun s hs => hc.tree (List.mem_filter.mp hs).1).eq hv
  rw [map_programDeclarations, map_programDeclarations, heq _ fun _ _ hs => hs.isDefinition_eq,
    heq _ fun _ _ hs => congrArg not hs.isDefinition_eq]

/-! ## Host parameters by name -/

/-- Each name stands for the same host parameter, wherever it was declared. -/
def HostsAgree (hosts hosts' : List HostParam) : Prop :=
  ∀ n, (hosts.find? (·.name == n)).map HostParam.placeless =
    (hosts'.find? (·.name == n)).map HostParam.placeless

theorem hostsAgree_iff : HostsAgree hosts hosts' ↔ ∀ n,
    (hosts.map HostParam.placeless).find? (·.name == n) =
      (hosts'.map HostParam.placeless).find? (·.name == n) := by
  have hfind : ∀ (hosts : List HostParam) (n : String),
      (hosts.map HostParam.placeless).find? (·.name == n) =
        (hosts.find? (·.name == n)).map HostParam.placeless := by
    intro hosts n
    rw [List.find?_map]
    rfl
  simp only [HostsAgree, hfind]

theorem foldl_declare_of_nodup {ds : List HostParam} : ∀ {hosts : List HostParam},
    ((hosts ++ ds).map HostParam.name).Nodup → ds.foldl HostParam.declare hosts = hosts ++ ds := by
  induction ds with
  | nil => simp
  | cons d ds ih =>
    intro hosts hnodup
    have hnew : hosts.any (·.name == d.name) = false := by
      rw [List.any_eq_false]
      intro p hp hname
      rw [List.map_append, List.nodup_append] at hnodup
      exact hnodup.2.2 p.name (List.mem_map_of_mem hp) d.name (by simp) (by simpa using hname)
    rw [List.foldl_cons, HostParam.declare, if_neg (by simp [hnew]), ih (by simpa using hnodup)]
    simp

theorem map_foldl_declare (ds hosts : List HostParam) :
    (ds.foldl HostParam.declare hosts).map HostParam.placeless =
      (ds.map HostParam.placeless).foldl HostParam.declare (hosts.map HostParam.placeless) := by
  induction ds generalizing hosts with
  | nil => rfl
  | cons d ds ih =>
    have hstep : (HostParam.declare hosts d).map HostParam.placeless =
        HostParam.declare (hosts.map HostParam.placeless) d.placeless := by
      have hany : (hosts.map HostParam.placeless).any (·.name == d.placeless.name) =
          hosts.any (·.name == d.name) := by
        rw [List.any_map]
        rfl
      unfold HostParam.declare
      rw [hany]
      split
      · rfl
      · simp
    rw [List.foldl_cons, ih, List.map_cons, List.foldl_cons, hstep]

theorem hostsAgree_of_perm {ds ds' : List HostParam} (hnodup : (ds.map HostParam.name).Nodup)
    (h : (ds.map HostParam.placeless).Perm (ds'.map HostParam.placeless)) :
    HostsAgree (ds.foldl HostParam.declare []) (ds'.foldl HostParam.declare []) := by
  have hnames : ∀ ds : List HostParam, (ds.map HostParam.placeless).map HostParam.name =
      ds.map HostParam.name := by
    intro ds
    rw [List.map_map]
    rfl
  have hnodup' : (ds'.map HostParam.name).Nodup := by
    rw [← hnames]
    exact (h.map _).nodup_iff.mp (by rwa [hnames])
  rw [foldl_declare_of_nodup (by simpa using hnodup),
    foldl_declare_of_nodup (by simpa using hnodup'),
    List.nil_append, List.nil_append, hostsAgree_iff]
  intro n
  refine Binding.find?_eq_of_perm h ?_
  rw [← hnames] at hnodup
  refine (List.pairwise_map.mp hnodup).imp fun {p q} hne => ?_
  rintro ⟨hp, hq⟩
  simp only [beq_iff_eq] at hp hq
  exact hne (hp.trans hq.symm)

theorem hostsAgree_of_eq {ds ds' : List HostParam}
    (h : ds.map HostParam.placeless = ds'.map HostParam.placeless) :
    HostsAgree (ds.foldl HostParam.declare []) (ds'.foldl HostParam.declare []) := by
  rw [hostsAgree_iff, map_foldl_declare, map_foldl_declare, h]
  exact fun _ => rfl

end SignalPatch
