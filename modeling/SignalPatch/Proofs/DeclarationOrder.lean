import SignalPatch.Proofs.ControlCalls
import SignalPatch.Proofs.StepReports

/-!
# Which declaration of a host parameter holds

Resolution keeps the first declaration of each name that it meets, and remarks on every later one
that asks for another kind or range (`HostParam.redeclared`). It meets what the function bodies
declare before what the other statements do, and in either case in the order of the text. So the
declaration that holds is the first one of the text as long as all calls in function bodies come
before the others, and not in general.
-/

namespace SignalPatch

open scoped List

/-! ## Declarations one behind the other -/

namespace HostParam

def redeclares (known : List HostParam) (p : HostParam) : Bool :=
  (known.find? (·.name == p.name)).any (!·.agrees p)

/-- The declarations whose name is known for another kind or range when they are made. -/
def redeclared (known : List HostParam) : List HostParam → List HostParam
  | [] => []
  | p :: ps => (if redeclares known p then [p] else []) ++ redeclared (declare known p) ps

theorem find?_declare (known : List HostParam) (p : HostParam) (n : String) :
    (declare known p).find? (·.name == n) = (known ++ [p]).find? (·.name == n) := by
  unfold declare
  split
  · rename_i hany
    rw [List.find?_append]
    by_cases hn : p.name = n
    · obtain ⟨q, hq, hname⟩ := List.any_eq_true.mp hany
      have hsome : (known.find? (·.name == n)).isSome := List.find?_isSome.mpr ⟨q, hq, hn ▸ hname⟩
      rw [Option.or_of_isSome hsome]
    · simp [hn]
  · rfl

theorem find?_foldl_declare (known ps : List HostParam) (n : String) :
    (ps.foldl declare known).find? (·.name == n) = (known ++ ps).find? (·.name == n) := by
  induction ps generalizing known with
  | nil => rw [List.append_nil, List.foldl_nil]
  | cons p ps ih =>
    rw [List.foldl_cons, ih, List.find?_append, find?_declare,
      ← List.find?_append, List.append_assoc, List.singleton_append]

theorem foldl_declare_sublist (known ps : List HostParam) :
    ps.foldl declare known <+ known ++ ps := by
  induction ps generalizing known with
  | nil => simp
  | cons p ps ih =>
    have hstep : declare known p <+ known ++ [p] := by
      unfold declare
      split
      · exact List.sublist_append_left _ _
      · exact .refl _
    have hrest := (ih (declare known p)).trans (hstep.append_right ps)
    rwa [List.append_assoc, List.singleton_append] at hrest

theorem foldl_declare_nodup (ps : List HostParam) {known : List HostParam}
    (h : (known.map name).Nodup) :
    ((ps.foldl declare known).map name).Nodup := by
  induction ps generalizing known with
  | nil => exact h
  | cons p ps ih =>
    exact ih (Resolving.nodup_declare h)

theorem mem_redeclared {known ps : List HostParam} : q ∈ redeclared known ps ↔
    ∃ before after, ps = before ++ q :: after ∧ redeclares (known ++ before) q := by
  induction ps generalizing known with
  | nil => simp [redeclared]
  | cons p ps ih =>
    -- To declare `p` changes what is found as if `p` came last among those that are known.
    have hknown : ∀ before, redeclares (declare known p ++ before) q =
        redeclares (known ++ p :: before) q := by
      intro before
      rw [redeclares, redeclares, List.find?_append, find?_declare,
        ← List.find?_append, List.append_assoc, List.singleton_append]
    simp only [redeclared, List.mem_append, ih, hknown]
    constructor
    · rintro (hp | ⟨before, after, rfl, h⟩)
      · split at hp
        · cases List.mem_singleton.mp hp
          exact ⟨[], ps, rfl, by simpa⟩
        · cases hp
      · exact ⟨p :: before, after, rfl, h⟩
    · rintro ⟨before, after, hps, h⟩
      cases before with
      | nil =>
        cases hps
        rw [List.append_nil] at h
        simp [h]
      | cons p' before =>
        cases hps
        exact .inr ⟨before, after, rfl, h⟩

def mention (p : HostParam) : String × Nat × Nat := (p.name, p.extent)

end HostParam

def Finding.redeclared? (f : Finding) : Option (String × Nat × Nat) :=
  match f.issue with
  | .rangeRedeclared name => some (name, f.span.extent)
  | _ => none

/-! ## Calls that declare -/

/-- A call that declares a host parameter. -/
structure Control where
  kind : ControlKind
  name : String
  values : List Float
  span : Span

namespace Control

def param (c : Control) : HostParam := .make c.kind c.name c.values c.span

def remark (known : List HostParam) (c : Control) : List Finding :=
  (HostParam.remarks known c.param (HostParam.isSwapped c.kind c.values)).map (Finding.mk · c.span)

def remarks (known : List HostParam) : List Control → List Finding
  | [] => []
  | c :: cs => c.remark known ++ remarks (HostParam.declare known c.param) cs

theorem remarks_append (known : List HostParam) (cs ds : List Control) :
    remarks known (cs ++ ds) = remarks known cs ++
      remarks ((cs.map param).foldl HostParam.declare known) ds := by
  induction cs generalizing known with
  | nil => rfl
  | cons c cs ih =>
    simp only [List.cons_append, remarks, ih, List.map_cons, List.foldl_cons, List.append_assoc]

theorem filterMap_remark (known : List HostParam) (c : Control) :
    (c.remark known).filterMap Finding.redeclared? =
      (if HostParam.redeclares known c.param then [c.param] else []).map HostParam.mention := by
  have hswapped :
      ((if HostParam.isSwapped c.kind c.values then [Issue.rangeSwapped c.param.name] else []).map
        (Finding.mk · c.span)).filterMap Finding.redeclared? = [] := by
    split <;> rfl
  rw [remark, HostParam.remarks, HostParam.redeclares, List.map_append,
    List.filterMap_append, hswapped, List.nil_append]
  cases known.find? (·.name == c.param.name) with
  | none => rfl
  | some previous =>
    simp only [Option.any_some]
    by_cases hagrees : previous.agrees c.param = true
    · simp only [hagrees, Bool.not_true, ↓reduceIte, Bool.false_eq_true,
        List.map_nil, List.filterMap_nil]
    · simp only [hagrees, Bool.not_false, ↓reduceIte, Bool.false_eq_true]
      rfl

theorem filterMap_remarks (known : List HostParam) (cs : List Control) :
    (remarks known cs).filterMap Finding.redeclared? =
      (HostParam.redeclared known (cs.map param)).map HostParam.mention := by
  induction cs generalizing known with
  | nil => rfl
  | cons c cs ih =>
    rw [remarks, List.filterMap_append, filterMap_remark, ih, ← List.map_append]
    rfl

end Control

def Builtin.controls (b : Builtin) (faces : List Face) (span : Span) : List Control :=
  match b.kind, faces with
  | .control kind, .text name :: rest =>
    ((Face.numbers rest).map (Control.mk kind name · span)).toList
  | _, _ => []

def callControls (callee : String) (args : List (Arg Face)) (span : Span) : List Control :=
  ((Builtin.find? callee).map fun b => b.controls (Binding.faces b.params args) span).getD []

def Meaning.controls (faces : List Face) (span : Span) : Meaning → List Control
  | .builtin b => b.controls faces span
  | _ => []

mutual

/-- The calls of a tree that declare host parameters, in the order of resolution. -/
def Expr.controls (flow : Option Face) : Expr → List Control
  | .binary _ lhs rhs _ => lhs.controls flow ++ rhs.controls flow
  | .pipe source target _ => source.controls flow ++ target.controls (some (source.face flow))
  | .call callee args s => argControls flow args ++ callControls callee (Expr.faceArgs flow args) s
  | _ => []

def argControls (flow : Option Face) : List (Arg Expr) → List Control
  | [] => []
  | ⟨_, value, _⟩ :: args => value.controls flow ++ argControls flow args

end

theorem Builtin.map_controls (b : Builtin) (faces : List Face) (s : Span) :
    (b.controls faces s).map Control.param = b.declarations faces s := by
  unfold controls declarations
  cases b.kind with
  | control kind =>
    rcases faces with _ | ⟨_ | _ | _, rest⟩ <;> try rfl
    dsimp only
    rw [← Option.toList_map, Option.map_map]
    rfl
  | _ => rfl

theorem map_callControls (callee : String) (args : List (Arg Face)) (s : Span) :
    (callControls callee args s).map Control.param = callDeclarations callee args s := by
  unfold callControls callDeclarations
  cases Builtin.find? callee with
  | none => rfl
  | some b => exact b.map_controls _ s

mutual

theorem Expr.map_controls (flow : Option Face) :
    ∀ e : Expr, (e.controls flow).map Control.param = e.declarations flow
  | .number .. | .bool .. | .text .. | .ident .. | .hole .. => rfl
  | .binary _ lhs rhs _ => by
    rw [Expr.controls, Expr.declarations, List.map_append, lhs.map_controls, rhs.map_controls]
  | .pipe source target _ => by
    rw [Expr.controls, Expr.declarations, List.map_append, source.map_controls, target.map_controls]
  | .call _ args _ => by
    rw [Expr.controls, Expr.declarations, List.map_append, map_argControls, map_callControls]

theorem map_argControls (flow : Option Face) : ∀ args : List (Arg Expr),
    (argControls flow args).map Control.param = argDeclarations flow args
  | [] => rfl
  | ⟨_, value, _⟩ :: args => by
    rw [argControls, argDeclarations, List.map_append, value.map_controls, map_argControls]

end

namespace Resolving

theorem NamesOk.callControls {t : SymbolTable} (hT : NamesOk t)
    (hm : (t.lookup callee).map Symbol.meaning = some m) (hsig : m.signature? = some params)
    (args : List (Arg Face)) (s : Span) :
    callControls callee args s = m.controls (Binding.faces params args) s := by
  unfold SignalPatch.callControls
  cases m with
  | builtin b =>
    cases hsig
    rw [hT.builtins callee b hm]
    rfl
  | function f =>
    rw [hT.functions callee f.params (role_of_meaning hm)]
    rfl
  | _ => cases hsig

/-! ## Steps -/

theorem Reports.findings_eq {x : Resolving α} (h : Reports (·.isError) x)
    (hc : Clean (x.run r).2.findings) :
    (x.run r).2.findings = r.findings := by
  obtain ⟨fs, hfindings, hfs⟩ := h r
  rw [hfindings] at hc ⊢
  have hnone : fs = [] := List.eq_nil_iff_forall_not_mem.mpr fun f hf => by
    have := (clean_append.mp hc).2 f hf
    rw [hfs f hf] at this
    cases this
  rw [hnone, List.append_nil]

/-- If a step finds no error, it has met the calls `cs`. -/
structure Collected (cs : List Control) (r r' : Resolution) : Prop where
  clean : Clean r'.findings → Clean r.findings
  hostParams : Clean r'.findings → r'.hostParams =
    (cs.map Control.param).foldl HostParam.declare r.hostParams
  findings : Clean r'.findings → r'.findings = r.findings ++ Control.remarks r.hostParams cs

namespace Collected

theorem refl : Collected [] r r := ⟨id, fun _ => rfl, fun _ => (List.append_nil _).symm⟩

theorem fail (h : ¬ Clean r'.findings) : Collected cs r r' :=
  ⟨fun hc => absurd hc h, fun hc => absurd hc h, fun hc => absurd hc h⟩

theorem andThen (h : Collected cs r r₁) (h' : Collected cs' r₁ r₂) :
    Collected (cs ++ cs') r r₂ where
  clean hc := h.clean (h'.clean hc)
  hostParams hc := by
    rw [h'.hostParams hc, h.hostParams (h'.clean hc), List.map_append, List.foldl_append]
  findings hc := by
    rw [h'.findings hc, h.findings (h'.clean hc), h.hostParams (h'.clean hc),
      Control.remarks_append, List.append_assoc]

theorem congr (h : Collected cs r r') (hcs : Clean r.findings → cs = cs') : Collected cs' r r' :=
  ⟨h.clean, fun hc => hcs (h.clean hc) ▸ h.hostParams hc, fun hc =>
    hcs (h.clean hc) ▸ h.findings hc⟩

theorem withNodes {nodes : Arena} (h : Collected cs r r') : Collected cs r { r' with nodes } :=
  ⟨h.clean, h.hostParams, h.findings⟩

theorem silent {x : Resolving α} (hreports : Reports (·.isError) x)
    (hhosts : (x.run r).2.hostParams = r.hostParams) : Collected [] r (x.run r).2 := by
  refine ⟨fun hc => ?_, fun _ => hhosts, fun hc => ?_⟩
  · rwa [hreports.findings_eq hc] at hc
  · rw [hreports.findings_eq hc]
    exact (List.append_nil _).symm

end Collected

/-! ## Calls -/

theorem declareHostParam_collected {f : Builtin} (hkind : f.kind = .control kind) (callee : String)
    (args : List NodeId) (s : Span) (r : Resolution) :
    Collected (f.controls (args.map r.nodes.face) s) r
      ((declareHostParam callee kind args s).run r).2 := by
  refine ⟨fun hc => ((declareHostParam_clean ..).mp hc).1, fun _ => ?_, fun hc => ?_⟩
  · rw [Builtin.map_controls]
    exact declareHostParam_hostParams hkind ..
  · obtain ⟨-, haccepts⟩ := (declareHostParam_clean ..).mp hc
    unfold declareHostParam Builtin.controls
    rw [run_bind, run_get, hkind]
    cases args with
    | nil => exact (List.append_nil _).symm
    | cons v rest =>
      obtain ⟨⟨name, hname⟩, values, hvalues⟩ := haccepts
      have hkindv : r.nodes.kind v = .text name := by
        rw [Arena.face] at hname
        cases hk : r.nodes.kind v <;> simp_all [NodeKind.face]
      have hnumbers := Face.numbers_eq_some.mpr hvalues
      simp only [List.map_cons, hname, hkindv, hnumbers, numbers_eq_ok.mpr hnumbers,
        run_set, Option.map_some, Option.toList_some]
      exact congrArg (r.findings ++ ·) (List.append_nil _).symm

theorem checkBound_collected (callee : String) (m : Meaning) (s : Span) (values : List NodeId)
    (r : Resolution) :
    Collected (m.controls (values.map r.nodes.face) s) r
      ((checkBound callee m s (some values)).run r).2 := by
  cases m with
  | builtin f =>
    change Collected (f.controls _ s) r ((checkBuiltin callee f values s).run r).2
    unfold checkBuiltin
    cases hf : f.kind with
    | op _ =>
      simp only [Builtin.controls, hf]
      exact .refl
    | pattern =>
      simp only [Builtin.controls, hf]
      cases values with
      | nil => exact .refl
      | cons v _ =>
        exact .silent ((readPattern_reports v).mono fun _ h => h.2) (readPattern_hostParams v r)
    | control kind => exact declareHostParam_collected hf ..
  | _ => exact .refl

theorem bindCall_collected (i : NodeId) (callee : String) (params : Signature)
    (args : List (Arg NodeId)) (s : Span) (r : Resolution) :
    Collected [] r ((bindCall i callee params args s).run r).2 :=
  .silent ((bindCall_reports i callee params args s).mono fun _ h => h.2) (bindCall_hostParams ..)

theorem resolveCall_collected {r : Resolution} {i : Nat}
    (hnode : r.nodes[i]? = some ⟨.call callee args₀, s⟩) (hT : NamesOk r.symbols)
    (hargs : ∀ a ∈ args, a.value < i) :
    Collected (callControls callee (args.map (Arg.map r.nodes.face)) s) r
      ((resolveCall i callee args).run r).2 := by
  have hcalled := resolveCall_called hnode args
  generalize ((resolveCall i callee args).run r).2 = r' at hcalled ⊢
  cases hcalled with
  | refused _ hissue => exact .fail (not_clean_report (by rcases hissue with rfl | rfl <;> rfl) _ _)
  | @bound m params values r₂ hm hsig hrun =>
    let r₁ : Resolution := { r with nodes := r.nodes.setKind i (.call callee args) }
    have hr₁ : Collected [] r r₁ := Collected.refl.withNodes
    have hbound := hr₁.andThen (bindCall_collected i callee params args s r₁)
    have hvalues := bindCall_faces (r := r₁) (Arena.getElem?_setKind_self hnode _)
      (hT.copies callee _ _ hm hsig) hargs
    rw [hrun] at hbound hvalues
    rw [faces_setKind hargs] at hvalues
    rw [hT.callControls hm hsig]
    -- Without values something is reported, and then nothing is claimed about what is collected.
    cases values with
    | none =>
      refine .fail fun hc => ?_
      obtain ⟨values, hsome, -⟩ :=
        hvalues (hc.of_prefix (checkBound_ok 0 0 callee m s none r₂).findings)
      cases hsome
    | some values =>
      refine hbound.andThen ((checkBound_collected callee m s values r₂).congr fun hc => ?_)
      obtain ⟨values', hsome, hshown⟩ := hvalues hc
      cases hsome
      exact congrArg (m.controls · s) hshown

/-! ## Trees -/

mutual

theorem Walk.collected :
    Walk P a e i hole r j r' → (∀ x, hole = some x → x < a) → P.size ≤ r.nodes.size →
    NamesOk r.symbols → Collected (e.controls (hole.map r.nodes.face)) r r'
  | .number _ _, _, _, _ | .bool _ _, _, _, _ | .text _ _, _, _, _ | .filled _, _, _, _ => .refl
  | .ident _ _, _, _, _ =>
    .silent ((checkValue_reports _ _).mono fun _ h => h.2) (by rw [checkValue_frame])
  | .unfilled _, _, _, _ | .refused _ _ _ _, _, _, _ => .fail (not_clean_report rfl _ _)
  | .binary hl hr h _, hhole, hn, hT => by
    have hw := hl.within
    have hal := hl.stored.le
    have hm := hr.stored.lt_size
    have hlm := hr.stored.le
    have hc := hr.collected (hole_lt hhole (by omega)) (Nat.le_trans hn hw.size) (hw.symbols ▸ hT)
    rw [hole_face hhole hw (by omega)] at hc
    rw [Expr.controls]
    exact ((hl.collected hhole hn hT).andThen hc).withNodes
  | .pipe hs ht _ _, hhole, hn, hT => by
    have hw := hs.within
    have hsurvey := hs.surveyed hhole hn hT
    have hc := ht.collected (by rintro _ ⟨⟩; exact Nat.lt_succ_of_le (hs.le hhole))
      (Nat.le_trans hn hw.size) (hw.symbols ▸ hT)
    rw [Expr.controls]
    -- what flows into the target is what the source shows, as long as there is no error
    exact (hs.collected hhole hn hT).andThen
      (hc.congr fun hclean => by rw [Option.map_some, hsurvey.face hclean])
  | .call hargs h hnode _ _, hhole, hn, hT => by
    have hi := (Array.getElem?_eq_some_iff.mp h).1
    have hsurvey := hargs.surveyed (Nat.le_of_lt hi) hhole hn hT
    have hc := resolveCall_collected hnode (hargs.within.symbols ▸ hT) (hargs.lt hhole)
    rw [Expr.controls]
    exact (hargs.collected (Nat.le_of_lt hi) hhole hn hT).andThen
      (hc.congr fun hclean => by rw [hsurvey.faces hclean])

theorem WalkArgs.collected :
    WalkArgs P a args ids b hole r ids' r' → b ≤ P.size → (∀ x, hole = some x → x < a) →
    P.size ≤ r.nodes.size → NamesOk r.symbols →
      Collected (argControls (hole.map r.nodes.face) args) r r'
  | .nil, _, _, _, _ => .refl
  | .cons hv hargs, hb, hhole, hn, hT => by
    have hw := hv.within
    have hai := hv.stored.le
    have hib := hargs.stored.le
    have hc := hargs.collected hb (hole_lt hhole (by omega))
      (Nat.le_trans hn hw.size) (hw.symbols ▸ hT)
    rw [hole_face hhole hw (by omega)] at hc
    rw [argControls]
    exact (hv.collected hhole hn hT).andThen hc

end

end Resolving

/-! ## Programs -/

def Statement.bodyControls (s : Statement) : List Control :=
  if s.isDefinition then s.tree.controls none else []

def Statement.controls (s : Statement) : List Control :=
  if s.isDefinition then [] else s.tree.controls none

def programControls (ss : List Statement) : List Control :=
  ss.flatMap Statement.bodyControls ++ ss.flatMap Statement.controls

theorem map_programControls (ss : List Statement) :
    (programControls ss).map Control.param = programDeclarations ss := by
  rw [programControls, programDeclarations, List.map_append, List.map_flatMap, List.map_flatMap]
  congr 1 <;>
  · refine List.flatMap_congr fun s _ => ?_
    cases s <;> first | rfl | exact Expr.map_controls none _

namespace Resolving

theorem BodyWalks.collected (h : BodyWalks P G a ss ids r r') (hG : GlobalsOf P all ss' G)
    (hn : P.size ≤ r.nodes.size) : Collected (ss.flatMap Statement.bodyControls) r r' := by
  induction h with
  | nil => exact .refl
  | cons _ hfirst _ ih =>
    refine Collected.andThen ?_ (ih (Nat.le_trans hn hfirst.within.size))
    cases hfirst with
    | define _ hbody _ _ =>
      have hc := hbody.collected (by simp) hn (hG.namesOk bodyScope_isValue)
      exact ⟨hc.clean, hc.hostParams, hc.findings⟩
    | assign _ _ | expr _ => exact .refl

theorem StatementWalks.collected (h : StatementWalks P G a ss ids ids' vars r vars' r')
    (hG : GlobalsOf P all ss' G) (hsym : r.symbols = .above G vars)
    (hvalues : ∀ s ∈ vars, s.isValue) (hn : P.size ≤ r.nodes.size) :
    Collected (ss.flatMap Statement.controls) r r' := by
  induction h with
  | nil => exact .refl
  | cons _ hfirst _ ih =>
    obtain ⟨hsym₁, hvalues₁⟩ := hfirst.scope hsym hvalues
    refine Collected.andThen ?_ (ih hsym₁ hvalues₁ (Nat.le_trans hn hfirst.within.size))
    have hT := hsym ▸ hG.namesOk hvalues
    cases hfirst with
    | define _ _ _ => exact .refl
    | assign _ hv _ _ =>
      have hc := hv.collected (by simp) hn hT
      exact ⟨hc.clean, hc.hostParams, hc.findings⟩
    | taken _ _ _ _ => exact .fail (not_clean_report rfl _ _)
    | expr he => exact he.collected (by simp) hn hT

end Resolving

open Resolving

/-- The declarations of a program in the order of the text. -/
def writtenDeclarations (ss : List Statement) : List HostParam :=
  ss.flatMap (·.tree.declarations none)

theorem bodyDeclarations_sublist (ss : List Statement) :
    ss.flatMap Statement.bodyDeclarations <+ writtenDeclarations ss := by
  induction ss with
  | nil => exact .refl _
  | cons s ss ih =>
    refine List.Sublist.append ?_ ih
    cases s with
    | define => exact .refl _
    | assign | expr => exact List.nil_sublist _

theorem declarations_sublist (ss : List Statement) :
    ss.flatMap Statement.declarations <+ writtenDeclarations ss := by
  induction ss with
  | nil => exact .refl _
  | cons s ss ih =>
    refine List.Sublist.append ?_ ih
    cases s with
    | define => exact List.nil_sublist _
    | assign | expr => exact .refl _

theorem programDeclarations_perm (ss : List Statement) :
    (programDeclarations ss).Perm (writtenDeclarations ss) := by
  have hbodies : ss.flatMap Statement.bodyDeclarations =
      (ss.filter (·.isDefinition)).flatMap (·.tree.declarations none) :=
    flatMap_eq_filter (fun s => by cases s <;> rfl) ss
  have hothers : ss.flatMap Statement.declarations =
      (ss.filter (!·.isDefinition)).flatMap (·.tree.declarations none) :=
    flatMap_eq_filter (fun s => by cases s <;> rfl) ss
  rw [programDeclarations, hbodies, hothers, ← List.flatMap_append]
  exact (List.filter_append_perm (·.isDefinition) ss).flatMap_right _

theorem ProgramChecks.writtenDeclarations (h : ProgramChecks ss) :
    (writtenDeclarations ss).map HostParam.extent = ss.flatMap fun s =>
      s.tree.controlSpans.map Span.extent := by
  rw [SignalPatch.writtenDeclarations, List.map_flatMap]
  refine List.flatMap_congr fun s hs => ?_
  obtain ⟨roles, hroles, hchecks⟩ := h.tree hs
  exact hchecks.declarations hroles

/-- The host parameters of a resolved patch are the first declarations of their names among `ds`, in
this order, and every later declaration with another kind or range is remarked on. -/
structure Resolved.Collects (R : Resolved) (ds : List HostParam) : Prop where
  distinct : (R.hostParams.map HostParam.name).Nodup
  first : ∀ n, R.hostParams.find? (·.name == n) = ds.find? (·.name == n)
  order : R.hostParams <+ ds
  remarked : ∀ extent, (∃ f ∈ R.findings, f.issue.code = "W002" ∧ f.span.extent = extent) ↔
    ∃ before p after first, ds = before ++ p :: after ∧ p.extent = extent ∧
      before.find? (·.name == p.name) = some first ∧ first.agrees p = false

theorem redeclared?_eq_some_iff (f : Finding) (extent : Nat × Nat) :
    f.issue.code = "W002" ∧ f.span.extent = extent ↔
      ∃ name, f.redeclared? = some (name, extent) := by
  obtain ⟨issue, span⟩ := f
  cases issue <;> simp [Finding.redeclared?, Issue.code]

theorem Resolved.collects (R : Resolved) (hhosts : R.hostParams = ds.foldl HostParam.declare [])
    (hremarks : R.findings.filterMap Finding.redeclared? =
      (HostParam.redeclared [] ds).map HostParam.mention) :
    R.Collects ds where
  distinct := by
    rw [hhosts]
    exact HostParam.foldl_declare_nodup ds .nil
  first n := by
    rw [hhosts, HostParam.find?_foldl_declare, List.nil_append]
  order := by
    rw [hhosts]
    exact HostParam.foldl_declare_sublist [] ds
  remarked extent := by
    have hmem : ∀ name, (∃ f ∈ R.findings, f.redeclared? = some (name, extent)) ↔
        ∃ p ∈ HostParam.redeclared [] ds, p.mention = (name, extent) := by
      intro name
      rw [← List.mem_filterMap, hremarks, List.mem_map]
    constructor
    · rintro ⟨f, hf, hcode⟩
      obtain ⟨name, hname⟩ := (redeclared?_eq_some_iff f extent).mp hcode
      obtain ⟨p, hp, hmention⟩ := (hmem name).mp ⟨f, hf, hname⟩
      obtain ⟨before, after, hds, hredeclares⟩ := HostParam.mem_redeclared.mp hp
      obtain ⟨first, hfirst, hagrees⟩ := (Option.any_eq_true _ _).mp hredeclares
      exact ⟨before, p, after, first, hds, congrArg Prod.snd hmention,
        hfirst, by simpa using hagrees⟩
    · rintro ⟨before, p, after, first, hds, hextent, hfirst, hagrees⟩
      have hredeclares : HostParam.redeclares ([] ++ before) p := by
        simp [HostParam.redeclares, hfirst, hagrees]
      have hp := HostParam.mem_redeclared.mpr ⟨before, after, hds, hredeclares⟩
      obtain ⟨f, hf, hname⟩ := (hmem p.name).mpr ⟨p, hp, by rw [← hextent]; rfl⟩
      exact ⟨f, hf, (redeclared?_eq_some_iff f extent).mpr ⟨p.name, hname⟩⟩

theorem Patch.resolve_collected {p : Patch} (hp : StoredList p.nodes 0 ss p.statements)
    (hsurvey : ResolvedSurvey p.nodes p.statements ss p.resolve) (h : p.resolve.success) :
    p.resolve.findings = Control.remarks [] (programControls ss) := by
  obtain ⟨G, vars, r₁, r₂, r₃, hrun⟩ := p.resolve_run hp
  have hG := hrun.globals ▸ hsurvey.globals
  have hbodies := hrun.bodies.collected hG hrun.size
  have hstatements := hrun.statements.collected hG rfl (by simp)
    (Nat.le_trans hrun.size hrun.bodies.within.size)
  have hclean := (hrun.clean h).2
  have hhosts : r₁.hostParams = [] := by rw [hrun.opened]
  have hall : Collected (programControls ss) r₁ r₃ :=
    hbodies.andThen ⟨hstatements.clean, hstatements.hostParams, hstatements.findings⟩
  have hnone : r₁.findings = [] := by
    have hopened := hall.clean hclean
    rw [← hrun.hoisted] at hopened ⊢
    exact Reports.findings_eq (.forM (fun i => (hoist_reports i).mono fun _ h => h.2) p.statements)
      hopened
  rw [hrun.findings, hall.findings hclean, hnone, hhosts, List.nil_append]

theorem Patch.resolve_collects {p : Patch} (hp : StoredList p.nodes 0 ss p.statements)
    (hsurvey : ResolvedSurvey p.nodes p.statements ss p.resolve) (h : p.resolve.success) :
    p.resolve.Collects (programDeclarations ss) := by
  refine p.resolve.collects hsurvey.hostParams ?_
  rw [p.resolve_collected hp hsurvey h, Control.filterMap_remarks, map_programControls]

theorem written_inOrder {source : String}
    (h : ProgramChecks (Grammar.statements (scan source).tokens)) :
    ((writtenDeclarations (Grammar.statements (scan source).tokens)).map HostParam.offset).Pairwise
      (· < ·) := by
  have hoffsets :
      (writtenDeclarations (Grammar.statements (scan source).tokens)).map HostParam.offset =
        (Grammar.statements (scan source).tokens).flatMap (·.tree.controlOffsets) := by
    have hextents := congrArg (List.map Prod.fst) h.writtenDeclarations
    simp only [List.map_flatMap, List.map_map] at hextents
    exact hextents
  rw [hoffsets]
  exact controls_inOrder source

/-- Among declarations that come in the order of the text, those of the function bodies come first
if they do in the text. -/
theorem programDeclarations_eq_written {ss : List Statement}
    (hwritten : ((writtenDeclarations ss).map HostParam.offset).Pairwise (· < ·))
    (hbefore : ∀ p ∈ ss.flatMap Statement.bodyDeclarations, ∀ q ∈ ss.flatMap Statement.declarations,
      p.offset < q.offset) : programDeclarations ss = writtenDeclarations ss := by
  have hwritten := List.pairwise_map.mp hwritten
  refine (programDeclarations_perm ss).eq_of_pairwise ?_ ?_ hwritten
  · intro p q _ _ hpq hqp
    exact absurd hpq (Nat.lt_asymm hqp)
  · exact List.pairwise_append.mpr ⟨hwritten.sublist (bodyDeclarations_sublist ss),
      hwritten.sublist (declarations_sublist ss), hbefore⟩

/-- The host parameters of a program without errors are the first declarations of their names, where
those in function bodies count before the others. Each call that asks for a host parameter declares
one. If in the text, too, the calls in function bodies come before the others, the first declaration
is the first one of the text. -/
theorem resolve_collects_declarations (source : String)
    (h : (parse (scan source).tokens).patch.resolve.success) :
    let ss := Grammar.statements (scan source).tokens
    let R := (parse (scan source).tokens).patch.resolve
    R.Collects (programDeclarations ss) ∧
      (programDeclarations ss).Perm (writtenDeclarations ss) ∧
      (writtenDeclarations ss).map HostParam.extent =
        ss.flatMap (fun s => s.tree.controlSpans.map Span.extent) ∧
      ((writtenDeclarations ss).map HostParam.offset).Pairwise (· < ·) ∧
      ((∀ p ∈ ss.flatMap Statement.bodyDeclarations, ∀ q ∈ ss.flatMap Statement.declarations,
          p.offset < q.offset) →
        R.Collects (writtenDeclarations ss) ∧
          (R.hostParams.map HostParam.offset).Pairwise (· < ·)) := by
  intro ss R
  have hp := parse_stored (scan source).tokens
  have hsurvey := ((parse (scan source).tokens).patch.resolve_survey hp (parse_unshared _)).1 h
  have hcollects : R.Collects (programDeclarations ss) := Patch.resolve_collects hp hsurvey h
  have hwritten := written_inOrder hsurvey.checks
  refine ⟨hcollects, programDeclarations_perm ss, hsurvey.checks.writtenDeclarations,
    hwritten, fun hbefore => ?_⟩
  rw [programDeclarations_eq_written hwritten hbefore] at hcollects
  exact ⟨hcollects, hwritten.sublist (hcollects.order.map _)⟩

def bodyFirst : String :=
  "fn dim(s) -> s * param(\"depth\", 1, 0, 2)\nx = param(\"cut\", 5, 0, 9)\ndim(x) * param(\"cut\", 1, 0, 2)"

theorem bodyFirst_collected :
    let ss := Grammar.statements (scan bodyFirst).tokens
    let R := (parse (scan bodyFirst).tokens).patch.resolve
    R.success ∧ R.Collects (writtenDeclarations ss) ∧
    (R.hostParams.map HostParam.offset).Pairwise (· < ·) ∧
      (writtenDeclarations ss).map HostParam.mention =
        [("depth", 17, 23), ("cut", 45, 21), ("cut", 76, 21)] := by
  have hscan : scan bodyFirst = .ofChars _ := congrArg Scan.ofChars String.toList_ofList
  have hsuccess : (parse (scan bodyFirst).tokens).patch.resolve.success := by
    rw [hscan]
    decide +kernel
  obtain ⟨-, -, -, -, hwritten⟩ := resolve_collects_declarations bodyFirst hsuccess
  obtain ⟨hcollects, hoffsets⟩ := hwritten (by rw [hscan]; decide +kernel)
  refine ⟨hsuccess, hcollects, hoffsets, ?_⟩
  rw [hscan]
  decide +kernel

/-- A host parameter that is declared in a statement and behind it in a function body, for another
range: the declaration in the body holds, and the first one is remarked on. -/
theorem bodyLast_collected :
    let source := "a = param(\"cut\", 1, 0, 2)\nfn f(s) -> s * param(\"cut\", 5, 0, 9)"
    let R := (parse (scan source).tokens).patch.resolve
    R.success ∧
      (writtenDeclarations (Grammar.statements (scan source).tokens)).map HostParam.mention =
        [("cut", 4, 21), ("cut", 41, 21)] ∧
      R.hostParams.map HostParam.mention = [("cut", 41, 21)] ∧
      R.findings.map (fun f => (f.issue.code, f.span.extent)) = [("W002", 4, 21)] := by
  intro source R
  have hscan : scan source = .ofChars _ := congrArg Scan.ofChars String.toList_ofList
  dsimp only [R]
  rw [hscan]
  decide +kernel

end SignalPatch
