import SignalPatch.Proofs.FreshLiterals
import SignalPatch.Proofs.ResolvedPatch

/-!
# When a tree can be resolved

`Expr.Checks` says of a tree, as it was written, that resolution finds no error in it: names stand
for what they are used as, arguments fit, holes and pipes belong together, and texts and numbers are
where built-in functions look for them. `Expr.declarations` lists the host parameters it declares.

`Walk.surveyed` says that resolution reports no error in a stored tree exactly if the tree
checks, and that it then declares these host parameters.
-/

namespace SignalPatch

open Binding (given)

/-! ## What shows of a value -/

/-- What built-in functions look for in their arguments: texts and numbers. -/
inductive Face where
  | text (value : String)
  | number (value : Float)
  | other
  deriving DecidableEq

def Face.numbers : List Face → Option (List Float)
  | [] => some []
  | .number v :: faces => (numbers faces).map (v :: ·)
  | _ :: _ => none

def NodeKind.face : NodeKind → Face
  | .text t => .text t
  | .number v => .number v
  | _ => .other

def Arena.face (nodes : Arena) (i : NodeId) : Face := (nodes.kind i).face

/-- The face of the node that stands for a tree, where `flow` is that of what flows into its
pipe. -/
def Expr.face (flow : Option Face) : Expr → Face
  | .text t _ => .text t
  | .number v _ => .number v
  | .hole _ => flow.getD .other
  | _ => .other

def Arg.map (f : α → β) (a : Arg α) : Arg β := ⟨a.name, f a.value, a.span⟩

@[simp] theorem Arg.name_map (f : α → β) (a : Arg α) : (a.map f).name = a.name := rfl

@[simp] theorem Arg.value_map (f : α → β) (a : Arg α) : (a.map f).value = f a.value := rfl

theorem map_name_map (f : α → β) (args : List (Arg α)) :
    (args.map (Arg.map f)).map Arg.name = args.map Arg.name := by
  simp [Function.comp_def]

theorem given_map (f : α → β) (params : Signature) (args : List (Arg α)) (k : Nat) :
    given params (args.map (Arg.map f)) k = (given params args k).map (Arg.map f) := by
  simp only [given, List.filter_map, List.find?_map, List.getElem?_map,
    Function.comp_def, Arg.name_map]
  cases (args.filter (·.name.isNone))[k]? <;> simp

def Binding.face (params : Signature) (args : List (Arg Face)) (p : Formal) (k : Nat) : Face :=
  match given params args k, p.fallback with
  | some a, _ => a.value
  | none, .required => .other
  | none, .value x => .number x
  | none, .sameAs j => ((given params args j).map Arg.value).getD .other

def Binding.faces (params : Signature) (args : List (Arg Face)) : List Face :=
  params.zipIdx.map fun q => face params args q.1 q.2

theorem getElem?_faces (params : Signature) (args : List (Arg Face)) (k : Nat) :
    (Binding.faces params args)[k]? = params[k]?.map fun p => Binding.face params args p k := by
  simp [Binding.faces, List.getElem?_zipIdx]
  cases params[k]? <;> rfl

theorem Supplies.faces {nodes : Arena} {literal : NodeId → Float → Prop}
    (h : Binding.Supplies literal params args values) (hparams : Signature.CopiesRequired params)
    (hliteral : ∀ v x, literal v x → nodes.face v = .number x) :
    values.map nodes.face = Binding.faces params (args.map (Arg.map nodes.face)) := by
  refine List.ext_getElem? fun k => ?_
  rw [getElem?_faces, List.getElem?_map]
  cases hp : params[k]? with
  | none =>
    have hlen := List.getElem?_eq_none_iff.mp hp
    rw [List.getElem?_eq_none (h.length ▸ hlen)]
    rfl
  | some p =>
    have hlt := (List.getElem?_eq_some_iff.mp hp).1
    have hv : values[k]? = some (values.get ⟨k, h.length ▸ hlt⟩) :=
      List.getElem?_eq_getElem (h.length ▸ hlt)
    rw [hv]
    simp only [Option.map_some, Option.some.injEq]
    unfold Binding.face
    simp only [given_map]
    cases h.supply k p _ hp hv with
    | argument hg ha => rw [hg, ha]; rfl
    | literal hg hx hl => rw [hg, hx, hliteral _ _ hl]; rfl
    | copy hg hj hjv =>
      -- the parameter that is copied is required, so its value is an argument
      obtain ⟨q, hq, hreq⟩ := hparams _ (List.mem_of_getElem? hp) _ hj
      rw [hg, hj]
      cases h.supply _ q _ hq hjv with
      | argument hg' ha => simp [hg', ← ha]
      | literal _ hx _ => rw [hreq] at hx; cases hx
      | copy _ hj' _ => rw [hreq] at hj'; cases hj'

/-! ## What calls ask for -/

inductive Role where
  | value
  | builtin (b : Builtin)
  | function (params : Signature)

def Meaning.role : Meaning → Role
  | .variable | .parameter => .value
  | .builtin b => .builtin b
  | .function f => .function f.params

def SymbolTable.role (t : SymbolTable) (n : String) : Option Role :=
  (t.lookup n).map fun s => s.meaning.role

/-- What a built-in function asks of its arguments: a pattern that can be read, or a name and
numbers. -/
def BuiltinKind.Accepts : BuiltinKind → List Face → Prop
  | .op _, _ => True
  | .pattern, faces => ∀ f, faces.head? = some f →
      ∃ t p, f = .text t ∧ Pattern.ofChars t.toList = .ok p
  | .control _, [] => True
  | .control _, f :: faces =>
    (∃ t, f = .text t) ∧ ∃ values : List Float, faces = values.map Face.number

/-- The arguments can be given to what has this role. -/
def Role.Takes : Role → List (Arg Face) → Prop
  | .value, _ => False
  | .function params, args => Binding.Fits params (args.map Arg.name)
  | .builtin b, args =>
    Binding.Fits b.params (args.map Arg.name) ∧ b.kind.Accepts (Binding.faces b.params args)

def Builtin.declarations (b : Builtin) (faces : List Face) (span : Span) : List HostParam :=
  match b.kind, faces with
  | .control kind, .text name :: rest =>
    ((Face.numbers rest).map fun values => HostParam.make kind name values span).toList
  | _, _ => []

def callDeclarations (callee : String) (args : List (Arg Face)) (span : Span) : List HostParam :=
  ((Builtin.find? callee).map fun b => b.declarations (Binding.faces b.params args) span).getD []

def Meaning.Accepts (faces : List Face) : Meaning → Prop
  | .builtin b => b.kind.Accepts faces
  | _ => True

def Meaning.declarations (faces : List Face) (span : Span) : Meaning → List HostParam
  | .builtin b => b.declarations faces span
  | _ => []

theorem Meaning.takes_iff {m : Meaning} (h : m.signature? = some params) (args : List (Arg Face)) :
    m.role.Takes args ↔
      Binding.Fits params (args.map Arg.name) ∧ m.Accepts (Binding.faces params args) := by
  cases m <;> cases h <;> simp [Meaning.role, Role.Takes, Meaning.Accepts]

/-! ## Trees -/

theorem Expr.face_of_isCall {e : Expr} (h : e.isCall) (flow : Option Face) :
    e.face flow = .other := by
  cases e with
  | call => rfl
  | _ => cases h

def Expr.faceArgs (flow : Option Face) (args : List (Arg Expr)) : List (Arg Face) :=
  args.map (Arg.map (Expr.face flow))

/-- The tree has no error, where `roles` says what names can be used as and `flow` is the face of
what flows into the pipe around it. -/
inductive Expr.Checks (roles : String → Option Role) : Option Face → Expr → Prop
  | number : Checks roles flow (.number v s)
  | bool : Checks roles flow (.bool v s)
  | text : Checks roles flow (.text v s)
  | ident : roles x = some .value → Checks roles flow (.ident x s)
  | hole : Checks roles (some f) (.hole s)
  | binary : Checks roles flow lhs → Checks roles flow rhs →
      Checks roles flow (.binary op lhs rhs s)
  | pipe : Checks roles flow source → target.isCall → target.hasHole →
      Checks roles (some (source.face flow)) target → Checks roles flow (.pipe source target s)
  | call : (∀ a ∈ args, Checks roles flow a.value) → roles callee = some role →
      role.Takes (Expr.faceArgs flow args) → Checks roles flow (.call callee args s)

namespace Expr.Checks

theorem ident_iff : (Expr.ident x s).Checks roles flow ↔ roles x = some .value := by
  refine ⟨fun h => ?_, .ident⟩
  cases h with
  | ident h => exact h

theorem hole_iff : (Expr.hole s).Checks roles flow ↔ flow.isSome := by
  refine ⟨fun h => ?_, fun h => ?_⟩
  · cases h
    rfl
  · obtain ⟨f, rfl⟩ := Option.isSome_iff_exists.mp h
    exact .hole

theorem binary_iff : (Expr.binary op lhs rhs s).Checks roles flow ↔
    lhs.Checks roles flow ∧ rhs.Checks roles flow := by
  refine ⟨fun h => ?_, fun h => .binary h.1 h.2⟩
  cases h with
  | binary hl hr => exact ⟨hl, hr⟩

theorem pipe_iff : (Expr.pipe source target s).Checks roles flow ↔ source.Checks roles flow ∧
    target.isCall ∧ target.hasHole ∧ target.Checks roles (some (source.face flow)) := by
  refine ⟨fun h => ?_, fun ⟨hs, hc, hh, ht⟩ => .pipe hs hc hh ht⟩
  cases h with
  | pipe hs hc hh ht => exact ⟨hs, hc, hh, ht⟩

theorem call_iff : (Expr.call callee args s).Checks roles flow ↔
    (∀ a ∈ args, a.value.Checks roles flow) ∧
      ∃ role, roles callee = some role ∧ role.Takes (Expr.faceArgs flow args) := by
  refine ⟨fun h => ?_, fun ⟨ha, role, hr, ht⟩ => .call ha hr ht⟩
  cases h with
  | call ha hr ht => exact ⟨ha, _, hr, ht⟩

end Expr.Checks

mutual

/-- The host parameters that a tree declares, in the order of resolution. -/
def Expr.declarations (flow : Option Face) : Expr → List HostParam
  | .binary _ lhs rhs _ => lhs.declarations flow ++ rhs.declarations flow
  | .pipe source target _ =>
    source.declarations flow ++ target.declarations (some (source.face flow))
  | .call callee args s =>
    argDeclarations flow args ++ callDeclarations callee (Expr.faceArgs flow args) s
  | _ => []

def argDeclarations (flow : Option Face) : List (Arg Expr) → List HostParam
  | [] => []
  | ⟨_, value, _⟩ :: args => value.declarations flow ++ argDeclarations flow args

end

theorem argDeclarations_eq (flow : Option Face) (args : List (Arg Expr)) :
    argDeclarations flow args = args.flatMap fun a => a.value.declarations flow := by
  induction args with
  | nil => rfl
  | cons a args ih => rw [argDeclarations, ih, List.flatMap_cons]

theorem Arena.face_eq {nodes : Arena} {i : NodeId} {node : Node} (h : nodes[i]? = some node) :
    nodes.face i = node.kind.face := by
  rw [Arena.face, Arena.kind_eq h]

theorem Arena.face_congr {nodes nodes' : Arena} {i : NodeId} (h : nodes'[i]? = nodes[i]?) :
    nodes'.face i = nodes.face i := by
  simp [Arena.face, Arena.kind, Arena.node, Array.getD_eq_getD_getElem?, h]

theorem Face.numbers_eq_some {faces : List Face} {values : List Float} :
    Face.numbers faces = some values ↔ faces = values.map Face.number := by
  induction faces generalizing values with
  | nil => cases values <;> simp [Face.numbers]
  | cons f faces ih => cases f <;> cases values <;> simp [Face.numbers, ih, and_comm]

namespace Resolving

/-! ## Steps -/

theorem clean_append {fs fs' : List Finding} : Clean (fs ++ fs') ↔ Clean fs ∧ Clean fs' := by
  simp only [Clean, List.mem_append]
  exact ⟨fun h => ⟨fun f hf => h f (.inl hf), fun f hf => h f (.inr hf)⟩,
    fun h f hf => hf.elim (h.1 f) (h.2 f)⟩

/-- A step of resolution finds no error exactly if `Q` holds, and then it declares `ds`. It shares
no literal made behind the first `n` nodes. -/
structure Step (n : Nat) (Q : Prop) (ds : List HostParam) (r r' : Resolution) : Prop where
  clean : Clean r'.findings ↔ Clean r.findings ∧ Q
  hostParams : Clean r'.findings → r'.hostParams = ds.foldl HostParam.declare r.hostParams
  unshared : r.nodes.Unshared n → r'.nodes.Unshared n

namespace Step

theorem refl (hQ : Q) : Step n Q [] r r := ⟨⟨fun h => ⟨h, hQ⟩, fun h => h.1⟩, fun _ => rfl, id⟩

theorem fail {issue : Issue} (hissue : issue.severity = .error) (hQ : ¬ Q)
    (hunshared : r.nodes.Unshared n → r'.nodes.Unshared n)
    (hfindings : r'.findings = fs ++ [⟨issue, span⟩]) : Step n Q ds r r' := by
  have hnot : ¬ Clean r'.findings := hfindings ▸ not_clean_report hissue fs span
  exact ⟨iff_of_false hnot fun h => hQ h.2, fun h => absurd h hnot, hunshared⟩

theorem before (h : Step n Q ds r r') (hc : Clean r'.findings) : Clean r.findings :=
  (h.clean.mp hc).1

theorem congr (h : Step n Q ds r r') (hQ : Clean r.findings → (Q ↔ Q'))
    (hds : Clean r.findings → ds = ds') : Step n Q' ds' r r' :=
  ⟨h.clean.trans (and_congr_right hQ), fun hc => hds (h.before hc) ▸ h.hostParams hc, h.unshared⟩

theorem andThen (h : Step n Q ds r r₁) (h' : Step n Q' ds' r₁ r₂) :
    Step n (Q ∧ Q') (ds ++ ds') r r₂ where
  clean := by rw [h'.clean, h.clean, and_assoc]
  hostParams := fun hc => by
    rw [h'.hostParams hc, h.hostParams (h'.before hc), List.foldl_append]
  unshared := fun hu => h'.unshared (h.unshared hu)

theorem withNodes {nodes : Arena} (h : Step n Q ds r r')
    (hunshared : r'.nodes.Unshared n → nodes.Unshared n) : Step n Q ds r { r' with nodes } :=
  ⟨h.clean, h.hostParams, fun hu => hunshared (h.unshared hu)⟩

end Step

/-! ## Calls -/

theorem readPattern_clean (i : NodeId) (r : Resolution) :
    Clean ((readPattern i).run r).2.findings ↔
      Clean r.findings ∧ ∃ t p, r.nodes.face i = .text t ∧ Pattern.ofChars t.toList = .ok p := by
  unfold readPattern
  rw [run_bind, run_kindOf]
  cases hk : r.nodes.kind i with
  | text t =>
    simp only [run_bind, run_spanOf, Arena.face, hk, NodeKind.face, Pattern.parse]
    cases hp : Pattern.ofChars t.toList with
    | ok p => exact ⟨fun h => ⟨h, t, p, rfl, hp⟩, fun h => h.1⟩
    | error m =>
      refine iff_of_false (not_clean_report rfl _ _) ?_
      simp [hp]
  | _ =>
    refine iff_of_false (not_clean_report rfl _ _) ?_
    simp [Arena.face, hk, NodeKind.face]

theorem numbers_eq_ok {nodes : Arena} {vs : List NodeId} {values : List Float} :
    numbers nodes vs = .ok values ↔ Face.numbers (vs.map nodes.face) = some values := by
  induction vs generalizing values with
  | nil => simp [numbers, Face.numbers]
  | cons v vs ih =>
    rw [numbers, List.map_cons, Arena.face]
    cases nodes.kind v with
    | number x =>
      simp only [NodeKind.face, Face.numbers, Option.map_eq_some_iff, ← ih]
      cases numbers nodes vs <;> simp [Functor.map, Except.map]
    | _ => simp [NodeKind.face, Face.numbers]

theorem remarks_clean (ps : List HostParam) (p : HostParam) (swapped : Bool) (s : Span) :
    Clean ((HostParam.remarks ps p swapped).map (Finding.mk · s)) := by
  intro f hf
  obtain ⟨issue, hi, rfl⟩ := List.mem_map.mp hf
  unfold HostParam.remarks at hi
  rcases List.mem_append.mp hi with hi | hi
  · split at hi
    · obtain rfl := List.mem_singleton.mp hi
      rfl
    · simp at hi
  · split at hi
    · split at hi
      · simp at hi
      · obtain rfl := List.mem_singleton.mp hi
        rfl
    · simp at hi

theorem declareHostParam_clean (callee : String) (kind : ControlKind) (args : List NodeId)
    (s : Span) (r : Resolution) : Clean ((declareHostParam callee kind args s).run r).2.findings ↔
      Clean r.findings ∧ (BuiltinKind.control kind).Accepts (args.map r.nodes.face) := by
  unfold declareHostParam
  rw [run_bind, run_get]
  cases args with
  | nil => exact ⟨fun h => ⟨h, trivial⟩, fun h => h.1⟩
  | cons v rest =>
    simp only [List.map_cons, BuiltinKind.Accepts]
    cases hk : r.nodes.kind v with
    | text name =>
      have hface : r.nodes.face v = .text name := by rw [Arena.face, hk, NodeKind.face]
      dsimp only
      cases hn : numbers r.nodes rest with
      | error i =>
        refine iff_of_false (not_clean_report rfl _ _) ?_
        rintro ⟨-, -, values, hvalues⟩
        cases hn.symm.trans (numbers_eq_ok.mpr (Face.numbers_eq_some.mpr hvalues))
      | ok values =>
        simp only [run_set, clean_append]
        exact ⟨fun h => ⟨h.1, ⟨name, hface⟩, values, Face.numbers_eq_some.mp (numbers_eq_ok.mp hn)⟩,
          fun h => ⟨h.1, remarks_clean _ _ _ _⟩⟩
    | _ =>
      refine iff_of_false (not_clean_report rfl _ _) ?_
      simp [Arena.face, hk, NodeKind.face]

theorem declareHostParam_hostParams {f : Builtin} (hkind : f.kind = .control kind) (callee : String)
    (args : List NodeId) (s : Span) (r : Resolution) :
    ((declareHostParam callee kind args s).run r).2.hostParams =
      (f.declarations (args.map r.nodes.face) s).foldl HostParam.declare r.hostParams := by
  unfold declareHostParam Builtin.declarations
  rw [run_bind, run_get, hkind]
  cases args with
  | nil => rfl
  | cons v rest =>
    have hnumbers := @numbers_eq_ok r.nodes rest
    generalize hfaces : Face.numbers (rest.map r.nodes.face) = faces at hnumbers
    simp only [List.map_cons]
    cases hk : r.nodes.kind v with
    | text name =>
      rw [show r.nodes.face v = .text name by rw [Arena.face, hk, NodeKind.face]]
      dsimp only
      rw [hfaces]
      -- If a setting is no number, nothing is declared on either side.
      cases faces with
      | none =>
        cases hn : numbers r.nodes rest with
        | error i => rfl
        | ok values => cases hnumbers.mp hn
      | some values =>
        rw [hnumbers.mpr rfl]
        rfl
    | _ => simp only [Arena.face, hk, NodeKind.face]; rfl

theorem checkBound_nodes (callee : String) (m : Meaning) (s : Span) (values : Option (List NodeId))
    (r : Resolution) : ((checkBound callee m s values).run r).2.nodes = r.nodes := by
  unfold checkBound
  split
  · rename_i f values
    unfold checkBuiltin
    cases f.kind with
    | op _ => rfl
    | pattern =>
      cases values with
      | nil => rfl
      | cons v _ =>
        obtain ⟨_, _, hrun, -⟩ := readPattern_frame v r
        have hnodes := congrArg Resolution.nodes hrun
        exact hnodes
    | control kind =>
      obtain ⟨_, _, hrun⟩ := declareHostParam_frame callee kind values s r
      have hnodes := congrArg Resolution.nodes hrun
      exact hnodes
  · rfl

theorem checkBound_clean (callee : String) (m : Meaning) (s : Span) (values : List NodeId)
    (r : Resolution) :
    Clean ((checkBound callee m s (some values)).run r).2.findings ↔
      Clean r.findings ∧ m.Accepts (values.map r.nodes.face) := by
  cases m with
  | builtin f =>
    change Clean ((checkBuiltin callee f values s).run r).2.findings ↔ _ ∧ f.kind.Accepts _
    unfold checkBuiltin
    cases hf : f.kind with
    | op _ => exact ⟨fun h => ⟨h, trivial⟩, fun h => h.1⟩
    | pattern =>
      cases values with
      | nil => exact ⟨fun h => ⟨h, by simp [BuiltinKind.Accepts]⟩, fun h => h.1⟩
      | cons v rest =>
        refine (readPattern_clean v r).trans (and_congr_right fun _ => ?_)
        simp [BuiltinKind.Accepts]
    | control kind => exact declareHostParam_clean ..
  | _ => exact (and_iff_left trivial).symm

theorem checkBound_hostParams (callee : String) (m : Meaning) (s : Span) (values : List NodeId)
    (r : Resolution) :
    ((checkBound callee m s (some values)).run r).2.hostParams =
      (m.declarations (values.map r.nodes.face) s).foldl HostParam.declare r.hostParams := by
  cases m with
  | builtin f =>
    change ((checkBuiltin callee f values s).run r).2.hostParams = (f.declarations _ s).foldl _ _
    unfold checkBuiltin
    cases hf : f.kind with
    | op _ =>
      simp only [Builtin.declarations, hf]
      rfl
    | pattern =>
      simp only [Builtin.declarations, hf]
      cases values with
      | nil => rfl
      | cons v rest => exact readPattern_hostParams v r
    | control kind => exact declareHostParam_hostParams hf ..
  | _ => rfl

theorem bindCall_clean (i : NodeId) (callee : String) (params : Signature)
    (args : List (Arg NodeId)) (s : Span) (r : Resolution) :
    Clean ((bindCall i callee params args s).run r).2.findings ↔
      Clean r.findings ∧ Binding.Fits params (args.map Arg.name) := by
  rw [run_bindCall, clean_append, ← Binding.bind_findings_iff callee params args s r.nodes]
  refine and_congr_right fun _ => ⟨fun hclean => ?_, fun hnil => by simp [hnil, Clean]⟩
  -- whatever is wrong with the arguments is an error
  refine List.eq_nil_iff_forall_not_mem.mpr fun f hf => ?_
  have := Binding.bind_isError callee params args s r.nodes f hf
  rw [hclean f hf] at this
  cases this

theorem bindCall_faces {r : Resolution} {i : Nat}
    (hnode : r.nodes[i]? = some ⟨.call callee args, s⟩) (hparams : Signature.CopiesRequired params)
    (hargs : ∀ a ∈ args, a.value < i)
    (hclean : Clean ((bindCall i callee params args s).run r).2.findings) :
    ∃ values, ((bindCall i callee params args s).run r).1 = some values ∧
      values.map ((bindCall i callee params args s).run r).2.nodes.face =
        Binding.faces params (args.map (Arg.map r.nodes.face)) := by
  have hi : i < r.nodes.size := (Array.getElem?_eq_some_iff.mp hnode).1
  obtain ⟨hw, hbound⟩ := bindCall_ok hnode hparams args
  obtain ⟨args', hvalues, hsup, -⟩ := hbound hclean
  refine ⟨_, hvalues, ?_⟩
  rw [Supplies.faces hsup hparams fun v x hvx => Arena.face_eq hvx.2]
  -- the arguments lie before the call, so they show what they showed before
  congr 1
  refine List.map_congr_left fun a ha => ?_
  have hlt := hargs a ha
  simp only [Arg.map, Arena.face_congr (hw.nodes a.value (Nat.lt_trans hlt hi) (.inl hlt))]

theorem bindCall_face {r : Resolution} {i : NodeId}
    (hnode : r.nodes[i]? = some ⟨.call callee args₀, s₀⟩) (params : Signature)
    (args : List (Arg NodeId)) (s : Span) :
    ((bindCall i callee params args s).run r).2.nodes.face i = .other := by
  have hi := (Array.getElem?_eq_some_iff.mp hnode).1
  have hnode' := ((Binding.bind_extends callee params args s r.nodes).2 i hi).trans hnode
  rw [run_bindCall]
  dsimp only [boundNodes]
  cases (Binding.bind callee params args s r.nodes).values with
  | none => exact Arena.face_eq hnode'
  | some values => exact Arena.face_eq (Arena.getElem?_setKind_self hnode' _)

/-- Names of built-in functions are not names of functions of the patch. -/
structure NamesOk (t : SymbolTable) : Prop extends SignaturesOk t where
  functions : ∀ n params, t.role n = some (.function params) → Builtin.find? n = none

theorem role_of_meaning {t : SymbolTable} (hm : (t.lookup n).map Symbol.meaning = some m) :
    t.role n = some m.role := by
  obtain ⟨symbol, hl, rfl⟩ := Option.map_eq_some_iff.mp hm
  simp [SymbolTable.role, hl]

theorem NamesOk.callDeclarations {t : SymbolTable} (hT : NamesOk t)
    (hm : (t.lookup callee).map Symbol.meaning = some m) (hsig : m.signature? = some params)
    (args : List (Arg Face)) (s : Span) :
    callDeclarations callee args s = m.declarations (Binding.faces params args) s := by
  unfold SignalPatch.callDeclarations
  cases m with
  | builtin b =>
    cases hsig
    rw [hT.builtins callee b hm]
    rfl
  | function f =>
    rw [hT.functions callee f.params (role_of_meaning hm)]
    rfl
  | _ => cases hsig

theorem faces_setKind {nodes : Arena} {i : Nat} {args : List (Arg NodeId)}
    (hargs : ∀ a ∈ args, a.value < i) (kind : NodeKind) :
    args.map (Arg.map (nodes.setKind i kind).face) = args.map (Arg.map nodes.face) := by
  refine List.map_congr_left fun a ha => ?_
  simp only [Arg.map, Arena.face_congr (Arena.getElem?_setKind_ne _ _ (Nat.ne_of_lt (hargs a ha)))]

/-- What resolving a call whose arguments are resolved comes to. -/
structure CallSurveyed (n i : Nat) (callee : String) (args : List (Arg Face)) (s : Span)
    (r r' : Resolution) : Prop extends
    Step n (∃ role, r.symbols.role callee = some role ∧ role.Takes args)
      (callDeclarations callee args s) r r' where
  face : r'.nodes.face i = .other

theorem resolveCall_surveyed {r : Resolution} {i : Nat}
    (hnode : r.nodes[i]? = some ⟨.call callee args₀, s⟩) (hT : NamesOk r.symbols) (hi : i < n)
    (hn : n ≤ r.nodes.size) (hargs : ∀ a ∈ args, a.value < i) :
    CallSurveyed n i callee (args.map (Arg.map r.nodes.face)) s r
      ((resolveCall i callee args).run r).2 := by
  have hnode₁ : (r.nodes.setKind i (.call callee args))[i]? = some ⟨.call callee args, s⟩ :=
    Arena.getElem?_setKind_self hnode _
  have hlt : ∀ a ∈ args, a.value < n := fun a ha => Nat.lt_trans (hargs a ha) hi
  have hunshared : r.nodes.Unshared n → (r.nodes.setKind i (.call callee args)).Unshared n :=
    fun h => h.setKind hn hnode _ (by rintro _ _ ⟨⟩; exact hlt)
  have hcalled := resolveCall_called hnode args
  generalize ((resolveCall i callee args).run r).2 = r' at hcalled ⊢
  cases hcalled with
  | refused hnone hissue =>
    refine ⟨.fail (by rcases hissue with rfl | rfl <;> rfl) ?_ hunshared rfl, Arena.face_eq hnode₁⟩
    rintro ⟨role, hrole, htakes⟩
    obtain ⟨symbol, hl, rfl⟩ := Option.map_eq_some_iff.mp hrole
    have hsig := hnone symbol.meaning (by simp [hl])
    cases hm : symbol.meaning <;> simp_all [Meaning.role, Role.Takes, Meaning.signature?]
  | @bound m params values r₂ hm hsig hrun =>
    let r₁ : Resolution := { r with nodes := r.nodes.setKind i (.call callee args) }
    have hparams := hT.copies callee _ _ hm hsig
    have hclean := bindCall_clean i callee params args s r₁
    have hvalues := bindCall_faces (r := r₁) hnode₁ hparams hargs
    have hhosts := bindCall_hostParams i callee params args s r₁
    have hface := bindCall_face (r := r₁) hnode₁ params args s
    have hnext := fun h => bindCall_unshared (r := r₁) hnode₁ hparams hlt
      (by simpa [r₁] using hn) (hunshared h)
    rw [hrun] at hclean hvalues hhosts hface hnext
    rw [faces_setKind hargs] at hvalues
    -- A call is taken if its arguments fit the parameters and the values they get are accepted:
    -- the first is what binding reports on, the second what the check behind it does.
    have htakes :
        (∃ role, r.symbols.role callee = some role ∧ role.Takes (args.map (Arg.map r.nodes.face))) ↔
          Binding.Fits params (args.map Arg.name) ∧
            m.Accepts (Binding.faces params (args.map (Arg.map r.nodes.face))) := by
      simp [role_of_meaning hm, Meaning.takes_iff hsig, Function.comp_def]
    have hbound : Step n (Binding.Fits params (args.map Arg.name)) [] r r₂ :=
      ⟨hclean, fun _ => hhosts, hnext⟩
    have hnodes := checkBound_nodes callee m s values r₂
    refine ⟨?_, (congrArg (Arena.face · i) hnodes).trans hface⟩
    rw [hT.callDeclarations hm hsig]
    cases values with
    | none =>
      have hnot : ¬ Clean r₂.findings := fun hc => by
        obtain ⟨values, hsome, -⟩ := hvalues hc
        cases hsome
      have hsame : ((checkBound callee m s none).run r₂).2 = r₂ := by cases m <;> rfl
      rw [hsame, htakes]
      exact ⟨iff_of_false hnot fun h => hnot (hclean.mpr ⟨h.1, h.2.1⟩), fun hc =>
        absurd hc hnot, hnext⟩
    | some values =>
      have hshown : Clean r₂.findings → values.map r₂.nodes.face =
          Binding.faces params (args.map (Arg.map r.nodes.face)) := by
        intro hc
        obtain ⟨values', hsome, hface⟩ := hvalues hc
        cases hsome
        exact hface
      have hcheck : Step n (m.Accepts (values.map r₂.nodes.face))
          (m.declarations (values.map r₂.nodes.face) s) r₂
            ((checkBound callee m s (some values)).run r₂).2 :=
        ⟨checkBound_clean .., fun _ => checkBound_hostParams .., fun h => hnodes ▸ h⟩
      have hcheck := hcheck.congr (fun hc => by rw [hshown hc]) (fun hc => by rw [hshown hc])
      exact (hbound.andThen hcheck).congr (fun _ => htakes.symm) fun _ => rfl

/-! ## Trees -/

/-- What resolving the tree `e` with root `i` comes to: it gives a node up to `i`, finds no error
exactly if the tree checks, and then that node shows the face of the tree and what the tree declares
has been declared. -/
structure Surveyed (P : Arena) (e : Expr) (i : Nat) (hole : Option NodeId) (r : Resolution)
    (out : NodeId × Resolution) : Prop extends
    Step P.size (e.Checks r.symbols.role (hole.map r.nodes.face))
      (e.declarations (hole.map r.nodes.face)) r out.2 where
  le : out.1 ≤ i
  face : Clean out.2.findings → out.2.nodes.face out.1 = e.face (hole.map r.nodes.face)

theorem hole_face {r r' : Resolution} {hole : Option NodeId} {a : Nat}
    (hhole : ∀ h, hole = some h → h < a) (hw : Within a b r r') (ha : a ≤ r.nodes.size) :
    hole.map r'.nodes.face = hole.map r.nodes.face := by
  cases hole with
  | none => rfl
  | some h =>
    have hlt := hhole h rfl
    rw [Option.map_some, Option.map_some,
      Arena.face_congr (hw.nodes h (Nat.lt_of_lt_of_le hlt ha) (.inl hlt))]

theorem checkValue_step (x : String) (span : Span) (r : Resolution) :
    Step n (r.symbols.role x = some .value) [] r ((checkValue x span).run r).2 := by
  unfold checkValue SymbolTable.role
  rw [run_bind, run_lookup]
  cases r.symbols.lookup x with
  | none => exact .fail rfl (by simp) id rfl
  | some symbol =>
    cases hm : symbol.meaning with
    | «variable» | «parameter» =>
      simp only [Symbol.isValue, hm, Option.map_some, Meaning.role]
      exact .refl trivial
    | builtin _ | function _ =>
      simp only [Symbol.isValue, hm, Option.map_some, Meaning.role]
      exact .fail rfl (by simp) id rfl

structure ArgsSurveyed (P : Arena) (args : List (Arg Expr)) (b : Nat) (hole : Option NodeId)
    (r : Resolution) (out : List (Arg NodeId) × Resolution) : Prop extends
    Step P.size (∀ a ∈ args, a.value.Checks r.symbols.role (hole.map r.nodes.face))
      (argDeclarations (hole.map r.nodes.face) args) r out.2 where
  lt : ∀ x ∈ out.1, x.value < b
  faces : Clean out.2.findings →
    out.1.map (Arg.map out.2.nodes.face) = Expr.faceArgs (hole.map r.nodes.face) args

mutual

theorem Walk.surveyed :
    Walk P a e i hole r j r' → (∀ x, hole = some x → x < a) → P.size ≤ r.nodes.size →
    NamesOk r.symbols → Surveyed P e i hole r (j, r')
  | .number _ hr, _, _, _ => ⟨.refl .number, Nat.le_refl _, fun _ => Arena.face_eq hr⟩
  | .bool _ hr, _, _, _ => ⟨.refl .bool, Nat.le_refl _, fun _ => Arena.face_eq hr⟩
  | .text _ hr, _, _, _ => ⟨.refl .text, Nat.le_refl _, fun _ => Arena.face_eq hr⟩
  | .ident _ hr, _, _, _ => by
    refine ⟨(checkValue_step _ _ r).congr (fun _ => Expr.Checks.ident_iff.symm) fun _ => rfl,
      Nat.le_refl _, fun _ => ?_⟩
    rw [checkValue_frame]
    exact Arena.face_eq hr
  | .filled _, hhole, _, _ => ⟨.refl .hole, Nat.le_of_lt (hhole _ rfl), fun _ => rfl⟩
  | .unfilled _, _, _, _ => ⟨.fail rfl (by simp [Expr.Checks.hole_iff]) id rfl, Nat.le_refl _,
      fun hc => absurd hc (not_clean_report rfl _ _)⟩
  | .binary hl hr h hnode, hhole, hn, hT => by
    have hw₁ := hl.within
    have hn₁ := Nat.le_trans hn hw₁.size
    have hm := (Array.getElem?_eq_some_iff.mp h).1
    have hal := hl.stored.le
    have hlm := hr.stored.le
    obtain ⟨hs₁, -, -⟩ := hl.surveyed hhole hn hT
    obtain ⟨hs₂, -, -⟩ := hr.surveyed (hole_lt hhole (by omega)) hn₁ (hw₁.symbols ▸ hT)
    rw [hw₁.symbols, hole_face hhole hw₁ (by omega)] at hs₂
    refine ⟨((hs₁.andThen hs₂).congr (fun _ => Expr.Checks.binary_iff.symm) fun _ => ?_).withNodes
      fun hu => hu.setKind (Nat.le_trans hn₁ hr.within.size) hnode _ (by simp),
        Nat.le_refl _, fun _ => ?_⟩
    · rw [Expr.declarations]
    · exact Arena.face_eq (Arena.getElem?_setKind_self hnode _)
  | .pipe hs ht htarget _, hhole, hn, hT => by
    have hw₁ := hs.within
    obtain ⟨hs₁, hle₁, hface₁⟩ := hs.surveyed hhole hn hT
    obtain ⟨hs₂, hle₂, hface₂⟩ := ht.surveyed (by rintro _ ⟨⟩; exact Nat.lt_succ_of_le hle₁)
      (Nat.le_trans hn hw₁.size) (hw₁.symbols ▸ hT)
    rw [hw₁.symbols, Option.map_some] at hs₂
    -- what flows into the target is what the source shows, as long as there is no error
    have hs₂ := hs₂.congr (fun hc => by rw [hface₁ hc]) (fun hc => by rw [hface₁ hc])
    refine ⟨(hs₁.andThen hs₂).congr (fun _ => ?_) fun _ => ?_, Nat.le_succ_of_le hle₂, fun hc => ?_⟩
    · rw [Expr.Checks.pipe_iff]
      exact and_congr_right fun _ =>
        ⟨fun hchecks => ⟨htarget.1, htarget.2, hchecks⟩, fun h => h.2.2⟩
    · rw [Expr.declarations]
    · -- a call shows nothing, and neither does a pipe into it
      rw [hface₂ hc]
      exact Expr.face_of_isCall htarget.1 _
  | .refused hs ht htarget _, hhole, hn, hT => by
    have hlm := ht.le
    obtain ⟨hs₁, hle₁, -⟩ := hs.surveyed hhole hn hT
    refine ⟨.fail rfl ?_ hs₁.unshared rfl, Nat.le_trans hle₁ (by omega),
      fun hc => absurd hc (not_clean_report rfl _ _)⟩
    rw [Expr.Checks.pipe_iff]
    exact fun hpipe => htarget ⟨hpipe.2.1, hpipe.2.2.1⟩
  | .call hargs h hnode hn' _, hhole, hn, hT => by
    have hi := (Array.getElem?_eq_some_iff.mp h).1
    obtain ⟨hs₁, hlt₁, hfaces₁⟩ := hargs.surveyed (Nat.le_of_lt hi) hhole hn hT
    obtain ⟨hs₂, hface₂⟩ := resolveCall_surveyed hnode (hargs.within.symbols ▸ hT) hi hn' hlt₁
    rw [hargs.within.symbols] at hs₂
    have hs₂ := hs₂.congr (fun hc => by rw [hfaces₁ hc]) (fun hc => by rw [hfaces₁ hc])
    refine ⟨(hs₁.andThen hs₂).congr (fun _ => Expr.Checks.call_iff.symm) fun _ => ?_, Nat.le_refl _,
      fun _ => hface₂⟩
    rw [Expr.declarations]

theorem WalkArgs.surveyed :
    WalkArgs P a args ids b hole r ids' r' → b ≤ P.size → (∀ x, hole = some x → x < a) →
    P.size ≤ r.nodes.size → NamesOk r.symbols → ArgsSurveyed P args b hole r (ids', r')
  | .nil, _, _, _, _ => ⟨.refl (by simp), by simp, fun _ => rfl⟩
  | .cons hv hargs, hb, hhole, hn, hT => by
    have hw₁ := hv.within
    have hn₁ := Nat.le_trans hn hw₁.size
    have hai := hv.stored.le
    have hib := hargs.stored.le
    have hi' := Nat.lt_succ_of_le (hv.le hhole)
    obtain ⟨hs₁, -, hface₁⟩ := hv.surveyed hhole hn hT
    obtain ⟨hs₂, -, hfaces₂⟩ := hargs.surveyed hb (hole_lt hhole (by omega)) hn₁ (hw₁.symbols ▸ hT)
    have hflow := hole_face hhole hw₁ (by omega)
    rw [hw₁.symbols, hflow] at hs₂
    rw [hflow] at hfaces₂
    refine ⟨(hs₁.andThen hs₂).congr (fun _ => ?_) fun _ => ?_,
      (WalkArgs.cons hv hargs).lt hhole, fun hc => ?_⟩
    · rw [List.forall_mem_cons]
    · rw [argDeclarations]
    · have hkeep :=
        Arena.face_congr (hargs.within.nodes _ (Nat.lt_of_lt_of_le hi' (by omega)) (.inl hi'))
      rw [Expr.faceArgs, List.map_cons, List.map_cons, hfaces₂ hc]
      simp only [Arg.map, hkeep, hface₁ (hs₂.before hc), Expr.faceArgs]

end

end Resolving

end SignalPatch
