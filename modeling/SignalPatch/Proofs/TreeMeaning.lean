import SignalPatch.Proofs.GraphMeaning

/-!
# Resolution keeps the meaning of trees

What a tree means as it was written is what the node means that stands for it in the resolved patch
(`Rewritten.denotes`). Two things carry the proof: a hole means what the node means that flows into
its pipe, and the arguments that a call was given have the same names before and after they are
resolved.
-/

namespace SignalPatch

open Resolving (formal)

/-! ## Arguments with the same names -/

/-- Two arguments for the same parameter, whose values are related. -/
def Matches (Q : α → β → Prop) (x : Arg α) (y : Arg β) : Prop := x.name = y.name ∧ Q x.value y.value

theorem getElem?_rel {S : α → β → Prop} (h : List.Forall₂ S xs ys) (k : Nat) :
    Option.Rel S xs[k]? ys[k]? := by
  induction h generalizing k with
  | nil => exact .none
  | cons hxy _ ih =>
    cases k with
    | zero => exact .some hxy
    | succ k => exact ih k

theorem find?_rel {S : α → β → Prop} {p : α → Bool} {q : β → Bool} (h : List.Forall₂ S xs ys)
    (hpq : ∀ x y, S x y → p x = q y) : Option.Rel S (xs.find? p) (ys.find? q) := by
  induction h with
  | nil => exact .none
  | @cons x y _ _ hxy _ ih =>
    rw [List.find?_cons, List.find?_cons, ← hpq x y hxy]
    cases p x with
    | true => exact .some hxy
    | false => exact ih

theorem given_rel {Q : α → β → Prop} (h : List.Forall₂ (Matches Q) xs ys) (params : Signature)
    (k : Nat) : Option.Rel (Matches Q) (Binding.given params xs k) (Binding.given params ys k) := by
  have hunnamed : List.Forall₂ (Matches Q) (xs.filter (·.name.isNone))
      (ys.filter (·.name.isNone)) :=
    List.rel_filter (fun x y hxy => iff_of_eq (by dsimp only; rw [hxy.1])) h
  have hnamed : Option.Rel (Matches Q) (xs.find? fun a => a.name.bind params.index? == some k)
      (ys.find? fun a => a.name.bind params.index? == some k) :=
    find?_rel h fun x y hxy => by rw [hxy.1]
  have hplace := getElem?_rel hunnamed k
  unfold Binding.given
  generalize (xs.filter (·.name.isNone))[k]? = ox at hplace ⊢
  generalize (ys.filter (·.name.isNone))[k]? = oy at hplace ⊢
  cases hplace with
  | none => simpa using hnamed
  | some hxy => exact .some hxy

theorem given_none {Q : α → β → Prop} (h : List.Forall₂ (Matches Q) xs ys)
    (hx : Binding.given params xs k = none) : Binding.given params ys k = none := by
  have hrel := given_rel h params k
  rw [hx] at hrel
  generalize Binding.given params ys k = oy at hrel ⊢
  cases hrel
  rfl

theorem given_some {Q : α → β → Prop} (h : List.Forall₂ (Matches Q) xs ys)
    (hx : Binding.given params xs k = some x) :
    ∃ y, Binding.given params ys k = some y ∧ Q x.value y.value := by
  have hrel := given_rel h params k
  rw [hx] at hrel
  generalize Binding.given params ys k = oy at hrel ⊢
  cases hrel with
  | some hxy => exact ⟨_, rfl, hxy.2⟩

theorem denoteArgs_matches {Q : NodeId → Option Value → Prop} {hole : Option Value}
    {args' : List (Arg NodeId)} (hargs : StoredArgs P a es args b)
    (hnames : args'.map Arg.name = args.map Arg.name)
    (h : ∀ q ∈ args.zip args', ∀ {start e}, Stored P start e q.1.value →
      Q q.2.value (e.denote call env hole)) :
    List.Forall₂ (Matches Q) args' (denoteArgs call env hole es) := by
  induction args generalizing a es args' with
  | nil =>
    cases hargs
    obtain rfl : args' = [] := by simpa using hnames
    exact .nil
  | cons x args ih =>
    cases hargs with
    | cons hvalue hrest =>
      cases args' with
      | nil => simp at hnames
      | cons x' args' =>
        simp only [List.map_cons, List.cons.injEq] at hnames
        simp only [List.zip_cons_cons, List.forall_mem_cons] at h
        rw [denoteArgs]
        exact .cons ⟨hnames.1, h.1 hvalue⟩ (ih hrest hnames.2 h.2)

/-! ## Complete calls -/

theorem getElem?_arguments (params : Signature) (args : List (Arg (Option Value))) (k : Nat) :
    (arguments params args)[k]? = params[k]?.map fun p => supplied params args p k := by
  simp [arguments, List.getElem?_zipIdx]
  cases params[k]? <;> rfl

theorem Supplies.supplied {Q : NodeId → Option Value → Prop} {literal : NodeId → Float → Prop}
    (h : Binding.Supplies literal params args values) (hparams : Signature.CopiesRequired params)
    (hargs : List.Forall₂ (Matches Q) args dargs)
    (hliteral : ∀ v x, literal v x → Q v (some (.const x))) {k : Nat}
    (hp : params[k]? = some p) (hv : values[k]? = some v) :
    Q v (SignalPatch.supplied params dargs p k) := by
  unfold SignalPatch.supplied
  cases h.supply k p v hp hv with
  | argument hgiven hvalue =>
    obtain ⟨y, hy, hQ⟩ := given_some hargs hgiven
    rw [hy]
    exact hvalue ▸ hQ
  | literal hgiven hfallback hx =>
    rw [given_none hargs hgiven, hfallback]
    exact hliteral v _ hx
  | copy hgiven hfallback hj =>
    rw [given_none hargs hgiven, hfallback]
    -- the parameter that is copied is required, so its value is an argument
    obtain ⟨q, hq, hreq⟩ := hparams _ (List.mem_of_getElem? hp) _ hfallback
    cases h.supply _ q v hq hj with
    | argument hgiven' hvalue =>
      obtain ⟨y, hy, hQ⟩ := given_some hargs hgiven'
      dsimp only
      rw [hy]
      exact hvalue ▸ hQ
    | literal _ hx _ => rw [hreq] at hx; cases hx
    | copy _ hj' _ => rw [hreq] at hj'; cases hj'

theorem MeansArgs.length_eq (h : MeansArgs R depth env args ts) : ts.length = args.length := by
  induction args generalizing ts with
  | nil =>
    cases h
    rfl
  | cons x args ih =>
    cases h with
    | cons _ hs => rw [List.length_cons, List.length_cons, ih hs]

theorem MeansArgs.getElem {k : Nat} : MeansArgs R depth env args ts → ts[k]? = some t →
    ∃ a, args[k]? = some a ∧ Means R depth env a.value (.signal t)
  | .nil, ht => by simp at ht
  | .cons h hs, ht => by
    cases k with
    | zero =>
      cases ht
      exact ⟨_, rfl, h⟩
    | succ k => exact hs.getElem ht

/-- A tree that the node stands for may mean only what the node means. -/
def Agrees (R : Resolved) (depth : Nat) (env : Env) (i : NodeId) (o : Option Value) : Prop :=
  ∀ v, Means R depth env i v → o = some v

theorem signals_eq_some {values : List (Option Value)} {ts : List Term}
    (h : values = ts.map fun t => some (.signal t)) : signals values = some ts := by
  unfold signals
  exact mapM_eq_some (by simp [h, Value.signal?])

theorem Supplies.signals {literal : NodeId → Float → Prop} {args' : List (Arg NodeId)}
    (h : Binding.Supplies literal params args (args'.map Arg.value))
    (hparams : Signature.CopiesRequired params)
    (hargs : List.Forall₂ (Matches (Agrees R depth env)) args dargs)
    (hliteral : ∀ v x, literal v x → Agrees R depth env v (some (.const x)))
    (hts : MeansArgs R depth env args' ts) :
    SignalPatch.signals (arguments params dargs) = some ts := by
  refine signals_eq_some (List.ext_getElem? fun k => ?_)
  have hlen : ts.length = params.length := by
    rw [hts.length_eq, ← h.length, List.length_map]
  rw [getElem?_arguments, List.getElem?_map]
  cases ht : ts[k]? with
  | none =>
    rw [List.getElem?_eq_none (by rw [← hlen]; exact List.getElem?_eq_none_iff.mp ht)]
    rfl
  | some t =>
    have hk : k < params.length := hlen ▸ (List.getElem?_eq_some_iff.mp ht).1
    obtain ⟨a, ha, hmeans⟩ := hts.getElem ht
    have hp : params[k]? = some params[k] := List.getElem?_eq_getElem hk
    have hagrees := Supplies.supplied h hparams hargs hliteral hp (v := a.value) (by simp [ha])
    rw [hp, Option.map_some, Option.map_some, hagrees _ hmeans]

/-! ## The functions of a program -/

theorem function?_eq_some (h : function? program name = some (params, body)) :
    ∃ span, .define name params body span ∈ program := by
  obtain ⟨s, hs, heq⟩ := List.exists_of_findSome?_eq_some h
  cases s with
  | define n ps e span =>
    dsimp only at heq
    split at heq
    · subst n
      cases heq
      exact ⟨span, hs⟩
    · cases heq
  | _ => cases heq

theorem function?_isSome (h : .define name params body span ∈ program) :
    (function? program name).isSome := by
  unfold function?
  rw [List.findSome?_isSome_iff]
  exact ⟨_, h, by simp⟩

theorem Elaborated.calls_definition (h : Elaborated P ids R) (hi : i ∈ ids)
    (hP : P[i]? = some ⟨.define name params body, span⟩) :
    R.Calls name (.function ⟨name, params.map formal, i⟩) := by
  have hnamed := h.globals.filed.named?_mem (h.functions i hi name params body span hP).1
  exact congrArg (Option.map Symbol.meaning) hnamed

theorem Elaborated.function (h : Elaborated P ids R) (hs : StoredList P 0 program ids)
    (hfun : function? program name = some (params, e)) :
    ∃ i ∈ ids, ∃ a body span, Stored P a e body ∧ P[i]? = some ⟨.define name params body, span⟩ ∧
      R.Calls name (.function ⟨name, params.map formal, i⟩) := by
  obtain ⟨span, hmem⟩ := function?_eq_some hfun
  obtain ⟨a, i, hi, hstored⟩ := hs.stored hmem
  cases hstored with
  | define hbody hP =>
    exact ⟨_, hi, a, _, span, hbody, hP, h.calls_definition hi hP⟩

theorem Elaborated.builtin (h : Elaborated P ids R) (hs : StoredList P 0 program ids)
    (hcalls : R.Calls callee (.builtin f)) :
    function? program callee = none ∧ Builtin.find? callee = some f := by
  constructor
  · cases hfun : function? program callee with
    | none => rfl
    | some q =>
      obtain ⟨i, _, _, _, _, _, _, hcalls'⟩ := h.function hs hfun
      cases hcalls.symm.trans hcalls'
  · obtain ⟨s, hnamed, hm⟩ := Option.map_eq_some_iff.mp hcalls
    obtain ⟨hmem, rfl⟩ := Scope.named?_eq_some hnamed
    cases h.globals.known s hmem with
    | builtin b hb hfind =>
      rw [hb] at hm
      cases hm
      exact hfind
    | function i name params body span _ _ hsym =>
      subst hsym
      cases hm

theorem Elaborated.callIn_builtin (h : Elaborated P ids R) (hs : StoredList P 0 program ids)
    (hcalls : R.Calls callee (.builtin f)) (declared : String → Option Float) (depth : Nat)
    (args : List (Arg (Option Value))) :
    callIn program declared depth callee args = f.denote declared (arguments f.params args) := by
  obtain ⟨hfun, hfind⟩ := h.builtin hs hcalls
  unfold callIn
  rw [hfun, hfind]
  rfl

theorem Elaborated.calls (h : Elaborated P ids R) (hs : StoredList P 0 program ids)
    (hcalls : R.Calls callee (.function f))
    (hdef : R.patch.nodes[f.definition]? = some ⟨.define f.name params body', span⟩) :
    f.params = params.map formal ∧ ∃ e a body, function? program callee = some (params, e) ∧
      Stored P a e body ∧
      Rewritten P R (.above R.symbols.globals (bodyScope params)) none body body' := by
  obtain ⟨s, hnamed, hm⟩ := Option.map_eq_some_iff.mp hcalls
  obtain ⟨hmem, rfl⟩ := Scope.named?_eq_some hnamed
  cases h.globals.known s hmem with
  | builtin b hb =>
    rw [hb] at hm
    cases hm
  | function i name ps body span' hi hP hsym =>
    subst hsym
    cases hm
    obtain ⟨-, -, body'', hR, hrew⟩ := h.functions i hi name ps body span' hP
    cases hdef.symm.trans hR
    refine ⟨rfl, ?_⟩
    -- the first definition of the name is this one, since calls refer to both
    obtain ⟨a, st, hst, -, hstored⟩ := hs.statement hi
    obtain ⟨e, rfl, -, hbody⟩ := hstored.of_define hP
    obtain ⟨⟨params', e'⟩, hfun⟩ := Option.isSome_iff_exists.mp (function?_isSome hst)
    obtain ⟨i', hi', a', body₁, span₁, hstored', hP', hcalls'⟩ := h.function hs hfun
    obtain ⟨-, rfl⟩ : params.map formal = params'.map formal ∧ i = i' := by
      simpa using hcalls.symm.trans hcalls'
    cases hP.symm.trans hP'
    exact ⟨e', a', body, hfun, hstored', hrew⟩

theorem Elaborated.functionCount_le (hE : Elaborated P ids R) (hs : StoredList P 0 program ids) :
    R.symbols.functionCount ≤ program.length := by
  have hnodup : (R.symbols.functions.map Symbol.name).Nodup := by
    refine List.pairwise_map.mpr ((hE.globals.filed.distinct.filter _).imp_of_mem ?_)
    intro s s' hs hs' hhash hname
    have hfiled := hE.globals.filed.hash
    rw [hfiled s (List.mem_of_mem_filter hs),
      hfiled s' (List.mem_of_mem_filter hs'), hname] at hhash
    exact hhash rfl
  have hsub : R.symbols.functions.map Symbol.name ⊆ program.filterMap Statement.defines? := by
    intro name hname
    obtain ⟨s, hs', rfl⟩ := List.mem_map.mp hname
    obtain ⟨hmem, f, hf⟩ := SymbolTable.mem_functions.mp hs'
    cases hE.globals.known s hmem with
    | builtin b hb => cases hf.symm.trans hb
    | function i name params body span hi hP hsym =>
      obtain ⟨a, st, hst, -, hstored⟩ := hs.statement hi
      obtain ⟨e, rfl, -, -⟩ := hstored.of_define hP
      exact List.mem_filterMap.mpr ⟨_, hst, by rw [hsym]; rfl⟩
  calc R.symbols.functionCount = (R.symbols.functions.map Symbol.name).length := by
        rw [List.length_map, SymbolTable.length_functions]
    _ ≤ (program.filterMap Statement.defines?).length :=
        (List.subperm_of_subset hnodup hsub).length_le
    _ ≤ program.length := List.length_filterMap_le _ _

/-! ## Trees -/

theorem Supplies.head {literal : NodeId → Float → Prop} {args' : List (Arg NodeId)}
    (h : Binding.Supplies literal params args ((x :: args').map Arg.value))
    (hparams : Signature.CopiesRequired params)
    (hargs : List.Forall₂ (Matches (Agrees R depth env)) args dargs)
    (hliteral : ∀ v x, literal v x → Agrees R depth env v (some (.const x)))
    (hx : Means R depth env x.value v) : ∃ vs, arguments params dargs = some v :: vs := by
  cases hp : params with
  | nil =>
    have hlen := h.length
    simp [hp] at hlen
  | cons p ps =>
    have hfirst : (arguments params dargs)[0]? = some (some v) := by
      have hagrees := Supplies.supplied h hparams hargs hliteral (k := 0) (p := p) (v := x.value)
        (by simp [hp]) rfl
      rw [getElem?_arguments, hp, List.getElem?_cons_zero, Option.map_some, ← hp, hagrees v hx]
    rw [← hp]
    cases hvs : arguments params dargs with
    | nil => simp [hvs] at hfirst
    | cons w vs =>
      rw [hvs] at hfirst
      exact ⟨vs, by simpa using hfirst⟩

theorem Pattern.ofChars_of_parse (h : Pattern.parse t s = .ok p) :
    Pattern.ofChars t.toList = .ok p := by
  dsimp only [Pattern.parse] at h
  cases hp : Pattern.ofChars t.toList with
  | error m =>
    rw [hp] at h
    cases h
  | ok q =>
    rw [hp] at h
    cases h
    rfl

theorem Builtin.denote_op (hk : f.kind = .op opcode) (hts : signals values = some ts) :
    Builtin.denote declared f values = some (.signal (.op opcode ts)) := by
  unfold Builtin.denote
  rw [hk]
  simp [hts]

theorem Builtin.denote_pattern (hk : f.kind = .pattern) (hp : Pattern.parse t s = .ok p) :
    Builtin.denote declared f (some (.text t) :: vs) = some (.signal p.term) := by
  unfold Builtin.denote
  rw [hk]
  simp [Pattern.ofChars_of_parse hp, Except.toOption]

theorem Builtin.denote_control (hk : f.kind = .control c) (hv : declared t = some v) :
    Builtin.denote declared f (some (.text t) :: vs) =
      some (.signal (.hostParam (Text.fingerprint t) (.const (Decimal.narrow v)))) := by
  unfold Builtin.denote
  rw [hk]
  simp [hv]

def NodeKind.literal? : NodeKind → Option Value
  | .number v => some (.const v)
  | .bool b => some (.const (if b then 1 else 0))
  | .text t => some (.text t)
  | _ => none

theorem Means.literal (h : Means R depth env i v) (hnode : R.patch.nodes[i]? = some node)
    (hlit : node.kind.isLiteral) : node.kind.literal? = some v := by
  cases h with
  | number h' | bool h' | text h' =>
    cases hnode.symm.trans h'
    rfl
  | _ h' =>
    cases hnode.symm.trans h'
    cases hlit

theorem Stored.denote_literal (h : Stored P a e i) (hnode : P[i]? = some node)
    (hlit : node.kind.isLiteral) : e.denote calls env inflow = node.kind.literal? := by
  cases h with
  | number h' | bool h' | text h' =>
    cases hnode.symm.trans h'
    rfl
  | ident h' | hole h' | binary _ _ h' | call _ h' | pipe _ _ h' =>
    cases hnode.symm.trans h'
    cases hlit

/-- Trees that stand for function bodies mean what their nodes mean. -/
def BodiesAgree (P : Arena) (R : Resolved) (program : List Statement) (depth : Nat) : Prop :=
  ∀ {params body body' e a env},
    Rewritten P R (.above R.symbols.globals (bodyScope params)) none body body' →
    Stored P a e body →
    Agrees R depth env body'
      (e.denote (callIn program (HostParam.defaultIn R.hostParams) depth) env none)

/-- A resolved call means what is called means, on what the arguments mean. -/
theorem CallResolved.agrees (hE : Elaborated P ids R) (hs : StoredList P 0 program ids)
    (hbodies : ∀ d, depth = d + 1 → BodiesAgree P R program d) (hvalues : ∀ s ∈ scope, s.isValue)
    (h : CallResolved R (.above R.symbols.globals scope) n span callee args i)
    (hargs : List.Forall₂ (Matches (Agrees R depth env)) args dargs) :
    Agrees R depth env i
      (callIn program (HostParam.defaultIn R.hostParams) depth callee dargs) := by
  obtain ⟨hm, hsig, hsup, hnode, -, -⟩ := h
  have hcalls := Resolved.Calls.of_lookup hvalues hm hsig
  have hparams := (hE.globals.signaturesOk hvalues).copies _ _ _ hm hsig
  have hliteral : ∀ v x, (n ≤ v ∧ R.patch.nodes[v]? = some ⟨.number x, span⟩) →
      Agrees R depth env v (some (.const x)) := by
    rintro v x ⟨-, hx⟩ w hw
    exact hw.literal hx rfl
  intro v hv
  cases hv with
  | number h' | bool h' | text h' | ident h' | binary h' => cases hnode.symm.trans h'
  | op h' hcalls' hk hts =>
    cases hnode.symm.trans h'
    cases hcalls.symm.trans hcalls'
    cases hsig
    rw [hE.callIn_builtin hs hcalls]
    exact Builtin.denote_op hk (Supplies.signals hsup hparams hargs hliteral hts)
  | pattern h' hcalls' hk ht hp =>
    cases hnode.symm.trans h'
    cases hcalls.symm.trans hcalls'
    cases hsig
    obtain ⟨vs, hvs⟩ := Supplies.head hsup hparams hargs hliteral (.text ht)
    rw [hE.callIn_builtin hs hcalls, hvs]
    exact Builtin.denote_pattern hk hp
  | control h' hcalls' hk ht hp =>
    cases hnode.symm.trans h'
    cases hcalls.symm.trans hcalls'
    cases hsig
    obtain ⟨vs, hvs⟩ := Supplies.head hsup hparams hargs hliteral (.text ht)
    have hdefault := congrArg (Option.map HostParam.default) hp
    have hname := List.find?_some hp
    rw [beq_iff_eq] at hname
    rw [hE.callIn_builtin hs hcalls, hvs, Builtin.denote_control hk hdefault,
      hE.hashed _ (List.mem_of_find?_eq_some hp), hname]
  | expand h' hcalls' hts hdef hbody =>
    cases hnode.symm.trans h'
    cases hcalls.symm.trans hcalls'
    cases hsig
    obtain ⟨hformal, e, a, body, hfun, hstored, hrew⟩ := hE.calls hs hcalls hdef
    have hts' := Supplies.signals hsup hparams hargs hliteral hts
    rw [hformal] at hts'
    -- the body is entered with one level less, in a scope that has the parameters only
    unfold callIn
    rw [hfun]
    dsimp only
    rw [hts', Option.bind_some]
    exact hbodies _ rfl hrew hstored _ hbody

theorem Rewritten.agrees_step (hE : Elaborated P ids R) (hs : StoredList P 0 program ids)
    (hbodies : ∀ d, depth = d + 1 → BodiesAgree P R program d) (hvalues : ∀ s ∈ scope, s.isValue)
    (h : Rewritten P R (.above R.symbols.globals scope) source i j) (hstored : Stored P a e i)
    (hhole : ∀ k, source = some k → Agrees R depth env k inflow) :
    Agrees R depth env j
      (e.denote (callIn program (HostParam.defaultIn R.hostParams) depth) env inflow) := by
  -- along the rewriting, since a hole has no tree of its own that the node could be compared with
  induction h generalizing a e inflow with
  | literal hP hlit hR =>
    intro v hv
    rw [hstored.denote_literal hP hlit]
    exact hv.literal hR hlit
  | ident hP hR hlookup hvalue =>
    obtain rfl := hstored.of_ident hP
    intro v hv
    cases hv with
    | ident h' hx =>
      cases hR.symm.trans h'
      exact hx
    | _ h' => cases hR.symm.trans h'
  | hole hP =>
    obtain ⟨rfl, -⟩ := hstored.of_hole hP
    exact hhole _ rfl
  | binary hP hl hr hR ihl ihr =>
    obtain ⟨lhs, rhs, rfl, -, hlhs, hrhs⟩ := hstored.of_binary hP
    intro v hv
    cases hv with
    | binary h' ha hb =>
      cases hR.symm.trans h'
      rw [Expr.denote, ihl hlhs hhole _ ha, ihr hrhs hhole _ hb]
      rfl
    | _ h' => cases hR.symm.trans h'
  | pipe hP hsource htarget ihs iht =>
    obtain ⟨src, target, rfl, -, hsrc, htgt⟩ := hstored.of_pipe hP
    rw [Expr.denote]
    refine iht htgt fun k hk => ?_
    cases hk
    exact ihs hsrc hhole
  | call hP hnames hargs hcall ih =>
    obtain ⟨es, rfl, hes⟩ := hstored.of_call hP
    refine hcall.agrees hE hs hbodies hvalues ?_
    exact denoteArgs_matches hes hnames fun q hq {_ _} hq' => ih q hq hq' hhole

theorem bodiesAgree (hE : Elaborated P ids R) (hs : StoredList P 0 program ids) :
    (depth : Nat) → BodiesAgree P R program depth
  | 0 => fun hrew hstored =>
    hrew.agrees_step hE hs (fun _ h => by cases h) bodyScope_isValue hstored (fun _ h => by cases h)
  | depth + 1 => fun hrew hstored =>
    hrew.agrees_step hE hs (fun _ h => by cases h; exact bodiesAgree hE hs depth) bodyScope_isValue
      hstored (fun _ h => by cases h)

/-- A statement means what the node means that stands for it. -/
theorem Rewritten.denotes (hE : Elaborated P ids R) (hs : StoredList P 0 program ids)
    (hvalues : ∀ s ∈ scope, s.isValue)
    (h : Rewritten P R (.above R.symbols.globals scope) none i j) (hstored : Stored P a e i)
    (hv : Means R depth env j v) :
    e.denote (callIn program (HostParam.defaultIn R.hostParams) depth) env none = some v :=
  h.agrees_step hE hs (fun d _ => bodiesAgree hE hs d) hvalues hstored
    (fun _ hk => by cases hk) v hv

end SignalPatch
