import Mathlib.Data.List.Forall2
import Mathlib.Logic.Relation
import SignalPatch.Proofs.ResolvedPatch

/-!
# The normal form of resolved patches

Below the statements and function bodies of a resolved patch there are only literals, names of
values in scope, operators and complete calls (`Normal`). Nodes that were read come after those
that they refer to, and the literals made for missing arguments refer to nothing, so no path leads
back to where it started.
-/

namespace SignalPatch

open Resolving (SignaturesOk formal)

/-! ## Normal trees -/

/-- Falls along every reference between nodes: the first `n` of them refer to earlier ones or to
literals behind them. -/
def rank (n i : Nat) : Nat := if i < n then i + 1 else 0

theorem rank_lt (hji : j < i) (hi : i < n) : rank n j < rank n i := by
  simp only [rank, hi, Nat.lt_trans hji hi, ↓reduceIte]
  omega

theorem rank_fresh (hj : n ≤ j) (hi : i < n) : rank n j < rank n i := by
  simp [rank, hi, Nat.not_lt.mpr hj]

/-- The node is the root of a tree in normal form. -/
inductive Normal (R : Resolved) (T : SymbolTable) (n : Nat) : NodeId → Prop
  | literal : R.patch.nodes[i]? = some node → node.kind.isLiteral → Normal R T n i
  | ident : R.patch.nodes[i]? = some ⟨.ident x, s⟩ → T.lookup x = some symbol → symbol.isValue →
      Normal R T n i
  | binary : R.patch.nodes[i]? = some ⟨.binary op lhs rhs, s⟩ →
      Normal R T n lhs → Normal R T n rhs →
      rank n lhs < rank n i → rank n rhs < rank n i → Normal R T n i
  | call : R.patch.nodes[i]? = some ⟨.call callee args, s⟩ →
      (T.lookup callee).map Symbol.meaning = some m → m.signature? = some params →
      args.length = params.length → (∀ a ∈ args, a.name = none) →
      m.Checked R (args.map Arg.value) →
      (∀ a ∈ args, Normal R T n a.value) → (∀ a ∈ args, rank n a.value < rank n i) → Normal R T n i

theorem exists_mem_zip {xs : List α} {ys : List β} (hlen : ys.length = xs.length) (hy : y ∈ ys) :
    ∃ x ∈ xs, (x, y) ∈ xs.zip ys := by
  obtain ⟨k, hk, rfl⟩ := List.getElem_of_mem hy
  have hk' : k < xs.length := hlen ▸ hk
  have hlt : k < (xs.zip ys).length := by
    rw [List.length_zip]
    omega
  exact ⟨xs[k], List.getElem_mem hk', List.mem_iff_getElem.mpr ⟨k, hlt, List.getElem_zip⟩⟩

/-- What stands for a stored tree is in normal form, and stands no later than the tree. -/
theorem Rewritten.normal {P : Arena} {hole : Option NodeId} {i j : NodeId} (hT : SignaturesOk T)
    (h : Rewritten P R T hole i j) :
    ∀ {a : Nat} {e : Expr}, Stored P a e i →
      (∀ k : Nat, hole = some k → Normal R T P.size k ∧ k < a) → Normal R T P.size j ∧ j ≤ i := by
  induction h with
  | literal _ hl hR => exact fun _ _ => ⟨.literal hR hl, Nat.le_refl _⟩
  | ident _ hR hlook hval => exact fun _ _ => ⟨.ident hR hlook hval, Nat.le_refl _⟩
  | hole hP =>
    intro a e hs hhole
    obtain ⟨hn, hlt⟩ := hhole _ rfl
    obtain ⟨-, rfl⟩ := hs.of_hole hP
    exact ⟨hn, Nat.le_of_lt hlt⟩
  | binary hP _ _ hR ihl ihr =>
    intro a e hs hhole
    obtain ⟨l, r, -, rfl, hl, hr⟩ := hs.of_binary hP
    have hlt := hs.lt_size
    have hle := hr.le
    have hal := hl.le
    obtain ⟨hnl, hll⟩ := ihl hl hhole
    obtain ⟨hnr, hrr⟩ := ihr hr fun k hk => ⟨(hhole k hk).1, by have := (hhole k hk).2; omega⟩
    refine ⟨.binary hR hnl hnr (rank_lt ?_ hlt) (rank_lt ?_ hlt), Nat.le_refl _⟩
    · exact Nat.lt_succ_of_le (Nat.le_trans hll (Nat.le_trans (Nat.le_succ _) hle))
    · exact Nat.lt_succ_of_le hrr
  | pipe hP _ _ ihs iht =>
    intro a e hs hhole
    obtain ⟨l, r, -, rfl, hl, hr⟩ := hs.of_pipe hP
    obtain ⟨hns, hss⟩ := ihs hl hhole
    obtain ⟨hnt, htt⟩ := iht hr fun k hk => by
      cases hk
      exact ⟨hns, Nat.lt_succ_of_le hss⟩
    exact ⟨hnt, Nat.le_succ_of_le htt⟩
  | @call i hole s callee args' args hP hnames _ hcall ih =>
    intro a e hs hhole
    have hi := hs.lt_size
    obtain ⟨es, -, hargs⟩ := hs.of_call hP
    -- the arguments that were given, resolved
    have hgiven : ∀ x ∈ args', Normal R T P.size x.value ∧ x.value < i := by
      intro x hx
      obtain ⟨y, hy, hzip⟩ := exists_mem_zip (by simpa using congrArg List.length hnames) hx
      obtain ⟨start, e', hstart, he', hlt⟩ := hargs.value hy
      obtain ⟨hn, hle⟩ := ih _ hzip he' fun j hj => ⟨(hhole j hj).1, by
        have := (hhole j hj).2
        omega⟩
      exact ⟨hn, Nat.lt_of_le_of_lt hle hlt⟩
    cases hcall with
    | @intro m params args'' hm hsig hsup hR hnone hchecked =>
      have hvalue : ∀ x ∈ args'', Normal R T P.size x.value ∧
          rank P.size x.value < rank P.size i := by
        intro x hx
        rcases hsup.origin (hT.copies _ _ _ hm hsig) (List.mem_map_of_mem hx)
          with ⟨y, hy, hxy⟩ | ⟨v, hv⟩
        · rw [hxy]
          exact ⟨(hgiven y hy).1, rank_lt (hgiven y hy).2 hi⟩
        · exact ⟨.literal hv.2 rfl, rank_fresh hv.1 hi⟩
      refine ⟨.call hR hm hsig ?_ hnone hchecked (fun x hx => (hvalue x hx).1)
        (fun x hx => (hvalue x hx).2), Nat.le_refl _⟩
      simpa using hsup.length

/-! ## Normal patches -/

inductive StatementsNormal (R : Resolved) (n : Nat) : Scope → List NodeId → Prop
  | nil : StatementsNormal R n vars []
  | define : R.patch.nodes[i]? = some ⟨.define name params body, span⟩ →
      StatementsNormal R n vars is → StatementsNormal R n vars (i :: is)
  | assign : R.patch.nodes[i]? = some ⟨.assign x v, span⟩ →
      Normal R (.above R.symbols.globals vars) n v → vars.find? (Text.fingerprint x) = none →
      StatementsNormal R n (variableSymbol x span :: vars) is → StatementsNormal R n vars (i :: is)
  | expr : Normal R (.above R.symbols.globals vars) n i → StatementsNormal R n vars is →
      StatementsNormal R n vars (i :: is)

inductive NormalGlobal (R : Resolved) (n : Nat) (s : Symbol) : Prop
  | builtin (b : Builtin) : s.meaning = .builtin b → Builtin.find? s.name = some b →
      NormalGlobal R n s
  | function (i : NodeId) (params : List Parameter) (body : NodeId) (span : Span) :
      i ∈ R.patch.statements → R.patch.nodes[i]? = some ⟨.define s.name params body, span⟩ →
      s.meaning = .function ⟨s.name, params.map formal, i⟩ → (params.map Parameter.name).Nodup →
      Normal R (.above R.symbols.globals (bodyScope params)) n body → NormalGlobal R n s

/-- A patch whose statements and functions are in normal form. -/
structure NormalPatch (R : Resolved) (n : Nat) : Prop where
  symbols : R.symbols = ⟨[], R.symbols.globals⟩
  size : n ≤ R.patch.nodes.size
  globals : ∀ s ∈ R.symbols.globals, NormalGlobal R n s
  bodies : ∀ i ∈ R.patch.statements, ∀ name params body span,
    R.patch.nodes[i]? = some ⟨.define name params body, span⟩ →
    Normal R (.above R.symbols.globals (bodyScope params)) n body
  statements : StatementsNormal R n [] R.patch.statements

theorem NormalPatch.not_value (hR : NormalPatch R n) (hs : s ∈ R.symbols.globals) :
    s.isValue = false := by
  cases hR.globals s hs with
  | builtin b hb => simp [Symbol.isValue, hb]
  | function i params body span _ _ hf => simp [Symbol.isValue, hf]

theorem NormalPatch.mem_scope (hR : NormalPatch R n)
    (hlook : (SymbolTable.above R.symbols.globals scope).lookup x = some s) (hvalue : s.isValue) :
    s.name = x ∧ s ∈ scope := by
  obtain ⟨hname, hs | hs⟩ := SymbolTable.mem_of_lookup_above hlook
  · exact ⟨hname, hs⟩
  · rw [hR.not_value hs] at hvalue
    cases hvalue

theorem NodeKind.isStatement_of_isLiteral {kind : NodeKind} (h : kind.isLiteral) :
    kind.isStatement = false := by
  cases kind <;> simp_all [isLiteral, isStatement]

theorem Normal.root (h : Normal R T n i) :
    ∃ node, R.patch.nodes[i]? = some node ∧ node.kind.isStatement = false := by
  cases h with
  | literal hR hl => exact ⟨_, hR, NodeKind.isStatement_of_isLiteral hl⟩
  | ident hR | binary hR | call hR => exact ⟨_, hR, rfl⟩

theorem Rewritten.read {source : Option NodeId} (h : Rewritten P R T source i j) :
    ∃ node, P[i]? = some node ∧ node.kind.isStatement = false := by
  cases h with
  | literal hP hl => exact ⟨_, hP, NodeKind.isStatement_of_isLiteral hl⟩
  | ident hP | hole hP | binary hP | pipe hP | call hP => exact ⟨_, hP, rfl⟩

theorem StatementsResolved.normal (h : StatementsResolved P R vars ids ids')
    (hG : Globals P all R.symbols.globals) (hvalues : ∀ s ∈ vars, s.isValue) :
    ∀ {a ss}, StoredList P a ss ids → StatementsNormal R P.size vars ids' := by
  induction h with
  | nil => exact fun _ => .nil
  | define _ hR _ ih =>
    rintro a ss (_ | ⟨_, _, hrest⟩)
    exact .define hR (ih hvalues hrest)
  | assign hP hR hv hfree _ ih =>
    rintro a ss (_ | ⟨_, hs, hrest⟩)
    obtain ⟨value, -, -, hs⟩ := hs.of_assign hP
    refine .assign hR (hv.normal (hG.signaturesOk hvalues) hs (by simp)).1 hfree (ih ?_ hrest)
    intro s hs
    rcases List.mem_cons.mp hs with rfl | hs
    · rfl
    · exact hvalues s hs
  | expr hv _ ih =>
    rintro a ss (_ | ⟨_, hs, hrest⟩)
    obtain ⟨node, hP, hkind⟩ := hv.read
    obtain ⟨e, -, hs⟩ := hs.of_expr hP hkind
    exact .expr (hv.normal (hG.signaturesOk hvalues) hs (by simp)).1 (ih hvalues hrest)

theorem Rewritten.root {source : Option NodeId} (h : Rewritten P R T source i j)
    (hsource : ∀ k, source = some k →
      ∃ node, R.patch.nodes[k]? = some node ∧ node.kind.isStatement = false) :
    ∃ node, R.patch.nodes[j]? = some node ∧ node.kind.isStatement = false := by
  induction h with
  | literal _ hl hR => exact ⟨_, hR, NodeKind.isStatement_of_isLiteral hl⟩
  | ident _ hR | binary _ _ _ hR => exact ⟨_, hR, rfl⟩
  | hole => exact hsource _ rfl
  | pipe _ _ _ ihs iht =>
    refine iht fun k hk => ?_
    cases hk
    exact ihs hsource
  | call _ _ _ hcall =>
    cases hcall with
    | intro _ _ _ hR => exact ⟨_, hR, rfl⟩

theorem StatementsResolved.mem_statements (h : StatementsResolved P R vars ids ids') (hi : i ∈ ids)
    (hP : P[i]? = some ⟨.define name params body, span⟩) : i ∈ ids' := by
  induction h with
  | nil => simp at hi
  | define _ _ _ ih | assign _ _ _ _ _ ih =>
    rcases List.mem_cons.mp hi with rfl | hi
    · exact List.mem_cons_self
    · exact List.mem_cons_of_mem _ (ih hi)
  | expr hv _ ih =>
    rcases List.mem_cons.mp hi with rfl | hi
    · obtain ⟨node, hnode, hkind⟩ := hv.read
      cases hP.symm.trans hnode
      cases hkind
    · exact List.mem_cons_of_mem _ (ih hi)

theorem StatementsResolved.mem_of_define (h : StatementsResolved P R vars ids ids') (hi : i ∈ ids')
    (hR : R.patch.nodes[i]? = some ⟨.define name params body, span⟩) :
    i ∈ ids ∧ ∃ body', P[i]? = some ⟨.define name params body', span⟩ := by
  induction h with
  | nil => simp at hi
  | define hP hR' _ ih =>
    rcases List.mem_cons.mp hi with rfl | hi
    · cases hR.symm.trans hR'
      exact ⟨List.mem_cons_self, _, hP⟩
    · exact (ih hi).imp_left (List.mem_cons_of_mem _)
  | assign _ hR' _ _ _ ih =>
    rcases List.mem_cons.mp hi with rfl | hi
    · cases hR.symm.trans hR'
    · exact (ih hi).imp_left (List.mem_cons_of_mem _)
  | expr hv _ ih =>
    rcases List.mem_cons.mp hi with rfl | hi
    · obtain ⟨node, hnode, hkind⟩ := hv.root (by simp)
      cases hR.symm.trans hnode
      cases hkind
    · exact (ih hi).imp_left (List.mem_cons_of_mem _)

theorem Elaborated.normal (h : Elaborated P ids R) (hs : StoredList P 0 ss ids) :
    NormalPatch R P.size := by
  -- the body of a function that was read
  have hbody : ∀ i ∈ ids, ∀ name params body body' span,
      P[i]? = some ⟨.define name params body, span⟩ →
      R.patch.nodes[i]? = some ⟨.define name params body', span⟩ →
      Normal R (.above R.symbols.globals (bodyScope params)) P.size body' := by
    intro i hi name params body body' span hP hR
    obtain ⟨-, -, body'', hR', hrew⟩ := h.functions i hi name params body span hP
    cases hR.symm.trans hR'
    obtain ⟨b, s, -, -, hstored⟩ := hs.statement hi
    obtain ⟨e, -, -, he⟩ := hstored.of_define hP
    exact (hrew.normal (h.globals.signaturesOk bodyScope_isValue) he (by simp)).1
  refine ⟨h.symbols, h.size, ?_, ?_,
    h.statements.normal h.globals (by simp) hs⟩
  · intro s hmem
    cases h.globals.known s hmem with
    | builtin b hb hfind => exact .builtin b hb hfind
    | function i name params body span hi hP hsym =>
      obtain ⟨-, hnodup, body', hR, -⟩ := h.functions i hi name params body span hP
      subst hsym
      exact .function i params body' span (h.statements.mem_statements hi hP) hR rfl hnodup
        (hbody i hi name params body body' span hP hR)
  · intro i hi name params body span hR
    obtain ⟨hi', body', hP⟩ := h.statements.mem_of_define hi hR
    exact hbody i hi' name params body' body span hP hR

/-! ## Reachable nodes -/

def NodeKind.children : NodeKind → List NodeId
  | .binary _ lhs rhs => [lhs, rhs]
  | .call _ args => args.map Arg.value
  | .pipe source target => [source, target]
  | .assign _ value => [value]
  | .define _ _ body => [body]
  | .number _ | .bool _ | .text _ | .ident _ | .hole => []

def Arena.Refers (nodes : Arena) (i j : NodeId) : Prop := j ∈ (nodes.kind i).children

theorem NodeKind.children_of_isLiteral {kind : NodeKind} (h : kind.isLiteral) :
    kind.children = [] := by
  cases kind <;> first | rfl | cases h

theorem Arena.lt_size_of_kind {nodes : Arena} (h : nodes.kind i ≠ .hole) : i < nodes.size := by
  refine Nat.lt_of_not_le fun hi => h ?_
  simp only [Arena.kind, Arena.node, Array.getD_eq_getD_getElem?, Array.getElem?_eq_none hi]
  rfl

def assignedNames (nodes : Arena) (ids : List NodeId) : List String :=
  ids.filterMap fun i =>
    match nodes.kind i with
    | .assign x _ => some x
    | _ => none

/-- `Root R i names`: the tree at `i` is the body of a function with the parameters `names`, or
belongs to a statement after those that assign the variables `names`. -/
inductive Root (R : Resolved) : NodeId → List String → Prop
  | body : i ∈ R.patch.statements → R.patch.nodes[i]? = some ⟨.define name params body, s⟩ →
      Root R body (params.map Parameter.name)
  | value : R.patch.statements = before ++ i :: after →
      R.patch.nodes[i]? = some ⟨.assign x value, s⟩ →
      Root R value (assignedNames R.patch.nodes before)
  | expr : R.patch.statements = before ++ i :: after →
      (R.patch.nodes.kind i).isStatement = false →
      Root R i (assignedNames R.patch.nodes before)

/-- A name can be called with a number of arguments: it is the name of a built-in function or its
alias, or of a function of the patch. -/
inductive Callable (R : Resolved) (callee : String) : Nat → Prop
  | builtin : Builtin.find? callee = some b → Callable R callee b.params.length
  | function : i ∈ R.patch.statements →
      R.patch.nodes[i]? = some ⟨.define callee params body, s⟩ → Callable R callee params.length

inductive NodeKind.Normal (R : Resolved) (names : List String) : NodeKind → Prop
  | number : Normal R names (.number v)
  | bool : Normal R names (.bool b)
  | text : Normal R names (.text t)
  | ident : x ∈ names → Normal R names (.ident x)
  | binary : Normal R names (.binary op lhs rhs)
  | call : Callable R callee args.length → (∀ a ∈ args, a.name = none) →
      Normal R names (.call callee args)

theorem Normal.child (h : Normal R T n i) (hj : R.patch.nodes.Refers i j) :
    Normal R T n j ∧ rank n j < rank n i := by
  unfold Arena.Refers at hj
  cases h with
  | @literal _ node hR hl =>
    rw [Arena.kind_eq hR] at hj
    cases hk : node.kind <;> simp_all [NodeKind.isLiteral, NodeKind.children]
  | ident hR =>
    rw [Arena.kind_eq hR] at hj
    simp [NodeKind.children] at hj
  | binary hR hl hr hli hri =>
    rw [Arena.kind_eq hR] at hj
    simp only [NodeKind.children, List.mem_cons, List.not_mem_nil, or_false] at hj
    rcases hj with rfl | rfl
    · exact ⟨hl, hli⟩
    · exact ⟨hr, hri⟩
  | call hR _ _ _ _ _ hargs hrank =>
    rw [Arena.kind_eq hR] at hj
    obtain ⟨a, ha, rfl⟩ := List.mem_map.mp hj
    exact ⟨hargs a ha, hrank a ha⟩

theorem Normal.operands {R : Resolved} {i : NodeId} (h : Normal R T n i)
    (hnode : R.patch.nodes[i]? = some ⟨.binary op lhs rhs, s⟩) :
    (Normal R T n lhs ∧ rank n lhs ≤ rank n i) ∧ Normal R T n rhs ∧ rank n rhs ≤ rank n i := by
  have hchild : ∀ j ∈ [lhs, rhs], R.patch.nodes.Refers i j := by
    unfold Arena.Refers
    rw [Arena.kind_eq hnode]
    exact fun _ hj => hj
  obtain ⟨hl, hlt⟩ := h.child (hchild lhs (by simp))
  obtain ⟨hr, hrt⟩ := h.child (hchild rhs (by simp))
  exact ⟨⟨hl, Nat.le_of_lt hlt⟩, hr, Nat.le_of_lt hrt⟩

theorem Normal.arguments {R : Resolved} {i : NodeId} (h : Normal R T n i)
    (hnode : R.patch.nodes[i]? = some ⟨.call callee args, s⟩) :
    ∀ x ∈ args, Normal R T n x.value ∧ rank n x.value ≤ rank n i := by
  intro x hx
  obtain ⟨hnormal, hlt⟩ := h.child (j := x.value) (by
    rw [Arena.Refers, Arena.kind_eq hnode]
    exact List.mem_map_of_mem hx)
  exact ⟨hnormal, Nat.le_of_lt hlt⟩

theorem Normal.reachable (h : Normal R T n i)
    (hij : Relation.ReflTransGen R.patch.nodes.Refers i j) : Normal R T n j := by
  induction hij with
  | refl => exact h
  | tail _ hstep ih => exact (ih.child hstep).1

theorem Normal.rank_lt (h : Normal R T n i) (hij : Relation.TransGen R.patch.nodes.Refers i j) :
    rank n j < rank n i := by
  induction hij with
  | single hstep => exact (h.child hstep).2
  | tail hpath hstep ih =>
    exact Nat.lt_trans ((h.reachable hpath.to_reflTransGen).child hstep).2 ih

theorem Normal.acyclic (h : Normal R T n i) : ¬ Relation.TransGen R.patch.nodes.Refers i i :=
  fun hii => Nat.lt_irrefl _ (h.rank_lt hii)

theorem Normal.kind (h : Normal R (.above R.symbols.globals scope) n i) (hR : NormalPatch R n)
    (hscope : ∀ s ∈ scope, s.isValue ∧ s.name ∈ names) :
    ∃ node, R.patch.nodes[i]? = some node ∧ node.kind.Normal R names := by
  cases h with
  | @literal _ node hnode hl =>
    refine ⟨node, hnode, ?_⟩
    cases hk : node.kind with
    | number => exact .number
    | bool => exact .bool
    | text => exact .text
    | _ => simp [hk, NodeKind.isLiteral] at hl
  | ident hnode hlook hval =>
    refine ⟨_, hnode, .ident ?_⟩
    obtain ⟨rfl, hs⟩ := hR.mem_scope hlook hval
    exact (hscope _ hs).2
  | binary hnode => exact ⟨_, hnode, .binary⟩
  | call hnode hm hsig hlen hnone =>
    refine ⟨_, hnode, .call ?_ hnone⟩
    obtain ⟨symbol, hlook, rfl⟩ := Option.map_eq_some_iff.mp hm
    -- A symbol of the scope is a value and has no signature, so the callee is a global one.
    obtain ⟨rfl, hs | hs⟩ := SymbolTable.mem_of_lookup_above hlook
    · have := (hscope _ hs).1
      unfold Symbol.isValue at this
      cases hmeaning : symbol.meaning <;> simp [hmeaning, Meaning.signature?] at this hsig
    · cases hR.globals _ hs with
      | builtin b hb hfind =>
        rw [hb] at hsig
        cases hsig
        exact hlen ▸ .builtin hfind
      | function j params body span hj hnode' hmeaning =>
        rw [hmeaning] at hsig
        cases hsig
        rw [List.length_map] at hlen
        exact hlen ▸ .function hj hnode'

theorem StatementsNormal.split (h : StatementsNormal R n vars (before ++ rest)) :
    ∃ vars', StatementsNormal R n vars' rest ∧
      ∀ s ∈ vars', s ∈ vars ∨ (s.isValue ∧ s.name ∈ assignedNames R.patch.nodes before) := by
  induction before generalizing vars with
  | nil => exact ⟨vars, h, fun s hs => .inl hs⟩
  | cons i before ih =>
    have hlater : ∀ name, name ∈ assignedNames R.patch.nodes before →
        name ∈ assignedNames R.patch.nodes (i :: before) := by
      intro name hname
      unfold assignedNames at hname ⊢
      rw [List.filterMap_cons]
      split
      · exact hname
      · exact List.mem_cons_of_mem _ hname
    cases h with
    | define _ hrest | expr _ hrest =>
      obtain ⟨vars', hvars', hs⟩ := ih hrest
      exact ⟨vars', hvars', fun s hmem => (hs s hmem).imp_right (.imp_right (hlater s.name))⟩
    | @assign _ x v span _ _ hnode _ _ hrest =>
      -- What is new to the rest is either this variable or one of a later assignment.
      obtain ⟨vars', hvars', hs⟩ := ih hrest
      refine ⟨vars', hvars', fun s hmem => ?_⟩
      rcases hs s hmem with hmem | hlate
      · rcases List.mem_cons.mp hmem with rfl | hmem
        · refine .inr ⟨rfl, ?_⟩
          simp [assignedNames, Arena.kind_eq hnode, variableSymbol, Symbol.of]
        · exact .inl hmem
      · exact .inr (hlate.imp_right (hlater s.name))

theorem Root.normal (h : Root R root names) (hR : NormalPatch R n) :
    ∃ scope, Normal R (.above R.symbols.globals scope) n root ∧
      ∀ s ∈ scope, s.isValue ∧ s.name ∈ names := by
  cases h with
  | @body i name params body s hi hnode =>
    refine ⟨bodyScope params, hR.bodies i hi name params root s hnode, fun s hs => ?_⟩
    obtain ⟨p, hp, rfl⟩ := mem_bodyScope hs
    exact ⟨rfl, List.mem_map_of_mem hp⟩
  | value hsplit hnode =>
    obtain ⟨vars, hvars, hnames⟩ := (hsplit ▸ hR.statements).split
    refine ⟨vars, ?_, fun s hs => (hnames s hs).resolve_left (by simp)⟩
    cases hvars with
    | define hnode' => cases hnode.symm.trans hnode'
    | assign hnode' hv =>
      cases hnode.symm.trans hnode'
      exact hv
    | expr hv =>
      obtain ⟨node, hnode', hkind⟩ := hv.root
      cases hnode.symm.trans hnode'
      cases hkind
  | expr hsplit hkind =>
    obtain ⟨vars, hvars, hnames⟩ := (hsplit ▸ hR.statements).split
    refine ⟨vars, ?_, fun s hs => (hnames s hs).resolve_left (by simp)⟩
    cases hvars with
    | define hnode | assign hnode =>
      rw [Arena.kind_eq hnode] at hkind
      cases hkind
    | expr hv => exact hv

/-! ## The theorem -/

/-- The second node stands for the statement at the first: the trees below them correspond, with
each hole stood for by the node that flows into its pipe. -/
inductive StatementRewritten (P : Arena) (R : Resolved) : NodeId → NodeId → Prop
  | define : P[i]? = some ⟨.define name params body, s⟩ →
      R.patch.nodes[i]? = some ⟨.define name params body', s⟩ → Rewritten P R T none body body' →
      StatementRewritten P R i i
  | assign : P[i]? = some ⟨.assign x value, s⟩ →
      R.patch.nodes[i]? = some ⟨.assign x value', s⟩ → Rewritten P R T none value value' →
      StatementRewritten P R i i
  | expr : Rewritten P R T none i i' → StatementRewritten P R i i'

theorem Elaborated.rewritten (h : Elaborated P ids R) :
    List.Forall₂ (StatementRewritten P R) ids R.patch.statements := by
  have hall : ∀ {vars todo todo'}, StatementsResolved P R vars todo todo' → (∀ i ∈ todo, i ∈ ids) →
      List.Forall₂ (StatementRewritten P R) todo todo' := by
    intro vars todo todo' hs
    induction hs with
    | nil => exact fun _ => .nil
    | define hP hR _ ih =>
      intro hids
      obtain ⟨-, -, body', hR', hrew⟩ := h.functions _ (hids _ List.mem_cons_self) _ _ _ _ hP
      exact .cons (.define hP hR' hrew) (ih fun j hj => hids j (List.mem_cons_of_mem _ hj))
    | assign hP hR hrew _ _ ih =>
      intro hids
      exact .cons (.assign hP hR hrew) (ih fun j hj => hids j (List.mem_cons_of_mem _ hj))
    | expr hrew _ ih =>
      intro hids
      exact .cons (.expr hrew) (ih fun j hj => hids j (List.mem_cons_of_mem _ hj))
  exact hall h.statements fun _ hi => hi

theorem parse_resolve_elaborated (tokens : List Token) (h : (parse tokens).patch.resolve.success) :
    Elaborated (parse tokens).patch.nodes (parse tokens).patch.statements
      (parse tokens).patch.resolve :=
  resolve_elaborated (parse_stored tokens) h

theorem parse_resolve_normal (tokens : List Token) (h : (parse tokens).patch.resolve.success) :
    NormalPatch (parse tokens).patch.resolve (parse tokens).patch.nodes.size :=
  (parse_resolve_elaborated tokens h).normal (parse_stored tokens)

/-- A graph of literals, values in scope, operators and complete calls, in which no path leads back
to its start and every hole has become the node that flows into its pipe. -/
structure NormalForm (p : Patch) (R : Resolved) : Prop where
  nodes : ∀ root names, Root R root names →
    ∀ i, Relation.ReflTransGen R.patch.nodes.Refers root i →
      ∃ node, R.patch.nodes[i]? = some node ∧ node.kind.Normal R names
  acyclic : ∀ root names, Root R root names →
    ∀ i, Relation.ReflTransGen R.patch.nodes.Refers root i →
      ¬ Relation.TransGen R.patch.nodes.Refers i i
  statements : List.Forall₂ (StatementRewritten p.nodes R) p.statements R.patch.statements

theorem resolve_normalForm (tokens : List Token) (h : (parse tokens).patch.resolve.success) :
    NormalForm (parse tokens).patch (parse tokens).patch.resolve := by
  have hR := parse_resolve_normal tokens h
  refine ⟨fun root names hroot i hi => ?_, fun root names hroot i hi => ?_,
    (parse_resolve_elaborated tokens h).rewritten⟩
  · obtain ⟨scope, hnormal, hscope⟩ := hroot.normal hR
    exact (hnormal.reachable hi).kind hR hscope
  · obtain ⟨scope, hnormal, -⟩ := hroot.normal hR
    exact (hnormal.reachable hi).acyclic

/-- The tokens of `x = saw(110) |> lp(%, 200)` and of `out(x)` on the next line. -/
def filteredSaw : List Token :=
  ([.ident "x", .equals, .ident "saw", .openParen, .number 110, .closeParen, .pipe, .ident "lp",
    .openParen, .hole, .comma, .number 200, .closeParen, .newline, .ident "out",
    .openParen, .ident "x",
    .closeParen] : List TokenKind).map (⟨·, .origin⟩)

theorem resolve_filteredSaw : (parse filteredSaw).patch.resolve.success := by
  decide +kernel

theorem filteredSaw_normalForm :
    (parse filteredSaw).patch.resolve.success ∧
      NormalForm (parse filteredSaw).patch (parse filteredSaw).patch.resolve :=
  ⟨resolve_filteredSaw, resolve_normalForm filteredSaw resolve_filteredSaw⟩

end SignalPatch
