import Mathlib.Algebra.BigOperators.WithTop
import SignalPatch.Proofs.SignalGraph
import SignalPatch.Proofs.TreeMeaning
import SignalPatch.Proofs.VariedCheck

/-!
# The call graph of a program

`callGraph` says who calls whom in a program as it was written: each function calls what stands in
its body, and the other statements call as well. A call in an argument of a call is not a call by
the function that gets the argument. A function is recursive if it is reached from the statements
and calls lead from it back to it.

In the resolved patch, the calls below a body or a statement are those that were written there
(`Translates.callsBelow_iff`): a pipe loses none of its left side, since some hole takes it up as a
signal.
-/

namespace SignalPatch

open Relation (ReflTransGen TransGen)
open Resolving (SignaturesOk)

/-! ## Who calls whom -/

mutual

def Expr.callees : Expr → List String
  | .binary _ lhs rhs _ => lhs.callees ++ rhs.callees
  | .pipe source target _ => source.callees ++ target.callees
  | .call callee args _ => callee :: argCallees args
  | _ => []

def argCallees : List (Arg Expr) → List String
  | [] => []
  | ⟨_, value, _⟩ :: args => value.callees ++ argCallees args

end

theorem mem_argCallees {args : List (Arg Expr)} :
    g ∈ argCallees args ↔ ∃ a ∈ args, g ∈ a.value.callees := by
  induction args with
  | nil => simp [argCallees]
  | cons a args ih => simp [argCallees, ih]

def Statement.defined? : Statement → Option String
  | .define f _ _ _ => some f
  | _ => none

/-- Who calls whom; `none` stands for the statements outside of all functions. -/
def callGraph (ss : List Statement) (caller : Option String) (callee : String) : Prop :=
  ∃ s ∈ ss, s.defined? = caller ∧ callee ∈ s.tree.callees

instance : Decidable (callGraph ss caller callee) :=
  inferInstanceAs (Decidable (∃ s ∈ ss, s.defined? = caller ∧ callee ∈ s.tree.callees))

section

variable (calls : Option String → String → Prop)

def Reached (f : String) : Prop :=
  ∃ first, calls none first ∧ ReflTransGen (fun f g => calls (some f) g) first f

/-- Calls lead from the statements to the function, and from there back to it. -/
def Recursive (f : String) : Prop :=
  Reached calls f ∧ TransGen (fun f g => calls (some f) g) f f

/-- Functions that are expanded one within the other, innermost first. -/
inductive Stack : List String → Prop
  | nil : Stack []
  | cons : Stack stack → calls stack.head? f → Stack (f :: stack)

end

variable {calls : Option String → String → Prop}

theorem Stack.reached {stack : List String} (h : Stack calls stack) (hf : f ∈ stack) :
    Reached calls f ∧
      ∃ top, stack.head? = some top ∧ ReflTransGen (fun f g => calls (some f) g) f top := by
  induction h generalizing f with
  | nil => simp at hf
  | @cons stack g _ hg ih =>
    rcases List.mem_cons.mp hf with rfl | hf
    · refine ⟨?_, f, rfl, .refl⟩
      cases stack with
      | nil => exact ⟨f, hg, .refl⟩
      | cons top stack =>
        obtain ⟨⟨first, hfirst, hpath⟩, -⟩ := ih (List.mem_cons_self ..)
        exact ⟨first, hfirst, hpath.tail hg⟩
    · obtain ⟨hreached, top, htop, hpath⟩ := ih hf
      rw [htop] at hg
      exact ⟨hreached, g, rfl, hpath.tail hg⟩

theorem Stack.recursive {stack : List String} (h : Stack calls stack) (hf : f ∈ stack)
    (hcall : calls stack.head? f) : Recursive calls f := by
  obtain ⟨hreached, top, htop, hpath⟩ := h.reached hf
  rw [htop] at hcall
  exact ⟨hreached, .tail' hpath hcall⟩

/-! ## Arguments that are no signals -/

theorem find?_eq_of_pairwise {xs : List α} {p : α → Bool} (ha : a ∈ xs) (hp : p a = true)
    (hone : xs.Pairwise fun a b => ¬ (p a = true ∧ p b = true)) : xs.find? p = some a := by
  induction xs with
  | nil => simp at ha
  | cons x xs ih =>
    obtain ⟨hx, hone⟩ := List.pairwise_cons.mp hone
    rcases List.mem_cons.mp ha with rfl | ha
    · exact List.find?_cons_of_pos hp
    · rw [List.find?_cons_of_neg fun hpx => hx a ha ⟨hpx, hp⟩]
      exact ih ha hone

theorem Binding.Fits.given {args : List (Arg α)} (h : Fits params (args.map Arg.name))
    (ha : a ∈ args) :
    ∃ k < params.length, Binding.given params args k = some a := by
  cases hname : a.name with
  | none =>
    have hunnamed : a ∈ args.filter (·.name.isNone) := List.mem_filter.mpr ⟨ha, by simp [hname]⟩
    obtain ⟨k, hk⟩ := List.mem_iff_getElem?.mp hunnamed
    have hlt := (List.getElem?_eq_some_iff.mp hk).1
    rw [length_positional] at hlt
    exact ⟨k, hlt.trans_le h.room, by rw [Binding.given, hk]; rfl⟩
  | some n =>
    obtain ⟨k, hk, hle⟩ := h.free n (List.mem_map.mpr ⟨a, ha, hname⟩)
    refine ⟨k, index?_lt hk, ?_⟩
    rw [Binding.given, List.getElem?_eq_none (by rwa [length_positional]), Option.none_or]
    refine find?_eq_of_pairwise ha (by simp [hname, hk]) ?_
    refine (List.pairwise_map.mp (List.pairwise_filterMap.mp h.distinct)).imp fun {x y} hne => ?_
    simp only [beq_iff_eq, Option.bind_eq_some_iff]
    rintro ⟨⟨m, hm, hmk⟩, n, hn, hnk⟩
    exact hne m hm n hn (index?_inj hmk hnk)

theorem length_pattern_params : ∀ b ∈ Builtin.table, b.kind = .pattern → b.params.length = 1 := by
  have h : ∀ b ∈ Builtin.table, (b.kind matches .pattern) → b.params.length = 1 := by decide
  intro b hb hk
  exact h b hb (by rw [hk])

theorem Role.Takes.shown (h : (Role.builtin b).Takes args) (hb : b ∈ Builtin.table)
    (hk : (Meaning.builtin b).takesSignals = false) (ha : a ∈ args) : a.value ≠ .other := by
  obtain ⟨hfits, haccepts⟩ := h
  obtain ⟨k, hlt, hgiven⟩ := hfits.given ha
  have hface : (Binding.faces b.params args)[k]? = some a.value := by
    rw [getElem?_faces, List.getElem?_eq_getElem hlt, Option.map_some, Binding.face, hgiven]
  -- What a builtin of this kind accepts are texts and numbers, and each of these shows.
  have hmem := List.mem_of_getElem? hface
  generalize hfaces : Binding.faces b.params args = faces at hface haccepts hmem
  cases hkind : b.kind with
  | op opcode => simp [Meaning.takesSignals, hkind] at hk
  | pattern =>
    rw [hkind] at haccepts
    have hone := length_pattern_params b hb hkind
    obtain rfl : k = 0 := by omega
    obtain ⟨t, p, ht, -⟩ := haccepts a.value (by rwa [List.head?_eq_getElem?])
    simp [ht]
  | control kind =>
    rw [hkind] at haccepts
    cases faces with
    | nil => simp at hmem
    | cons f faces =>
      obtain ⟨⟨t, rfl⟩, values, rfl⟩ := haccepts
      rcases List.mem_cons.mp hmem with hmem | hmem
      · simp [hmem]
      · obtain ⟨v, -, hv⟩ := List.mem_map.mp hmem
        simp [← hv]

theorem Expr.callees_of_shown {e : Expr} (h : e.face flow ≠ .other) : e.callees = [] := by
  cases e <;> simp_all [Expr.face, Expr.callees]

theorem Expr.face_of_hasHole {e : Expr} (h : e.hasHole) : e.face (some .other) = .other := by
  cases e <;> simp_all [Expr.face, Expr.hasHole]

theorem argsHaveHole_iff {args : List (Arg Expr)} :
    argsHaveHole args ↔ ∃ a ∈ args, a.value.hasHole := by
  induction args with
  | nil => simp [argsHaveHole]
  | cons a args ih => simp [argsHaveHole, ih]

/-! ## Calls of the resolved patch -/

theorem Stored.of_literal (h : Stored P a e i) (hnode : P[i]? = some node)
    (hlit : node.kind.isLiteral) :
    e.callees = [] ∧ e.hasHole = false := by
  cases h with
  | number | bool | text => exact ⟨rfl, rfl⟩
  | ident h' | hole h' | binary _ _ h' | call _ h' | pipe _ _ h' =>
    cases hnode.symm.trans h'
    cases hlit

theorem StoredArgs.mem_zip {args' : List (Arg NodeId)} (h : StoredArgs P a es args b)
    (hnames : args'.map Arg.name = args.map Arg.name) :
    (∀ x ∈ es, ∃ q ∈ args.zip args', ∃ start, Stored P start x.value q.1.value) ∧
      ∀ y ∈ args', ∃ q ∈ args.zip args', q.2 = y ∧
        ∃ x ∈ es, ∃ start, Stored P start x.value q.1.value := by
  induction args generalizing a es args' with
  | nil =>
    cases h
    simp_all
  | cons x args ih =>
    cases h with
    | cons hvalue hrest =>
      cases args' with
      | nil => simp at hnames
      | cons x' args' =>
        obtain ⟨hleft, hright⟩ := ih hrest (List.cons.inj hnames).2
        simp only [List.zip_cons_cons, List.forall_mem_cons, List.exists_mem_cons_iff]
        refine ⟨⟨.inl ⟨_, hvalue⟩, fun x hx => .inr (hleft x hx)⟩, .inl ⟨trivial, .inl ⟨_, hvalue⟩⟩,
          fun y hy => ?_⟩
        obtain ⟨q, hq, hy, x, hx, hs⟩ := hright y hy
        exact .inr ⟨q, hq, hy, .inr ⟨x, hx, hs⟩⟩

section

variable {P : Arena} {R : Resolved} {scope : Scope}

theorem CallResolved.signals (h : CallResolved R (.above R.symbols.globals scope) n s callee args i)
    (hvalues : ∀ s ∈ scope, s.isValue) (hT : SignaturesOk (.above R.symbols.globals scope)) :
    ∃ m args', R.patch.nodes.kind i = .call callee args' ∧
      ((SymbolTable.above R.symbols.globals scope).lookup callee).map Symbol.meaning = some m ∧
      (m.takesSignals → ∀ a ∈ args, R.Signal i a.value) ∧
      ∀ v, R.Signal i v → (∃ a ∈ args, v = a.value) ∨ ∃ x, R.patch.nodes.kind v = .number x := by
  obtain ⟨hm, hsig, hsup, hnode, -, -⟩ := h
  have hkind := Arena.kind_eq hnode
  have hsignals := Resolved.signals_call hkind (Resolved.Calls.of_lookup hvalues hm hsig)
  refine ⟨_, _, hkind, hm, fun htakes a ha => ?_, fun v hv => ?_⟩
  · rw [Resolved.Signal, hsignals, if_pos htakes]
    exact hsup.used a ha
  · rw [Resolved.Signal, hsignals] at hv
    split at hv
    · refine (hsup.origin (hT.copies _ _ _ hm hsig) hv).imp_right ?_
      rintro ⟨x, -, hx⟩
      exact ⟨x, Arena.kind_eq hx⟩
    · simp at hv

theorem Meaning.takesSignals_of_takes {m : Meaning} {a : Arg Expr}
    (hm : m.role.Takes (Expr.faceArgs flow args)) (hb : ∀ b, m = .builtin b → b ∈ Builtin.table)
    (ha : a ∈ args) (hface : a.value.face flow = .other) : m.takesSignals := by
  cases m with
  | function f => rfl
  | «variable» | parameter => exact hm.elim
  | builtin b =>
    by_contra hk
    exact hm.shown (hb b rfl) (Bool.eq_false_of_not_eq_true hk) (List.mem_map_of_mem ha) hface

theorem CallResolved.signal_of_checks
    (h : CallResolved R (.above R.symbols.globals scope) P.size s callee args' i)
    (hvalues : ∀ s ∈ scope, s.isValue) (hT : SignaturesOk (.above R.symbols.globals scope))
    (hchecks : (Expr.call callee es t).Checks (SymbolTable.above R.symbols.globals scope).role flow)
    (hx : x ∈ es) (hface : x.value.face flow = .other) (hy : y ∈ args') : R.Signal i y.value := by
  obtain ⟨m, -, -, hm, htakes, -⟩ := h.signals hvalues hT
  obtain ⟨-, role, hrole, hfits⟩ := Expr.Checks.call_iff.mp hchecks
  obtain rfl : m.role = role := by
    obtain ⟨symbol, hlookup, rfl⟩ := Option.map_eq_some_iff.mp hm
    rw [SymbolTable.role, hlookup] at hrole
    exact Option.some.inj hrole
  refine htakes (Meaning.takesSignals_of_takes hfits ?_ hx hface) y hy
  rintro b rfl
  exact Builtin.mem_table (hT.builtins callee b hm)

theorem Rewritten.signal_hole (h : Rewritten P R (.above R.symbols.globals scope) inflow i j)
    (hvalues : ∀ s ∈ scope, s.isValue) (hT : SignaturesOk (.above R.symbols.globals scope))
    (hstored : Stored P a e i)
    (hchecks : e.Checks (SymbolTable.above R.symbols.globals scope).role (some .other))
    (hhole : e.hasHole) :
    ∃ k, inflow = some k ∧ ReflTransGen R.Signal j k := by
  induction h generalizing a e with
  | literal hP hlit _ =>
    rw [(hstored.of_literal hP hlit).2] at hhole
    cases hhole
  | ident hP _ _ _ =>
    obtain rfl := hstored.of_ident hP
    cases hhole
  | hole hP => exact ⟨_, rfl, .refl⟩
  | binary hP hl hr hR ihl ihr =>
    obtain ⟨lhs, rhs, rfl, -, hlhs, hrhs⟩ := hstored.of_binary hP
    obtain ⟨hcl, hcr⟩ := Expr.Checks.binary_iff.mp hchecks
    obtain ⟨hsl, hsr⟩ := Resolved.signal_binary (Arena.kind_eq hR)
    rcases Bool.or_eq_true_iff.mp hhole with hhole | hhole
    · obtain ⟨k, hk, hpath⟩ := ihl hlhs hcl hhole
      exact ⟨k, hk, .head hsl hpath⟩
    · obtain ⟨k, hk, hpath⟩ := ihr hrhs hcr hhole
      exact ⟨k, hk, .head hsr hpath⟩
  | pipe hP hsource htarget ihs iht =>
    obtain ⟨src, target, rfl, -, hsrc, htgt⟩ := hstored.of_pipe hP
    obtain ⟨hcs, -, hholes, hct⟩ := Expr.Checks.pipe_iff.mp hchecks
    have hhole : src.hasHole := hhole
    -- through the left side, which the right side takes as a signal
    rw [Expr.face_of_hasHole hhole] at hct
    obtain ⟨k, hk, hpath⟩ := ihs hsrc hcs hhole
    obtain ⟨_, hk', hpath'⟩ := iht htgt hct hholes
    cases hk'
    exact ⟨k, hk, hpath'.trans hpath⟩
  | call hP hnames hargs hcall ih =>
    obtain ⟨es, rfl, hes⟩ := hstored.of_call hP
    obtain ⟨x, hx, hhole⟩ := argsHaveHole_iff.mp hhole
    obtain ⟨q, hq, start, hvalue⟩ := (hes.mem_zip hnames).1 x hx
    obtain ⟨k, hk, hpath⟩ := ih q hq hvalue ((Expr.Checks.call_iff.mp hchecks).1 x hx) hhole
    have hsignal := hcall.signal_of_checks hvalues hT hchecks hx (Expr.face_of_hasHole hhole)
      (List.of_mem_zip hq).2
    exact ⟨k, hk, .head hsignal hpath⟩

theorem Rewritten.call_below (h : Rewritten P R (.above R.symbols.globals scope) inflow i j)
    (hvalues : ∀ s ∈ scope, s.isValue) (hT : SignaturesOk (.above R.symbols.globals scope))
    (hstored : Stored P a e i)
    (hchecks : e.Checks (SymbolTable.above R.symbols.globals scope).role flow)
    (hg : g ∈ e.callees) :
    ∃ c args, ReflTransGen R.Signal j c ∧ R.patch.nodes.kind c = .call g args := by
  induction h generalizing a e flow with
  | literal hP hlit _ =>
    rw [(hstored.of_literal hP hlit).1] at hg
    cases hg
  | ident hP _ _ _ =>
    obtain rfl := hstored.of_ident hP
    cases hg
  | hole hP =>
    obtain ⟨rfl, -⟩ := hstored.of_hole hP
    cases hg
  | binary hP hl hr hR ihl ihr =>
    obtain ⟨lhs, rhs, rfl, -, hlhs, hrhs⟩ := hstored.of_binary hP
    obtain ⟨hcl, hcr⟩ := Expr.Checks.binary_iff.mp hchecks
    obtain ⟨hsl, hsr⟩ := Resolved.signal_binary (Arena.kind_eq hR)
    rcases List.mem_append.mp hg with hg | hg
    · obtain ⟨c, args, hpath, hc⟩ := ihl hlhs hcl hg
      exact ⟨c, args, .head hsl hpath, hc⟩
    · obtain ⟨c, args, hpath, hc⟩ := ihr hrhs hcr hg
      exact ⟨c, args, .head hsr hpath, hc⟩
  | pipe hP hsource htarget ihs iht =>
    obtain ⟨src, target, rfl, -, hsrc, htgt⟩ := hstored.of_pipe hP
    obtain ⟨hcs, -, hholes, hct⟩ := Expr.Checks.pipe_iff.mp hchecks
    rcases List.mem_append.mp hg with hg | hg
    · by_cases hface : src.face flow = .other
      · rw [hface] at hct
        obtain ⟨_, hk, hpath'⟩ := htarget.signal_hole hvalues hT htgt hct hholes
        cases hk
        obtain ⟨c, args, hpath, hc⟩ := ihs hsrc hcs hg
        exact ⟨c, args, hpath'.trans hpath, hc⟩
      · -- a text or a number that flows into a pipe calls nothing
        rw [Expr.callees_of_shown hface] at hg
        cases hg
    · exact iht htgt hct hg
  | call hP hnames hargs hcall ih =>
    obtain ⟨es, rfl, hes⟩ := hstored.of_call hP
    rcases List.mem_cons.mp hg with rfl | hg
    · obtain ⟨-, args', hkind, -⟩ := hcall.signals hvalues hT
      exact ⟨_, args', .refl, hkind⟩
    · obtain ⟨x, hx, hg⟩ := mem_argCallees.mp hg
      obtain ⟨q, hq, start, hvalue⟩ := (hes.mem_zip hnames).1 x hx
      obtain ⟨c, args, hpath, hc⟩ := ih q hq hvalue ((Expr.Checks.call_iff.mp hchecks).1 x hx) hg
      have hface : x.value.face flow = .other := by
        by_contra hface
        rw [Expr.callees_of_shown hface] at hg
        cases hg
      have hsignal := hcall.signal_of_checks hvalues hT hchecks hx hface (List.of_mem_zip hq).2
      exact ⟨c, args, .head hsignal hpath, hc⟩

theorem Resolved.path_of_leaf (h : (R.patch.nodes.kind j).children = [])
    (hpath : ReflTransGen R.Signal j c) : c = j := by
  rcases hpath.cases_head with rfl | ⟨k, hk, -⟩
  · rfl
  · have hk := hk.refers
    rw [Arena.Refers, h] at hk
    cases hk

theorem Rewritten.mem_callees (h : Rewritten P R (.above R.symbols.globals scope) inflow i j)
    (hvalues : ∀ s ∈ scope, s.isValue) (hT : SignaturesOk (.above R.symbols.globals scope))
    (hstored : Stored P a e i) (hpath : ReflTransGen R.Signal j c)
    (hcall : R.patch.nodes.kind c = .call g args) :
    g ∈ e.callees ∨ ∃ k, inflow = some k ∧ ReflTransGen R.Signal k c := by
  induction h generalizing a e with
  | literal hP hlit hR =>
    have hkind := Arena.kind_eq hR
    rw [← hkind] at hlit
    rw [Resolved.path_of_leaf (NodeKind.children_of_isLiteral hlit) hpath] at hcall
    rw [hcall] at hlit
    cases hlit
  | ident hP hR _ _ =>
    have hkind := Arena.kind_eq hR
    rw [Resolved.path_of_leaf (by rw [hkind]; rfl) hpath, hkind] at hcall
    cases hcall
  | hole hP => exact .inr ⟨_, rfl, hpath⟩
  | binary hP hl hr hR ihl ihr =>
    obtain ⟨lhs, rhs, rfl, -, hlhs, hrhs⟩ := hstored.of_binary hP
    have hkind := Arena.kind_eq hR
    rcases hpath.cases_head with rfl | ⟨k, hk, hpath⟩
    · cases hkind.symm.trans hcall
    · rw [Resolved.Signal, Resolved.signals_binary hkind] at hk
      rcases List.mem_pair.mp hk with rfl | rfl
      · exact (ihl hlhs hpath).imp_left (List.mem_append_left _)
      · exact (ihr hrhs hpath).imp_left (List.mem_append_right _)
  | pipe hP hsource htarget ihs iht =>
    obtain ⟨src, target, rfl, -, hsrc, htgt⟩ := hstored.of_pipe hP
    rcases iht htgt hpath with hg | ⟨k, hk, hpath⟩
    · exact .inl (List.mem_append_right _ hg)
    · cases hk
      exact (ihs hsrc hpath).imp_left (List.mem_append_left _)
  | call hP hnames hargs hcall' ih =>
    obtain ⟨es, rfl, hes⟩ := hstored.of_call hP
    obtain ⟨-, args', hkind, -, -, horigin⟩ := hcall'.signals hvalues hT
    rcases hpath.cases_head with rfl | ⟨v, hv, hpath⟩
    · cases hkind.symm.trans hcall
      exact .inl (List.mem_cons_self ..)
    · rcases horigin v hv with ⟨y, hy, rfl⟩ | ⟨x, hx⟩
      · obtain ⟨q, hq, rfl, x, hx, start, hvalue⟩ := (hes.mem_zip hnames).2 y hy
        refine (ih q hq hvalue hpath).imp_left fun hg => ?_
        exact List.mem_cons_of_mem _ (mem_argCallees.mpr ⟨x, hx, hg⟩)
      · -- a literal that was filled in
        rw [Resolved.path_of_leaf (by rw [hx]; rfl) hpath, hx] at hcall
        cases hcall

end

/-! ## Programs -/

/-- The value of a node is made with a call of `callee`. -/
def Resolved.CallsBelow (R : Resolved) (i : NodeId) (callee : String) : Prop :=
  ∃ c args, ReflTransGen R.Signal i c ∧ R.patch.nodes.kind c = .call callee args

def Resolved.HasBody (R : Resolved) (f : String) (body : NodeId) : Prop :=
  ∃ symbol name params, R.Calls f (.function symbol) ∧
    R.patch.nodes.kind symbol.definition = .define name params body

/-- The node stands for a tree that has no error. -/
inductive Translates (P : Arena) (R : Resolved) (e : Expr) (j : NodeId) : Prop
  | intro : (∀ s ∈ scope, s.isValue) → SignaturesOk (.above R.symbols.globals scope) →
      Rewritten P R (.above R.symbols.globals scope) none i j → Stored P a e i →
      e.Checks (SymbolTable.above R.symbols.globals scope).role none → Translates P R e j

theorem Translates.callsBelow_iff (h : Translates P R e j) : R.CallsBelow j g ↔ g ∈ e.callees := by
  obtain ⟨hvalues, hT, hrew, hstored, hchecks⟩ := h
  refine ⟨?_, hrew.call_below hvalues hT hstored hchecks⟩
  rintro ⟨c, args, hpath, hcall⟩
  refine (hrew.mem_callees hvalues hT hstored hpath hcall).resolve_right ?_
  rintro ⟨k, hk, -⟩
  cases hk

/-- The patch calls what the program calls. -/
structure CallsAs (R : Resolved) (ss : List Statement) : Prop where
  statements : callGraph ss none g ↔ ∃ j ∈ R.roots R.patch.statements, R.CallsBelow j g
  functions : R.HasBody f body → (callGraph ss (some f) g ↔ R.CallsBelow body g)
  callers : callGraph ss (some f) g → ∃ body, R.HasBody f body

theorem StatementsResolved.translates (h : StatementsResolved P R vars ids ids')
    (hG : Globals P all R.symbols.globals) (hrole : R.symbols.globals.role = roles)
    (hvalues : ∀ s ∈ vars, s.isValue) (hstored : StoredList P a ss ids)
    (hchecks : StatementsCheck roles vars ss) :
    List.Forall₂ (Translates P R) ((ss.filter (·.defined?.isNone)).map Statement.tree)
      (R.roots ids') := by
  induction h generalizing a ss with
  | nil =>
    cases hstored
    exact .nil
  | define hP hR _ ih =>
    cases hstored with
    | cons _ hs hrest =>
      obtain ⟨body, rfl, -, -⟩ := hs.of_define hP
      cases hchecks with
      | define hchecks =>
        -- a definition is no root
        rw [R.roots_define (Arena.kind_eq hR),
          List.filter_cons_of_neg (by simp [Statement.defined?])]
        exact ih hvalues hrest hchecks
  | assign hP hR hrew _ _ ih =>
    cases hstored with
    | cons _ hs hrest =>
      obtain ⟨value, rfl, -, hvalue⟩ := hs.of_assign hP
      cases hchecks with
      | assign hvalueChecks _ hchecks =>
        have hhead : Translates P R value _ :=
          .intro hvalues (hG.signaturesOk hvalues) hrew hvalue (by rwa [role_above, hrole])
        rw [R.roots_assign (Arena.kind_eq hR)]
        exact .cons hhead (ih (List.forall_mem_cons.mpr ⟨rfl, hvalues⟩) hrest hchecks)
  | expr hrew _ ih =>
    cases hstored with
    | cons _ hs hrest =>
      obtain ⟨node, hnode, hkind⟩ := hrew.read
      obtain ⟨e, rfl, he⟩ := hs.of_expr hnode hkind
      cases hchecks with
      | expr hexprChecks hchecks =>
        have hhead : Translates P R e _ :=
          .intro hvalues (hG.signaturesOk hvalues) hrew he (by rwa [role_above, hrole])
        obtain ⟨node', hnode', hkind'⟩ := hrew.root (by simp)
        rw [← Arena.kind_eq hnode'] at hkind'
        rw [R.roots_expr hkind']
        exact .cons hhead (ih hvalues hrest hchecks)

theorem Resolved.HasBody.unique {R : Resolved} (h : R.HasBody f body) (h' : R.HasBody f body') :
    body = body' := by
  obtain ⟨symbol, name, params, hcalls, hdef⟩ := h
  obtain ⟨symbol', name', params', hcalls', hdef'⟩ := h'
  cases hcalls.symm.trans hcalls'
  cases hdef.symm.trans hdef'
  rfl

theorem Elaborated.body_translates (hE : Elaborated P ids R) (hR : ResolvedSurvey P ids ss R)
    (hs : StoredList P 0 ss ids) (hmem : s ∈ ss) (hf : s.defined? = some f) :
    ∃ body, R.HasBody f body ∧ Translates P R s.tree body := by
  obtain ⟨b, i, hi, hstored⟩ := hs.stored hmem
  cases hstored with
  | @define e _ name params span hbody hP =>
    cases hf
    obtain ⟨hglobal, -, body, hnode, hrew⟩ := hE.functions _ hi _ _ _ _ hP
    have hcalls : R.Calls f (.function ⟨f, params.map Resolving.formal, _⟩) :=
      congrArg (Option.map Symbol.meaning) (hE.globals.filed.named?_mem hglobal)
    refine ⟨body, ⟨_, f, params, hcalls, Arena.kind_eq hnode⟩,
      .intro bodyScope_isValue (hE.globals.signaturesOk bodyScope_isValue) hrew hbody ?_⟩
    rw [role_above, hR.globals.role]
    exact hR.checks.bodies _ hmem
  | assign | expr => cases hf

theorem Elaborated.definition (hE : Elaborated P ids R) (hs : StoredList P 0 ss ids)
    (h : R.HasBody f body) : ∃ s ∈ ss, s.defined? = some f := by
  obtain ⟨_, _, _, hcalls, -⟩ := h
  obtain ⟨symbol, hsymbol, hmeaning⟩ := Option.map_eq_some_iff.mp hcalls
  obtain ⟨hmem, hname⟩ := Scope.named?_eq_some hsymbol
  cases hE.globals.known symbol hmem with
  | builtin b hb => simp [hb] at hmeaning
  | function i name params body span hi hP hfun =>
    obtain ⟨b, s, hs, -, hstored⟩ := hs.statement hi
    obtain ⟨e, rfl, -, -⟩ := hstored.of_define hP
    rw [hfun] at hname
    exact ⟨_, hs, congrArg some hname⟩

theorem exists_mem_iff_of_forall₂ {r : α → β → Prop} {p : α → Prop} {q : β → Prop}
    (h : List.Forall₂ r xs ys) (hpq : ∀ x y, r x y → (p x ↔ q y)) :
    (∃ x ∈ xs, p x) ↔ ∃ y ∈ ys, q y := by
  induction h with
  | nil => simp
  | cons hxy _ ih => simp only [List.exists_mem_cons_iff, hpq _ _ hxy, ih]

theorem Elaborated.callsAs (hE : Elaborated P ids R) (hR : ResolvedSurvey P ids ss R)
    (hs : StoredList P 0 ss ids) : CallsAs R ss where
  statements := by
    intro g
    have h := hE.statements.translates hE.globals hR.globals.role (by simp) hs hR.checks.statements
    rw [← exists_mem_iff_of_forall₂ h fun _ _ hxy => hxy.callsBelow_iff.symm]
    simp [callGraph, and_assoc]
  functions := by
    intro f body g hbody
    have htree : ∀ s ∈ ss, s.defined? = some f → (R.CallsBelow body g ↔ g ∈ s.tree.callees) := by
      intro s hmem hf
      obtain ⟨body', hbody', htranslates⟩ := hE.body_translates hR hs hmem hf
      rw [hbody.unique hbody']
      exact htranslates.callsBelow_iff
    constructor
    · rintro ⟨s, hmem, hf, hg⟩
      exact (htree s hmem hf).mpr hg
    · intro hg
      obtain ⟨s, hmem, hf⟩ := hE.definition hs hbody
      exact ⟨s, hmem, hf, (htree s hmem hf).mp hg⟩
  callers := by
    rintro f g ⟨s, hmem, hf, -⟩
    obtain ⟨body, hbody, -⟩ := hE.body_translates hR hs hmem hf
    exact ⟨body, hbody⟩

theorem parse_resolve_callsAs (tokens : List Token) (h : (parse tokens).patch.resolve.success) :
    CallsAs (parse tokens).patch.resolve (Grammar.statements tokens) := by
  have hs := parse_stored tokens
  exact (parse_resolve_elaborated tokens h).callsAs
    (((parse tokens).patch.resolve_survey hs (parse_unshared tokens)).1 h) hs

/-! ## Endless expansions -/

section

variable {R : Resolved} {ss : List Statement}

theorem Resolved.sum_weight_eq_top {nodes : Finset NodeId} {body : NodeId → ℕ∞} :
    ∑ i ∈ nodes, R.weight body i = ⊤ ↔ ∃ i ∈ nodes, ∃ root, R.body? i = some root ∧
      body root = ⊤ := by
  have hsum : ∑ i ∈ nodes, R.weight body i = ⊤ ↔
      ∃ i ∈ nodes, R.weight body i = ⊤ := WithTop.sum_eq_top
  rw [hsum]
  refine exists_congr fun i => and_congr_right fun _ => ?_
  unfold weight
  cases R.body? i with
  | none => simp
  | some root => simp

theorem Resolved.body?_eq_some_iff : R.body? i = some root ↔
    ∃ callee args, R.patch.nodes.kind i = .call callee args ∧ R.HasBody callee root := by
  unfold body?
  constructor
  · intro h
    split at h
    · split at h
      · split at h
        · cases h
          exact ⟨_, _, ‹_›, _, _, _, ‹_›, ‹_›⟩
        · cases h
      · cases h
    · cases h
  · rintro ⟨callee, args, hkind, symbol, name, params, hcalls, hdef⟩
    have hcalls : R.meaning? callee = some (.function symbol) := hcalls
    simp [hkind, hcalls, hdef]

theorem Resolved.sum_below_eq_top {roots : List NodeId} {need : NodeId → ℕ∞} :
    ∑ i ∈ R.below roots, R.weight need i = ⊤ ↔
      ∃ j ∈ roots, ∃ f body, R.CallsBelow j f ∧ R.HasBody f body ∧ need body = ⊤ := by
  rw [sum_weight_eq_top]
  constructor
  · rintro ⟨i, hi, body, hbody, htop⟩
    obtain ⟨-, j, hj, hpath⟩ := mem_below.mp hi
    obtain ⟨f, args, hkind, hf⟩ := body?_eq_some_iff.mp hbody
    exact ⟨j, hj, f, body, ⟨i, args, hpath, hkind⟩, hf, htop⟩
  · rintro ⟨j, hj, f, body, ⟨i, args, hpath, hkind⟩, hf, htop⟩
    exact ⟨i, mem_below.mpr ⟨Arena.lt_size_of_kind (by simp [hkind]), j, hj, hpath⟩, body,
      body?_eq_some_iff.mpr ⟨f, args, hkind, hf⟩, htop⟩

theorem exists_next {r : α → α → Prop} (h : ReflTransGen r a b) (hb : TransGen r b b) :
    ∃ c, r a c ∧ ReflTransGen r c b := by
  rcases h.cases_head with rfl | h
  · exact TransGen.head'_iff.mp hb
  · exact h

theorem CallsAs.needWithin_eq_top (h : CallsAs R ss)
    (hf : ReflTransGen (fun f g => callGraph ss (some f) g) f g)
    (hg : TransGen (fun f g => callGraph ss (some f) g) g g) (hbody : R.HasBody f body)
    (depth : Nat) :
    R.needWithin depth body = ⊤ := by
  induction depth generalizing f body with
  | zero => rfl
  | succ depth ih =>
    obtain ⟨f', hcall, hf'⟩ := exists_next hf hg
    obtain ⟨_, hcall', -⟩ := exists_next hf' hg
    obtain ⟨body', hbody'⟩ := h.callers hcall'
    rw [Resolved.needWithin, Resolved.sum_below_eq_top]
    exact ⟨body, by simp, f', body', (h.functions hbody).mp hcall, hbody', ih hf' hbody'⟩

def Endless (R : Resolved) (calls : Option String → String → Prop) (f : String) : Prop :=
  Reached calls f ∧ ∃ body, R.HasBody f body ∧ R.bodyNeed body = ⊤

theorem Endless.next (h : CallsAs R ss) (hf : Endless R (callGraph ss) f) :
    ∃ g, callGraph ss (some f) g ∧ Endless R (callGraph ss) g := by
  obtain ⟨⟨first, hfirst, hpath⟩, body, hbody, htop⟩ := hf
  rw [Resolved.bodyNeed_eq, Resolved.sum_below_eq_top] at htop
  obtain ⟨j, hj, g, body', hg, hbody', htop'⟩ := htop
  obtain rfl := List.mem_singleton.mp hj
  have hcall := (h.functions hbody).mpr hg
  exact ⟨g, hcall, ⟨first, hfirst, hpath.tail hcall⟩, body', hbody', htop'⟩

theorem finite_endless (R : Resolved) (calls : Option String → String → Prop) :
    Finite { f // Endless R calls f } := by
  refine ((R.symbols.globals.map Symbol.name).finite_toSet.subset ?_).to_subtype
  rintro f ⟨-, body, ⟨symbol, name, params, hcalls, -⟩, -⟩
  obtain ⟨s, hs, -⟩ := Option.map_eq_some_iff.mp hcalls
  obtain ⟨hmem, rfl⟩ := Scope.named?_eq_some hs
  exact List.mem_map_of_mem hmem

/-- There are only finitely many functions, so calls without end come back to one of them. -/
theorem Endless.recursive (h : CallsAs R ss) (hf : Endless R (callGraph ss) f) :
    ∃ g, Recursive (callGraph ss) g := by
  by_contra hnone
  let after (g f : { f // Endless R (callGraph ss) f }) : Prop :=
    TransGen (fun f g => callGraph ss (some f) g) f.1 g.1
  have : Finite { f // Endless R (callGraph ss) f } := finite_endless R (callGraph ss)
  have : IsTrans _ after := ⟨fun _ _ _ hfg hgk => hgk.trans hfg⟩
  have : Std.Irrefl after := ⟨fun f hff => hnone ⟨f.1, f.2.1, hff⟩⟩
  obtain ⟨last, -, hlast⟩ := (Finite.wellFounded_of_trans_of_irrefl after).has_min
    Set.univ ⟨⟨f, hf⟩, trivial⟩
  obtain ⟨g, hcall, hg⟩ := last.2.next h
  exact hlast ⟨g, hg⟩ trivial (.single hcall)

/-- A patch needs instructions without end exactly if a function is recursive. -/
theorem CallsAs.need_eq_top_iff (h : CallsAs R ss) :
    R.need = ⊤ ↔ ∃ f, Recursive (callGraph ss) f := by
  rw [Resolved.need, Resolved.sum_below_eq_top]
  constructor
  · rintro ⟨j, hj, f, body, hf, hbody, htop⟩
    exact Endless.recursive h ⟨⟨f, h.statements.mpr ⟨j, hj, hf⟩, .refl⟩, body, hbody, htop⟩
  · rintro ⟨f, ⟨first, hfirst, hpath⟩, hcycle⟩
    obtain ⟨j, hj, hcall⟩ := h.statements.mp hfirst
    obtain ⟨_, hnext, -⟩ := exists_next hpath hcycle
    obtain ⟨body, hbody⟩ := h.callers hnext
    refine ⟨j, hj, first, body, hcall, hbody, ?_⟩
    exact iInf_eq_top.mpr (h.needWithin_eq_top hpath hcycle hbody)

end

end SignalPatch
