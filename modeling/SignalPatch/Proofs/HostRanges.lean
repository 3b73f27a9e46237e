import SignalPatch.Proofs.TextOrigin

/-!
# The ranges of host parameters

`Patch.ComesTo` says with which resolved arguments, and in which state, resolution comes to a call,
whether the patch has errors or not. If such a call declares a host parameter, it has as many
settings as that kind of parameter takes, and the default is put into a range whose ends are numbers
in order. Every host parameter of the patch is what such a call declares.
-/

namespace SignalPatch

open Decimal (IsNumber)

def ControlKind.settingCount : ControlKind → Nat
  | .continuous => 3
  | .toggle => 1
  | .button => 0

theorem Builtin.params_length {kind : ControlKind} (h : b ∈ Builtin.table)
    (hkind : b.kind = .control kind) :
    b.params.length = kind.settingCount + 1 := by
  have hall : ∀ b ∈ Builtin.table, ∀ kind ∈ [ControlKind.continuous, .button, .toggle],
      b.kind = .control kind → b.params.length = kind.settingCount + 1 := by
    decide
  exact hall b h kind (by cases kind <;> simp) hkind

namespace Resolving

/-- Resolving below a node, from the state `r`, comes to the call at `i` in the state `s`, with its
arguments resolved to `args`. -/
inductive ComesTo (s : Resolution) (i : NodeId) (callee : String) (args : List (Arg NodeId)) :
    (depth : Nat) → (hole : Option NodeId) → NodeId → (r : Resolution) → Prop
  | here : r.nodes.kind i = .call callee given →
      (given.mapM fun a => return { a with value := ← resolve depth hole a.value } :
        Resolving (List (Arg NodeId))).run r = (args, s) →
          ComesTo s i callee args (depth + 1) hole i r
  | argument : r.nodes.kind j = .call outer (before ++ a :: after) →
      (before.mapM fun a => return { a with value := ← resolve depth hole a.value } :
        Resolving (List (Arg NodeId))).run r = (before', r') →
      ComesTo s i callee args depth hole a.value r' → ComesTo s i callee args (depth + 1) hole j r
  | lhs : r.nodes.kind j = .binary op l m → ComesTo s i callee args depth hole l r →
      ComesTo s i callee args (depth + 1) hole j r
  | rhs : r.nodes.kind j = .binary op l m → (resolve depth hole l).run r = (l', r') →
      ComesTo s i callee args depth hole m r' → ComesTo s i callee args (depth + 1) hole j r
  | source : r.nodes.kind j = .pipe l m → ComesTo s i callee args depth hole l r →
      ComesTo s i callee args (depth + 1) hole j r
  | target : r.nodes.kind j = .pipe l m → (resolve depth hole l).run r = (l', r') →
      isCall (r'.nodes.kind m) && containsHole r'.nodes depth m →
      ComesTo s i callee args depth (some l') m r' → ComesTo s i callee args (depth + 1) hole j r

/-- The call at `i` is one that declares a host parameter, and it comes with a name and settings. -/
inductive CallDeclares (s : Resolution) (i : NodeId) (callee : String) (args : List (Arg NodeId))
    (kind : ControlKind) (name : String) (settings : List Float) : Prop
  | intro : (s.symbols.lookup callee).map Symbol.meaning = some (.builtin b) →
      b.kind = .control kind → (bindCall i callee b.params args (s.nodes.span i)).run
        { s with nodes := s.nodes.setKind i (.call callee args) } = (some (v :: vs), s') →
      s'.nodes.kind v = .text name → numbers s'.nodes vs = .ok settings →
      CallDeclares s i callee args kind name settings

theorem ComesTo.stemsFrom (h : ComesTo s i callee args depth hole j r) (hr : r.StemsFrom cs) :
    s.StemsFrom cs ∧ ∀ a ∈ args, a.span.LiesIn cs := by
  induction h with
  | here hkind hargs =>
    exact (resolveArgs_keeps (resolve_keeps _ _) (hr.nodes.of_kind hkind)).of_run hargs hr
  | argument hkind hbefore _ ih =>
    have hspans := fun a ha => hr.nodes.of_kind hkind a (List.mem_append_left _ ha)
    exact ih ((resolveArgs_keeps (resolve_keeps _ _) hspans).of_run hbefore hr).1
  | lhs _ _ ih | source _ _ ih => exact ih hr
  | rhs _ hl _ ih | target _ hl _ _ ih => exact ih ((resolve_keeps _ _ _).of_run hl hr).1

theorem CallDeclares.settings (h : CallDeclares s i callee args kind name values)
    (hs : s.StemsFrom cs) (hargs : ∀ a ∈ args, a.span.LiesIn cs) :
    values.length = kind.settingCount ∧ ∀ v ∈ values, IsNumber v := by
  obtain ⟨hb, hkind, hbind, -, hnumbers⟩ := h
  obtain ⟨symbol, hlookup, hb⟩ := Option.map_eq_some_iff.mp hb
  have htable := (hs.symbols.lookup symbol hlookup).builtin _ hb
  have hset : Resolution.StemsFrom { s with nodes := s.nodes.setKind i (.call callee args) } cs :=
    { hs with nodes := hs.nodes.setKind i fun _ => hargs }
  have hkept := bindCall_keeps i callee (Builtin.hasNumbers htable) hargs
    (hs.nodes.node i).span _ hset
  have hvalues := congrArg Prod.fst hbind
  rw [show s.nodes.span i = (s.nodes.node i).span from rfl] at hbind
  rw [hbind] at hkept
  refine ⟨?_, hkept.1.nodes.numbers hnumbers⟩
  rw [run_bindCall] at hvalues
  have hlength := (Binding.bind_supplies hvalues).1.length
  have hnumbersLength := (numbers_ok_iff.mp hnumbers).length_eq
  rw [Builtin.params_length htable hkind, List.length_cons] at hlength
  omega

/-! ## Where host parameters come from -/

inductive DeclaredIn (comes : Resolution → NodeId → String → List (Arg NodeId) → Prop)
    (h : HostParam) : Prop
  | intro : comes s i callee args → CallDeclares s i callee args kind name values →
      h = .make kind name values (s.nodes.span i) → DeclaredIn comes h

theorem DeclaredIn.mono {comes comes' : Resolution → NodeId → String → List (Arg NodeId) → Prop}
    (hcomes : ∀ {s i callee args}, comes s i callee args → comes' s i callee args)
    (h : DeclaredIn comes p) : DeclaredIn comes' p := by
  obtain ⟨hcall, hdeclares, heq⟩ := h
  exact ⟨hcomes hcall, hdeclares, heq⟩

/-- Every host parameter that the step adds to those of the state `r` satisfies `D`. -/
def AddsOnly (D : HostParam → Prop) (x : Resolving α) (r : Resolution) : Prop :=
  ∀ h ∈ (x.run r).2.hostParams, h ∈ r.hostParams ∨ D h

namespace AddsOnly

variable {D D' : HostParam → Prop} {x : Resolving α}

theorem unchanged (h : (x.run r).2.hostParams = r.hostParams) : AddsOnly D x r :=
  fun _ hh => .inl (h ▸ hh)

theorem mono (hx : AddsOnly D x r) (h : ∀ p, D p → D' p) : AddsOnly D' x r :=
  fun p hp => (hx p hp).imp_right (h p)

theorem bind {f : α → Resolving β} (hx : AddsOnly D x r)
    (hf : AddsOnly D (f (x.run r).1) (x.run r).2) :
    AddsOnly D (x >>= f) r :=
  fun h hh => (hf h hh).elim (hx h) .inr

theorem mapM {f : α → Resolving β} {xs : List α} (h : ∀ before a after, xs = before ++ a :: after →
    AddsOnly D (f a) ((before.mapM f).run r).2) : AddsOnly D (xs.mapM f) r := by
  induction xs generalizing r with
  | nil => exact .unchanged rfl
  | cons x xs ih =>
    rw [List.mapM_cons]
    refine .bind (h [] x xs rfl) (.bind (ih fun before a after hxs => ?_) (.unchanged rfl))
    have hstep := h (x :: before) a after (by rw [hxs, List.cons_append])
    rwa [List.mapM_cons] at hstep

theorem forM {f : α → Resolving Unit} {xs : List α}
    (h : ∀ before a after, xs = before ++ a :: after → AddsOnly D (f a) ((before.forM f).run r).2) :
    AddsOnly D (xs.forM f) r := by
  induction xs generalizing r with
  | nil => exact .unchanged rfl
  | cons x xs ih =>
    refine .bind (h [] x xs rfl) (ih fun before a after hxs => ?_)
    exact h (x :: before) a after (by rw [hxs, List.cons_append])

end AddsOnly

theorem declareHostParam_addsOnly {D : HostParam → Prop} {r : Resolution}
    (h : ∀ v vs name values, args = v :: vs → r.nodes.kind v = .text name →
      numbers r.nodes vs = .ok values → D (.make kind name values span)) :
    AddsOnly D (declareHostParam callee kind args span) r := by
  refine .bind (.unchanged rfl) ?_
  rw [run_get]
  dsimp only
  split
  · exact .unchanged rfl
  split
  · split
    · exact .unchanged rfl
    · rename_i hname _ _ hvalues
      intro p hp
      refine (mem_declare hp).imp_right ?_
      rintro rfl
      exact h _ _ _ _ rfl hname hvalues
  · exact .unchanged rfl

theorem resolveCall_addsOnly (i : NodeId) (callee : String) (args : List (Arg NodeId))
    (r : Resolution) :
    AddsOnly (DeclaredIn fun s j f as => s = r ∧ j = i ∧ f = callee ∧ as = args)
      (resolveCall i callee args) r := by
  refine .bind (.unchanged rfl) (.bind (.unchanged rfl) (.bind (.unchanged rfl) ?_))
  rw [run_lookup]
  split
  · exact .unchanged rfl
  · exact .unchanged rfl
  · exact .unchanged rfl
  · refine .unchanged ?_
    exact bindCall_hostParams ..
  · rename_i b hb
    refine .bind (.unchanged (bindCall_hostParams ..)) ?_
    rw [run_spanOf]
    split
    · exact .unchanged rfl
    rename_i values hbind
    -- Of the builtins only those that declare a parameter add to the list.
    unfold checkBuiltin
    split
    · exact .unchanged rfl
    · cases values with
      | nil => exact .unchanged rfl
      | cons v => exact .unchanged (readPattern_hostParams v _)
    · rename_i kind hkind
      refine declareHostParam_addsOnly fun v vs name settings hvalues hname hsettings => ?_
      subst hvalues
      exact ⟨⟨rfl, rfl, rfl, rfl⟩, ⟨hb, hkind, Prod.ext hbind rfl, hname, hsettings⟩, rfl⟩

theorem resolve_addsOnly (depth : Nat) (hole : Option NodeId) (j : NodeId) (r : Resolution) :
    AddsOnly (DeclaredIn fun s i callee args => ComesTo s i callee args depth hole j r)
      (resolve depth hole j) r := by
  induction depth generalizing hole j r with
  | zero => exact .unchanged rfl
  | succ depth ih =>
    refine .bind (.unchanged rfl) ?_
    rw [run_kindOf]
    cases hkind : r.nodes.kind j with
    | number | bool | text => exact .unchanged rfl
    | hole => cases hole <;> exact .unchanged rfl
    | ident name =>
      refine .bind (.unchanged rfl) (.bind (.unchanged ?_) (.unchanged rfl))
      have hrun := congrArg Resolution.hostParams (checkValue_frame name (r.nodes.span j) r)
      exact hrun
    | binary op lhs rhs =>
      refine .bind ((ih hole lhs r).mono fun _ => .mono (.lhs hkind)) ?_
      refine .bind ((ih hole rhs _).mono fun _ => .mono (.rhs hkind rfl)) ?_
      exact .unchanged rfl
    | pipe source target =>
      refine .bind ((ih hole source r).mono fun _ => .mono (.source hkind)) ?_
      refine .bind (.unchanged rfl) ?_
      rw [run_get]
      dsimp only
      split
      · rename_i hcall
        exact (ih _ target _).mono fun _ => .mono (.target hkind rfl hcall)
      · exact .unchanged rfl
    | call callee args =>
      -- An argument is resolved in the state that those before it left, and the call after all of
      -- them.
      refine .bind (.mapM fun before a after hargs => ?_) ?_
      · refine .bind ?_ (.unchanged rfl)
        exact (ih hole a.value _).mono fun _ => .mono (.argument (hargs ▸ hkind) rfl)
      · refine .bind (.mono (resolveCall_addsOnly j callee _ _) fun _ => .mono ?_) (.unchanged rfl)
        rintro s i f as ⟨rfl, rfl, rfl, rfl⟩
        exact .here hkind rfl
    | assign | define => exact .unchanged rfl

end Resolving

open Resolving

inductive Patch.ComesTo (p : Patch) (s : Resolution) (i : NodeId) (callee : String)
    (args : List (Arg NodeId)) : Prop
  | body : p.statements = before ++ j :: after →
      (p.statements.forM hoist).run { nodes := p.nodes } = ((), r₁) →
      (before.forM (resolveFunction (p.nodes.size + 2))).run r₁ = ((), r₂) →
      r₂.nodes.kind j = .define name params body →
      Resolving.ComesTo s i callee args (p.nodes.size + 2) none body
        { r₂ with symbols := params.foldl defineParameter r₂.symbols.push } →
          p.ComesTo s i callee args
  | assigned : p.statements = before ++ j :: after →
      (opening p.statements (p.nodes.size + 2)).run { nodes := p.nodes } = ((), r₁) →
      (before.mapM (resolveStatement (p.nodes.size + 2))).run r₁ = (before', r₂) →
      r₂.nodes.kind j = .assign name value →
      Resolving.ComesTo s i callee args (p.nodes.size + 2) none value r₂ → p.ComesTo s i callee args
  | evaluated : p.statements = before ++ j :: after →
      (opening p.statements (p.nodes.size + 2)).run { nodes := p.nodes } = ((), r₁) →
      (before.mapM (resolveStatement (p.nodes.size + 2))).run r₁ = (before', r₂) →
      Resolving.ComesTo s i callee args (p.nodes.size + 2) none j r₂ → p.ComesTo s i callee args

theorem Patch.ComesTo.stemsFrom {p : Patch} (h : p.ComesTo s i callee args)
    (hp : p.nodes.StemsFrom cs) :
    s.StemsFrom cs ∧ ∀ a ∈ args, a.span.LiesIn cs := by
  have hstart := Resolution.StemsFrom.start hp
  cases h with
  | body _ hhoist hbefore hkind h =>
    have hr₁ := ((Keeps.forM fun id _ => hoist_keeps id).of_run hhoist hstart).1
    have hr₂ := ((Keeps.forM fun id _ => resolveFunction_keeps _ id).of_run hbefore hr₁).1
    exact h.stemsFrom { hr₂ with symbols := hr₂.symbols.parameters (hr₂.nodes.of_kind hkind) }
  | assigned _ hopening hbefore _ h | evaluated _ hopening hbefore h =>
    have hr₁ := ((opening_keeps _ _).of_run hopening hstart).1
    exact h.stemsFrom ((statements_keep _ _).of_run hbefore hr₁).1

theorem Resolving.define_hostParams (symbol : Symbol) (span : Span) (r : Resolution) :
    ((define symbol span).run r).2.hostParams = r.hostParams := by
  unfold define
  rw [run_bind, run_get]
  dsimp only
  split <;> rfl

theorem Resolving.hoist_hostParams (i : NodeId) (r : Resolution) :
    ((hoist i).run r).2.hostParams = r.hostParams := by
  unfold hoist
  rw [run_bind, run_kindOf]
  dsimp only
  split
  · rw [run_bind, run_bind, define_hostParams]
    rfl
  · rfl

theorem Patch.hostParams_declared (p : Patch) :
    ∀ h ∈ p.resolve.hostParams, DeclaredIn p.ComesTo h := by
  let D := DeclaredIn p.ComesTo
  let depth := p.nodes.size + 2
  -- One fact for each of the three passes, at the states that `ComesTo` speaks of.
  have hhoist : AddsOnly D (p.statements.forM hoist) { nodes := p.nodes } :=
    .forM fun _ i _ _ => .unchanged (hoist_hostParams i _)
  have hbodies : AddsOnly D (p.statements.forM (resolveFunction depth))
      ((p.statements.forM hoist).run { nodes := p.nodes }).2 := by
    refine .forM fun before i after hstatements => ?_
    refine .bind (.unchanged rfl) ?_
    rw [run_kindOf]
    split
    · rename_i name params body hkind
      refine .bind (.unchanged rfl) (.bind ?_ (.bind (.unchanged rfl) (.unchanged rfl)))
      exact .mono (resolve_addsOnly _ _ _ _) fun _ => .mono (.body hstatements rfl rfl hkind)
    · exact .unchanged rfl
  have hvalues : AddsOnly D (p.statements.mapM (resolveStatement depth))
      ((opening p.statements depth).run { nodes := p.nodes }).2 := by
    refine .mapM fun before i after hstatements => ?_
    refine .bind (.unchanged rfl) ?_
    rw [run_kindOf]
    split
    · exact .unchanged rfl
    · rename_i name value hkind
      refine .bind (.unchanged rfl) (.bind ?_ (.bind (.unchanged rfl) (.bind ?_ (.unchanged rfl))))
      · exact .mono (resolve_addsOnly _ _ _ _) fun _ => .mono (.assigned hstatements rfl rfl hkind)
      · exact .unchanged (define_hostParams ..)
    · exact .mono (resolve_addsOnly _ _ _ _) fun _ => .mono (.evaluated hstatements rfl rfl)
  have hprogram : AddsOnly D (program p.statements depth) { nodes := p.nodes } :=
    .bind hhoist (.bind hbodies (.bind (.unchanged rfl) (.bind hvalues (.unchanged rfl))))
  exact fun h hh => (hprogram h hh).resolve_left List.not_mem_nil

/-- The host parameters of a text have different names and a default within their range, and are
declared by calls that resolution comes to. Whenever it comes to a call that declares one, the
default is put between two numbers that are in order. -/
theorem resolve_declares_ranges (source : String) :
    (let p := (parse (scan source).tokens).patch
    (p.resolve.hostParams.map HostParam.name).Nodup ∧
      (∀ h ∈ p.resolve.hostParams,
        h.min ≤ h.default ∧ h.default ≤ h.max ∧ h.hash = Text.fingerprint h.name) ∧
      (∀ h ∈ p.resolve.hostParams, DeclaredIn p.ComesTo h) ∧
      ∀ s i callee args kind name values, p.ComesTo s i callee args →
        CallDeclares s i callee args kind name values →
        let h := HostParam.make kind name values (s.nodes.span i)
        values.length = kind.settingCount ∧ IsNumber h.min ∧ IsNumber h.max ∧ h.min ≤ h.max ∧
          h.default = HostParam.clamp (HostParam.settings kind values).1 h.min h.max) := by
  intro p
  have hp : p.nodes.StemsFrom source.toList := parse_nodes_stem source
  have hranged := (Patch.resolve_stemsFrom hp).hostParams
  refine ⟨hranged.names, fun h hh => ?_, p.hostParams_declared,
    fun s i callee args kind name values hcomes hdeclares => ?_⟩
  · have hh := hranged.ranged h hh
    exact ⟨hh.least, hh.greatest, hh.hash⟩
  · obtain ⟨hs, hargs⟩ := hcomes.stemsFrom hp
    obtain ⟨hlength, hnumbers⟩ := hdeclares.settings hs hargs
    have hmade := HostParam.make_isRanged kind name (s.nodes.span i) hnumbers
    exact ⟨hlength, hmade.min, hmade.max, hmade.ends, rfl⟩

/-- A range from 5, which flows in, to -2, with the default 9. -/
theorem swappedRange_declared :
    let p := (parse (scan "5 |> param(\"cut\", 9, %, -2)").tokens).patch
    (∃ h ∈ p.resolve.hostParams, (h.name, h.min, h.default, h.max) = ("cut", -2, 5, 5) ∧
      h.min ≤ h.default ∧ h.default ≤ h.max ∧ h.hash = Text.fingerprint h.name) ∧
    ∃ s i args, p.ComesTo s i "param" args ∧
      CallDeclares s i "param" args .continuous "cut" [9, 5, -2] ∧
        let h := HostParam.make .continuous "cut" [9, 5, -2] (s.nodes.span i)
        IsNumber h.min ∧ IsNumber h.max ∧ h.min ≤ h.max ∧
          h.default = HostParam.clamp 9 h.min h.max := by
  have hscan : scan "5 |> param(\"cut\", 9, %, -2)" = .ofChars _ :=
    congrArg Scan.ofChars String.toList_ofList
  obtain ⟨-, hranged, -, hcalls⟩ := resolve_declares_ranges "5 |> param(\"cut\", 9, %, -2)"
  rw [hscan] at hranged hcalls ⊢
  intro p
  have hlist : ∃ h ∈ p.resolve.hostParams, (h.name, h.min, h.default, h.max) =
      ("cut", -2, 5, 5) := by
    decide +kernel
  obtain ⟨h, hmem, hvalues⟩ := hlist
  refine ⟨⟨h, hmem, hvalues, hranged h hmem⟩, ?_⟩
  let r := ((opening p.statements (p.nodes.size + 2)).run { nodes := p.nodes }).2
  have hstatements : p.statements = [] ++ 6 :: [] := by decide +kernel
  have hpipe : r.nodes.kind 6 = .pipe 0 5 := by decide +kernel
  have hnumber : r.nodes.kind 0 = .number 5 := by decide +kernel
  have hsource : (resolve (p.nodes.size + 1) none 0).run r = (0, r) := by
    rw [resolve, run_bind, run_kindOf, hnumber]
    rfl
  have hfills : isCall (r.nodes.kind 5) && containsHole r.nodes (p.nodes.size + 1) 5 := by
    decide +kernel
  have hcall : r.nodes.kind 5 = .call "param"
      [⟨none, 1, ⟨1, 12, 11, 5⟩⟩, ⟨none, 2, ⟨1, 19, 18, 1⟩⟩, ⟨none, 3, ⟨1, 22, 21, 1⟩⟩,
        ⟨none, 4, ⟨1, 25, 24, 2⟩⟩] := by
    decide +kernel
  have hcomes := Patch.ComesTo.evaluated hstatements rfl rfl
    (.target hpipe hsource hfills (.here hcall rfl))
  refine ⟨_, _, _, hcomes,
    (fun hdeclares => ⟨hdeclares, (hcalls _ _ _ _ _ _ _ hcomes hdeclares).2⟩) ?_⟩
  refine @CallDeclares.intro _ _ _ _ _ _ _ ((Builtin.find? "param").get (by decide)) 1
    [2, 0, 4] _ ?_ ?_ (Prod.ext ?_ rfl) ?_ ?_
  all_goals decide +kernel

end SignalPatch
