import SignalPatch.Proofs.Coordinates

/-!
# What stems from a text

Resolution reports at the place of a node, an argument, a parameter, a literal or a symbol, gives
new nodes the places of old ones, and takes numbers from literals. So if the nodes of a patch stem
from a text, all that resolution finds wrong lies in that text, and the host parameters it collects
have proper ranges.
-/

namespace SignalPatch

open Decimal (IsNumber)

variable {cs : List Char}

/-! ## Host parameters -/

namespace HostParam

/-- The default lies in the range, whose ends are in order. -/
structure IsRanged (p : HostParam) : Prop where
  min : IsNumber p.min
  max : IsNumber p.max
  ends : p.min ≤ p.max
  least : p.min ≤ p.default
  greatest : p.default ≤ p.max
  hash : p.hash = Text.fingerprint p.name

theorem le_clamp (hv : IsNumber v) (hlo : IsNumber lo) (h : lo ≤ hi) : lo ≤ clamp v lo hi := by
  unfold clamp
  dsimp only
  split
  · rw [if_neg (Decimal.not_lt_of_le h)]
    exact Decimal.le_self hlo
  · rename_i hle
    split
    · exact h
    · exact Decimal.le_of_not_lt hlo hv hle

theorem clamp_le (hv : IsNumber v) (hhi : IsNumber hi) (h : lo ≤ hi) : clamp v lo hi ≤ hi := by
  unfold clamp
  dsimp only
  split
  · rwa [if_neg (Decimal.not_lt_of_le h)]
  · split
    · exact Decimal.le_self hhi
    · rename_i hle
      exact Decimal.le_of_not_lt hv hhi hle

theorem settings_isNumber (kind : ControlKind) {values : List Float}
    (h : ∀ v ∈ values, IsNumber v) :
    IsNumber (settings kind values).1 ∧ IsNumber (settings kind values).2.1 ∧
      IsNumber (settings kind values).2.2 := by
  have hdefaults : IsNumber 0 ∧ IsNumber 0 ∧ IsNumber 1 := by decide
  unfold settings
  split
  · simpa using h
  · exact ⟨h _ (.head _), hdefaults.2⟩
  · exact hdefaults

theorem make_isRanged (kind : ControlKind) (name : String) {values : List Float} (span : Span)
    (h : ∀ v ∈ values, IsNumber v) : (make kind name values span).IsRanged := by
  obtain ⟨hdefault, hlo, hhi⟩ := settings_isNumber kind h
  unfold make
  dsimp only
  split
  · rename_i hlt
    have hle := Decimal.le_of_lt hlt
    exact ⟨hhi, hlo, hle, le_clamp hdefault hhi hle, clamp_le hdefault hlo hle, rfl⟩
  · rename_i hlt
    have hle := Decimal.le_of_not_lt hlo hhi hlt
    exact ⟨hlo, hhi, hle, le_clamp hdefault hlo hle, clamp_le hdefault hhi hle, rfl⟩

/-- One declaration for each name, each with a proper range. -/
structure AreRanged (ps : List HostParam) : Prop where
  names : (ps.map name).Nodup
  ranged : ∀ p ∈ ps, p.IsRanged

theorem AreRanged.declare (h : AreRanged ps) (hp : p.IsRanged) :
    AreRanged (HostParam.declare ps p) := by
  refine ⟨Resolving.nodup_declare h.names, fun q hq => ?_⟩
  rcases Resolving.mem_declare hq with hq | rfl
  · exact h.ranged q hq
  · exact hp

end HostParam

/-! ## What resolution works on -/

/-- The place of a finding and those of its notes. -/
structure Finding.LiesIn (f : Finding) (cs : List Char) : Prop where
  span : f.span.LiesIn cs
  notes : ∀ filename, ∀ n ∈ f.issue.notes filename, n.span.LiesIn cs

theorem Finding.LiesIn.of_span {i : Issue} (h : Span.LiesIn s cs)
    (hnotes : ∀ filename, i.notes filename = []) :
    Finding.LiesIn ⟨i, s⟩ cs := by
  refine ⟨h, fun filename n hn => ?_⟩
  rw [hnotes] at hn
  cases hn

theorem Finding.LiesIn.redefinition {previous : Option Span} (h : Span.LiesIn s cs)
    (hprevious : ∀ span ∈ previous, span.LiesIn cs) :
    Finding.LiesIn ⟨.redefinition name previous, s⟩ cs := by
  refine ⟨h, fun filename n hn => ?_⟩
  cases previous with
  | none => cases hn
  | some span =>
    cases List.mem_singleton.mp hn
    exact hprevious span rfl

def Arena.StemsFrom (nodes : Arena) (cs : List Char) : Prop :=
  ∀ node ∈ nodes.toList, node.StemsFrom cs

namespace Arena.StemsFrom

variable {nodes : Arena}

theorem node (h : nodes.StemsFrom cs) (id : NodeId) : (nodes.node id).StemsFrom cs := by
  unfold Arena.node
  rw [Array.getD_eq_getD_getElem?]
  cases hid : nodes[id]? with
  | none => exact ⟨.origin cs, trivial⟩
  | some node => exact h node (Array.mem_toList_iff.mpr (Array.mem_of_getElem? hid))

theorem add {new : Node} (h : nodes.StemsFrom cs) (hnew : new.StemsFrom cs) :
    Arena.StemsFrom (nodes.add new).1 cs := by
  intro node hmem
  simp only [Arena.add, Array.toList_push, List.mem_append, List.mem_singleton] at hmem
  rcases hmem with hmem | rfl
  · exact h node hmem
  · exact hnew

theorem setKind {new : NodeKind} (h : nodes.StemsFrom cs) (id : NodeId)
    (hnew : ∀ s, new.StemsFrom cs s) :
    Arena.StemsFrom (nodes.setKind id new) cs := by
  intro node hmem
  obtain ⟨i, hi, rfl⟩ := Array.getElem_of_mem (Array.mem_toList_iff.mp hmem)
  have hold : ∀ (hi : i < nodes.size), nodes[i].StemsFrom cs :=
    fun hi => h _ (Array.mem_toList_iff.mpr (Array.getElem_mem hi))
  simp only [Arena.setKind, Array.getElem_modify]
  split
  · exact ⟨(hold _).span, hnew _⟩
  · exact hold _

theorem of_kind (h : nodes.StemsFrom cs) (hk : nodes.kind i = k) : k.StemsFrom cs (nodes.span i) :=
  hk ▸ (h.node i).kind

theorem numbers (h : nodes.StemsFrom cs) (hvalues : Resolving.numbers nodes ids = .ok values) :
    ∀ v ∈ values, IsNumber v :=
  of_forall₂ (Resolving.numbers_ok_iff.mp hvalues).flip fun _ _ hk => h.of_kind hk

end Arena.StemsFrom

def Signature.HasNumbers (params : Signature) : Prop :=
  ∀ p ∈ params, ∀ v, p.fallback = .value v → IsNumber v

theorem Builtin.hasNumbers (h : b ∈ Builtin.table) : Signature.HasNumbers b.params := by
  have hall : ∀ b ∈ Builtin.table, ∀ p ∈ b.params,
      (match p.fallback with
      | .value v => !v.isNaN
      | _ => true) = true := by
    decide
  intro p hp v hv
  have := hall b h p hp
  rw [hv, Bool.not_eq_true'] at this
  exact this

theorem hasNumbers_formal {params : List Parameter} (h : ∀ p ∈ params, p.StemsFrom cs) :
    Signature.HasNumbers (params.map Resolving.formal) := by
  intro formal hformal v hv
  obtain ⟨p, hp, rfl⟩ := List.mem_map.mp hformal
  refine (h p hp).default v ?_
  unfold Resolving.formal at hv
  split at hv
  · cases hv
  · rename_i hdefault
    cases hv
    exact hdefault

/-- A symbol is built in, or defined at a place of the text with literals of the text. -/
structure Symbol.StemsFrom (s : Symbol) (cs : List Char) : Prop where
  definedAt : ∀ span ∈ s.definedAt, span.LiesIn cs
  builtin : ∀ b, s.meaning = .builtin b → b ∈ Builtin.table
  function : ∀ f, s.meaning = .function f → Signature.HasNumbers f.params

theorem Symbol.StemsFrom.value (name : String) (h : Span.LiesIn span cs)
    (hm : m = .variable ∨ m = .parameter) :
    Symbol.StemsFrom { Symbol.of name m with definedAt := some span } cs := by
  refine ⟨?_, ?_, ?_⟩
  · rintro _ ⟨⟩
    exact h
  · rintro b rfl
    simp at hm
  · rintro f rfl
    simp at hm

theorem Symbol.StemsFrom.ofBuiltin (name : String) (h : b ∈ Builtin.table) :
    Symbol.StemsFrom (Symbol.of name (.builtin b)) cs := by
  refine ⟨?_, ?_, ?_⟩
  · rintro _ ⟨⟩
  · rintro _ ⟨⟩
    exact h
  · rintro _ ⟨⟩

def SymbolTable.StemsFrom (t : SymbolTable) (cs : List Char) : Prop :=
  ∀ scope ∈ t.scopes, ∀ s ∈ scope, s.StemsFrom cs

namespace SymbolTable.StemsFrom

variable {t : SymbolTable}

theorem push (h : t.StemsFrom cs) : t.push.StemsFrom cs := by
  rintro scope (_ | ⟨_, hmem⟩)
  · simp
  · exact h scope hmem

theorem pop (h : t.StemsFrom cs) : t.pop.StemsFrom cs := by
  intro scope hmem
  apply h scope
  simp only [scopes, SymbolTable.pop, List.mem_append] at hmem ⊢
  exact hmem.imp_left List.mem_of_mem_tail

theorem insert (h : t.StemsFrom cs) (hs : s.StemsFrom cs) : (t.insert s).StemsFrom cs := by
  obtain ⟨inner, globals⟩ := t
  cases inner <;>
    simp only [SymbolTable.StemsFrom, scopes, SymbolTable.insert, List.mem_append,
      List.mem_cons, or_imp, forall_and, forall_eq] at h ⊢
  · exact ⟨h.1, ⟨hs, h.2.1⟩, h.2.2⟩
  · exact ⟨⟨⟨hs, h.1.1⟩, h.1.2⟩, h.2⟩

theorem define? (h : t.StemsFrom cs) (hs : s.StemsFrom cs)
    (hdefine : t.define? s = some t') : t'.StemsFrom cs := by
  unfold SymbolTable.define? at hdefine
  split at hdefine
  · cases hdefine
  · cases hdefine
    exact h.insert hs

theorem define (h : t.StemsFrom cs) (hs : s.StemsFrom cs) : (t.define s).StemsFrom cs := by
  unfold SymbolTable.define
  cases hdefine : t.define? s with
  | none => exact h
  | some t' => exact h.define? hs hdefine

theorem foldl_define {f : α → Symbol} (h : t.StemsFrom cs) (xs : List α)
    (hf : ∀ x ∈ xs, (f x).StemsFrom cs) :
    (xs.foldl (fun t x => t.define (f x)) t).StemsFrom cs := by
  induction xs generalizing t with
  | nil => exact h
  | cons x xs ih => exact ih (h.define (hf x (.head _))) fun y hy => hf y (.tail _ hy)

theorem parameters (h : t.StemsFrom cs) {params : List Parameter}
    (hparams : ∀ p ∈ params, p.StemsFrom cs) :
    (params.foldl Resolving.defineParameter t.push).StemsFrom cs :=
  h.push.foldl_define params fun p hp => .value p.name (hparams p hp).span (.inr rfl)

theorem standard (cs : List Char) : SymbolTable.standard.StemsFrom cs := by
  have hbuiltin : ∀ s ∈ builtinSymbols ++ aliasSymbols, s.StemsFrom cs := by
    simp only [builtinSymbols, aliasSymbols, List.mem_append, List.mem_map, List.mem_filterMap,
      Option.map_eq_some_iff]
    rintro s (⟨b, hb, rfl⟩ | ⟨_, -, b, hfind, rfl⟩)
    · exact .ofBuiltin _ hb
    · exact .ofBuiltin _ (Builtin.mem_table hfind)
  exact foldl_define (f := id) (by simp [SymbolTable.StemsFrom, scopes]) _ hbuiltin

theorem lookup (h : t.StemsFrom cs) : ∀ s ∈ t.lookup name, s.StemsFrom cs := by
  intro s hs
  obtain ⟨-, scope, hscope, hmem⟩ := lookup_mem hs
  exact h scope hscope s hmem

end SymbolTable.StemsFrom

structure Resolution.StemsFrom (r : Resolution) (cs : List Char) : Prop where
  nodes : r.nodes.StemsFrom cs
  symbols : r.symbols.StemsFrom cs
  hostParams : HostParam.AreRanged r.hostParams
  findings : ∀ f ∈ r.findings, f.LiesIn cs

theorem Resolution.StemsFrom.append {r : Resolution} (h : r.StemsFrom cs)
    (hfs : ∀ f ∈ fs, f.LiesIn cs) :
    Resolution.StemsFrom { r with findings := r.findings ++ fs } cs :=
  { h with findings := fun f hf => (List.mem_append.mp hf).elim (h.findings f) (hfs f) }

/-! ## Resolution -/

namespace Resolving

/-- What the step works on goes on to stem from the text, and what it gives satisfies `Q`. -/
def Keeps (cs : List Char) (x : Resolving α) (Q : α → Prop) : Prop :=
  ∀ r : Resolution, r.StemsFrom cs → (x.run r).2.StemsFrom cs ∧ Q (x.run r).1

/-- Steps that give nothing of interest. -/
abbrev KeepsAll (cs : List Char) (x : Resolving α) : Prop := Keeps cs x fun _ => True

variable {Q : α → Prop} {Q' : β → Prop}

theorem Keeps.bind {x : Resolving α} {f : α → Resolving β} (hx : Keeps cs x Q)
    (hf : ∀ a, Q a → Keeps cs (f a) Q') : Keeps cs (x >>= f) Q' := by
  intro r hr
  obtain ⟨hr', ha⟩ := hx r hr
  exact hf _ ha _ hr'

theorem Keeps.of_run {x : Resolving α} (hx : Keeps cs x Q) (hrun : x.run r = (a, r'))
    (hr : r.StemsFrom cs) :
    r'.StemsFrom cs ∧ Q a := by
  have h := hx r hr
  rwa [hrun] at h

theorem Keeps.pure (h : Q a) : Keeps cs (Pure.pure a) Q := fun _ hr => ⟨hr, h⟩

theorem Keeps.mono {Q' : α → Prop} {x : Resolving α} (hx : Keeps cs x Q) (h : ∀ a, Q a → Q' a) :
    Keeps cs x Q' :=
  fun r hr => ⟨(hx r hr).1, h _ (hx r hr).2⟩

theorem Keeps.get : Keeps cs MonadState.get (·.StemsFrom cs) := fun _ hr => ⟨hr, hr⟩

theorem Keeps.set (h : Resolution.StemsFrom r cs) :
    KeepsAll cs (MonadStateOf.set r : Resolving Unit) :=
  fun _ _ => ⟨h, trivial⟩

theorem Keeps.forM {f : α → Resolving Unit} {xs : List α} (h : ∀ x ∈ xs, KeepsAll cs (f x)) :
    KeepsAll cs (xs.forM f) := by
  induction xs with
  | nil => exact .pure trivial
  | cons x xs ih => exact (h x (.head _)).bind fun _ _ => ih fun y hy => h y (.tail _ hy)

theorem Keeps.mapM {Q : β → Prop} {f : α → Resolving β} {xs : List α}
    (h : ∀ x ∈ xs, Keeps cs (f x) Q) :
    Keeps cs (xs.mapM f) fun ys => ∀ y ∈ ys, Q y := by
  induction xs with
  | nil => exact .pure (by simp)
  | cons x xs ih =>
    rw [List.mapM_cons]
    refine (h x (.head _)).bind fun y hy => ?_
    refine (ih fun z hz => h z (.tail _ hz)).bind fun ys hys => .pure ?_
    simpa using ⟨hy, hys⟩

theorem report_keeps (h : Finding.LiesIn ⟨issue, s⟩ cs) : KeepsAll cs (report issue s) :=
  fun _ hr => ⟨hr.append (by simpa using h), trivial⟩

theorem kindOf_keeps (id : NodeId) : Keeps cs (kindOf id) fun kind => ∃ s, kind.StemsFrom cs s :=
  fun _ hr => ⟨hr, _, (hr.nodes.node id).kind⟩

theorem spanOf_keeps (id : NodeId) : Keeps cs (spanOf id) (·.LiesIn cs) :=
  fun _ hr => ⟨hr, (hr.nodes.node id).span⟩

theorem lookup_keeps (name : String) :
    Keeps cs (lookup name) fun symbol => ∀ s ∈ symbol, s.StemsFrom cs :=
  fun _ hr => ⟨hr, hr.symbols.lookup⟩

theorem setKind_keeps (id : NodeId) {kind : NodeKind} (h : ∀ s, kind.StemsFrom cs s) :
    KeepsAll cs (setKind id kind) :=
  fun _ hr => ⟨{ hr with nodes := hr.nodes.setKind id h }, trivial⟩

theorem setSymbols_keeps {f : SymbolTable → SymbolTable}
    (h : ∀ t, t.StemsFrom cs → (f t).StemsFrom cs) :
    KeepsAll cs (setSymbols f) :=
  fun _ hr => ⟨{ hr with symbols := h _ hr.symbols }, trivial⟩

/-- A name that is taken was defined somewhere in the text, if not built in. -/
theorem define_keeps (symbol : Symbol)
    (h : Symbol.StemsFrom { symbol with definedAt := some s } cs) :
    KeepsAll cs (define symbol s) := by
  intro r hr
  unfold define
  rw [run_bind, run_get]
  dsimp only
  cases hdefine : r.symbols.define? { symbol with definedAt := some s } with
  | some symbols => exact ⟨{ hr with symbols := hr.symbols.define? h hdefine }, trivial⟩
  | none =>
    refine report_keeps (.redefinition (h.definedAt s rfl) fun span hspan => ?_) r hr
    obtain ⟨previous, hprevious, hdefined⟩ := Option.bind_eq_some_iff.mp hspan
    exact (hr.symbols.lookup previous hprevious).definedAt span hdefined

theorem checkValue_keeps (name : String) (h : Span.LiesIn s cs) :
    KeepsAll cs (checkValue name s) := by
  refine (lookup_keeps name).bind fun symbol _ => ?_
  cases symbol with
  | none => exact report_keeps (.of_span h fun _ => rfl)
  | some symbol =>
    dsimp only
    split
    · exact .pure trivial
    · exact report_keeps (.of_span h fun _ => rfl)

theorem readPattern_keeps (id : NodeId) : KeepsAll cs (readPattern id) := by
  intro r hr
  have hspan := (hr.nodes.node id).span
  unfold readPattern
  rw [run_bind, run_kindOf]
  cases hk : r.nodes.kind id with
  | text value =>
    simp only [run_bind, run_spanOf]
    cases hp : Pattern.parse value (r.nodes.span id) with
    | ok pattern => exact ⟨{ hr with }, trivial⟩
    | error f =>
      obtain ⟨m, hissue⟩ := parse_error hp
      exact report_keeps (.of_span (Pattern.parse_error_liesIn hp (hr.nodes.of_kind hk))
        fun _ => by rw [hissue]; rfl) r hr
  | _ => exact report_keeps (.of_span hspan fun _ => rfl) r hr

theorem remarks_notes (params : List HostParam) (p : HostParam) (swapped : Bool)
    (filename : String) :
    ∀ issue ∈ HostParam.remarks params p swapped, issue.notes filename = [] := by
  intro issue hmem
  unfold HostParam.remarks at hmem
  rcases List.mem_append.mp hmem with hmem | hmem
  · split at hmem <;> simp_all [Issue.notes]
  · split at hmem
    · split at hmem <;> simp_all [Issue.notes]
    · cases hmem

theorem declareHostParam_keeps (callee : String) (kind : ControlKind) (args : List NodeId)
    (h : Span.LiesIn s cs) : KeepsAll cs (declareHostParam callee kind args s) := by
  refine Keeps.get.bind fun r hr => ?_
  cases args with
  | nil => exact .pure trivial
  | cons nameNode rest =>
    dsimp only
    split
    · split
      · exact report_keeps (.of_span (hr.nodes.node _).span fun _ => rfl)
      · rename_i values hvalues
        have hnumbers : ∀ v ∈ values, IsNumber v := hr.nodes.numbers hvalues
        have hranged := fun name => HostParam.make_isRanged kind name s hnumbers
        refine .set { hr.append ?_ with hostParams := hr.hostParams.declare (hranged _) }
        intro f hf
        obtain ⟨issue, hissue, rfl⟩ := List.mem_map.mp hf
        exact .of_span h fun filename => remarks_notes _ _ _ filename issue hissue
    · exact report_keeps (.of_span (hr.nodes.node _).span fun _ => rfl)

theorem checkBuiltin_keeps (callee : String) (b : Builtin) (args : List NodeId)
    (h : Span.LiesIn s cs) :
    KeepsAll cs (checkBuiltin callee b args s) := by
  unfold checkBuiltin
  split
  · exact .pure trivial
  · cases args with
    | nil => exact .pure trivial
    | cons id _ => exact readPattern_keeps id
  · exact declareHostParam_keeps callee _ args h

end Resolving

namespace Binding

theorem fillAll_stemsFrom {params : Signature} (hparams : params.HasNumbers)
    (slots : List (Option NodeId)) {nodes : Arena} (hspan : Span.LiesIn s cs)
    (hnodes : nodes.StemsFrom cs) :
    (fillAll params s nodes slots).nodes.StemsFrom cs := by
  unfold fillAll
  apply List.foldlRecOn params.zipIdx (fill s) (motive := fun filled => filled.nodes.StemsFrom cs)
  · exact hnodes
  · rintro filled hfilled ⟨formal, i⟩ hmem
    unfold fill
    dsimp only
    split
    · exact hfilled
    · split
      · exact hfilled
      · rename_i v hv
        exact hfilled.add ⟨hspan, hparams formal (List.fst_mem_of_mem_zipIdx hmem) v hv⟩
      · exact hfilled

theorem bind_stemsFrom (callee : String) {params : Signature} {args : List (Arg NodeId)}
    {nodes : Arena} (hparams : params.HasNumbers) (hargs : ∀ a ∈ args, a.span.LiesIn cs)
    (hspan : Span.LiesIn s cs) (hnodes : nodes.StemsFrom cs) :
    (bind callee params args s nodes).nodes.StemsFrom cs ∧
      ∀ f ∈ (bind callee params args s nodes).findings, f.LiesIn cs := by
  refine ⟨fillAll_stemsFrom hparams _ hspan hnodes, fun ⟨issue, span⟩ hf => ?_⟩
  obtain ⟨hissue, hplace⟩ := bind_reports hf
  have hspan : span.LiesIn cs := by
    rcases hplace with rfl | ⟨a, ha, rfl⟩
    · exact hspan
    · exact hargs a ha
  exact .of_span hspan fun filename => by cases issue <;> first | rfl | cases hissue

end Binding

namespace Resolving

theorem bindCall_keeps (id : NodeId) (callee : String) {params : Signature}
    {args : List (Arg NodeId)} (hparams : params.HasNumbers) (hargs : ∀ a ∈ args, a.span.LiesIn cs)
    (hspan : Span.LiesIn s cs) :
    KeepsAll cs (bindCall id callee params args s) := by
  refine Keeps.get.bind fun r hr => ?_
  obtain ⟨hnodes, hfindings⟩ := Binding.bind_stemsFrom callee hparams hargs hspan hr.nodes
  refine Keeps.bind (.set { hr.append hfindings with nodes := hnodes }) fun _ _ => ?_
  split
  · exact .pure trivial
  · refine (setKind_keeps id fun _ => ?_).bind fun _ _ => .pure trivial
    simp only [NodeKind.StemsFrom, List.mem_map]
    rintro _ ⟨v, -, rfl⟩
    exact (hnodes.node v).span

theorem resolveCall_keeps (id : NodeId) (callee : String) {args : List (Arg NodeId)}
    (hargs : ∀ a ∈ args, a.span.LiesIn cs) : KeepsAll cs (resolveCall id callee args) := by
  refine (spanOf_keeps id).bind fun s hs => ?_
  have hkind : ∀ s, NodeKind.StemsFrom cs s (.call callee args) := fun _ => hargs
  refine (setKind_keeps id hkind).bind fun _ _ => ?_
  refine (lookup_keeps callee).bind fun symbol hsymbol => ?_
  split
  · exact report_keeps (.of_span hs fun _ => rfl)
  · exact report_keeps (.of_span hs fun _ => rfl)
  · exact report_keeps (.of_span hs fun _ => rfl)
  · rename_i f hf
    obtain ⟨symbol, rfl, -⟩ := Option.map_eq_some_iff.mp hf
    exact (bindCall_keeps id callee ((hsymbol symbol rfl).function f (Option.some.inj hf))
      hargs hs).bind fun _ _ => .pure trivial
  · rename_i b hb
    obtain ⟨symbol, rfl, -⟩ := Option.map_eq_some_iff.mp hb
    have hparams := Builtin.hasNumbers ((hsymbol symbol rfl).builtin b (Option.some.inj hb))
    refine (bindCall_keeps id callee hparams hargs hs).bind fun values _ => ?_
    cases values with
    | none => exact .pure trivial
    | some values => exact checkBuiltin_keeps callee _ values hs

/-- Arguments keep their places while their values are exchanged. -/
theorem resolveArgs_keeps {hole : Option NodeId} {args : List (Arg NodeId)}
    (ih : ∀ id, KeepsAll cs (resolve depth hole id)) (hargs : ∀ a ∈ args, a.span.LiesIn cs) :
    Keeps cs (args.mapM fun a => return { a with value := ← resolve depth hole a.value } :
      Resolving (List (Arg NodeId))) fun args' => ∀ a ∈ args', a.span.LiesIn cs :=
  Keeps.mapM fun a ha => (ih a.value).bind fun _ _ => .pure (hargs a ha)

theorem resolve_keeps (depth : Nat) (hole : Option NodeId) (id : NodeId) :
    KeepsAll cs (resolve depth hole id) := by
  induction depth generalizing hole id with
  | zero => exact .pure trivial
  | succ depth ih =>
    refine (kindOf_keeps id).bind ?_
    rintro kind ⟨s, hkind⟩
    cases kind with
    | number | bool | text => exact .pure trivial
    | hole =>
      cases hole with
      | some source => exact .pure trivial
      | none =>
        refine (spanOf_keeps id).bind fun s hs => ?_
        exact (report_keeps (.of_span hs fun _ => rfl)).bind fun _ _ => .pure trivial
    | ident name =>
      refine (spanOf_keeps id).bind fun s hs => ?_
      exact (checkValue_keeps name hs).bind fun _ _ => .pure trivial
    | binary op lhs rhs =>
      refine (ih hole lhs).bind fun _ _ => (ih hole rhs).bind fun _ _ => ?_
      refine Keeps.bind (setKind_keeps id ?_) fun _ _ => .pure trivial
      exact fun _ => trivial
    | pipe source target =>
      -- The span of a report is that of a node, and nodes keep the spans they were read with.
      refine (ih hole source).bind fun source' _ => Keeps.get.bind fun r hr => ?_
      dsimp only
      split
      · exact ih _ target
      · exact (report_keeps (.of_span (hr.nodes.node target).span fun _ => rfl)).bind
          fun _ _ => .pure trivial
    | call callee args =>
      refine (resolveArgs_keeps (ih hole) hkind).bind fun args' hargs => ?_
      exact (resolveCall_keeps id callee hargs).bind fun _ _ => .pure trivial
    | assign | define =>
      refine (spanOf_keeps id).bind fun s hs => ?_
      exact (report_keeps (.of_span hs fun _ => rfl)).bind fun _ _ => .pure trivial

theorem repeatedParameters_liesIn (function : String) (seen : List String) {params : List Parameter}
    (h : ∀ p ∈ params, p.span.LiesIn cs) :
    ∀ f ∈ repeatedParameters function seen params, f.LiesIn cs := by
  induction params generalizing seen with
  | nil => simp [repeatedParameters]
  | cons p params ih =>
    simp only [repeatedParameters, List.mem_append]
    rintro f (hf | hf)
    · split at hf
      · cases List.mem_singleton.mp hf
        exact .of_span (h p (.head _)) fun _ => rfl
      · cases hf
    · exact ih _ (fun q hq => h q (.tail _ hq)) f hf

theorem hoist_keeps (id : NodeId) : KeepsAll cs (hoist id) := by
  refine (kindOf_keeps id).bind ?_
  rintro kind ⟨s, hkind⟩
  cases kind with
  | define name params body =>
    refine Keeps.bind (Q := fun _ => True) (fun r hr => ⟨hr.append ?_, trivial⟩) fun _ _ => ?_
    · exact repeatedParameters_liesIn name [] fun p hp => (hkind p hp).span
    · refine (spanOf_keeps id).bind fun s hs => define_keeps _ ⟨by rintro _ ⟨⟩; exact hs, nofun, ?_⟩
      rintro _ ⟨⟩
      exact hasNumbers_formal hkind
  | _ => exact .pure trivial

theorem resolveFunction_keeps (depth : Nat) (id : NodeId) :
    KeepsAll cs (resolveFunction depth id) := by
  refine (kindOf_keeps id).bind ?_
  rintro kind ⟨s, hkind⟩
  cases kind with
  | define name params body =>
    refine (setSymbols_keeps fun t ht => ht.parameters hkind).bind fun _ _ => ?_
    refine (resolve_keeps depth none body).bind fun _ _ => ?_
    refine (setSymbols_keeps fun t ht => ht.pop).bind fun _ _ => ?_
    exact setKind_keeps id fun _ => hkind
  | _ => exact .pure trivial

theorem resolveStatement_keeps (depth : Nat) (id : NodeId) :
    KeepsAll cs (resolveStatement depth id) := by
  refine (kindOf_keeps id).bind fun kind _ => ?_
  cases kind with
  | define => exact .pure trivial
  | assign name value =>
    refine (spanOf_keeps id).bind fun s hs => ?_
    refine (resolve_keeps depth none value).bind fun _ _ => ?_
    refine Keeps.bind (setKind_keeps id fun _ => trivial) fun _ _ => ?_
    have hsymbol := Symbol.StemsFrom.value name hs (.inl rfl)
    exact (define_keeps _ hsymbol).bind fun _ _ => .pure trivial
  | _ => exact resolve_keeps depth none id

theorem opening_keeps (ids : List NodeId) (depth : Nat) : KeepsAll cs (opening ids depth) := by
  refine (Keeps.forM fun id _ => hoist_keeps id).bind fun _ _ => ?_
  refine (Keeps.forM fun id _ => resolveFunction_keeps depth id).bind fun _ _ => ?_
  exact setSymbols_keeps fun t ht => ht.push

theorem statements_keep (ids : List NodeId) (depth : Nat) :
    KeepsAll cs (ids.mapM (resolveStatement depth)) :=
  (Keeps.mapM fun id _ => resolveStatement_keeps depth id).mono fun _ _ => trivial

theorem program_keeps (ids : List NodeId) (depth : Nat) : KeepsAll cs (program ids depth) := by
  intro r hr
  have hopened := (opening_keeps ids depth r hr).1
  obtain ⟨hstatements, -⟩ := statements_keep ids depth _ hopened
  exact ⟨{ hstatements with symbols := hstatements.symbols.pop }, trivial⟩

end Resolving

theorem Resolution.StemsFrom.start {nodes : Arena} (h : nodes.StemsFrom cs) :
    Resolution.StemsFrom { nodes := nodes } cs := by
  refine ⟨h, ?_, ⟨List.nodup_nil, by simp⟩, by simp⟩
  dsimp only
  exact .standard cs

structure Resolved.StemsFrom (R : Resolved) (cs : List Char) : Prop where
  nodes : R.patch.nodes.StemsFrom cs
  hostParams : HostParam.AreRanged R.hostParams
  findings : ∀ f ∈ R.findings, f.LiesIn cs

theorem Patch.resolve_stemsFrom {p : Patch} (h : p.nodes.StemsFrom cs) :
    p.resolve.StemsFrom cs := by
  obtain ⟨hr, -⟩ := Resolving.program_keeps p.statements (p.nodes.size + 2) _ (.start h)
  exact ⟨hr.nodes, hr.hostParams, hr.findings⟩

end SignalPatch
