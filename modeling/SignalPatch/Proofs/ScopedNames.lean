import Mathlib.Logic.Function.Basic
import SignalPatch.Proofs.ProgramCheck

/-!
# Symbol tables as scopes of names

A symbol table files symbols under the fingerprints of their names, and two names may have one
fingerprint. In `NameScopes` each open scope is a map from names to symbols. Whatever is done to
the table that every patch starts from, it answers as these maps do (`symbolTable_scoped`).
-/

namespace SignalPatch

/-! ## Operations -/

/-- A symbol under the fingerprint of its name: any such symbol, or one of those that patches
define. -/
inductive Definition where
  | ofSymbol (s : Symbol) (filed : s.hash = Text.fingerprint s.name)
  | ofVariable (name : String) (buffer : Buffer)
  | ofParameter (name : String) (buffer : Buffer)
  | ofFunction (f : Function) (span : Span)

namespace Definition

def symbol : Definition → Symbol
  | .ofSymbol s _ => s
  | .ofVariable name buffer => .ofVariable name buffer
  | .ofParameter name buffer => .ofParameter name buffer
  | .ofFunction f span => .ofFunction f span

theorem hash_symbol (d : Definition) : d.symbol.hash = Text.fingerprint d.symbol.name := by
  cases d with
  | ofSymbol s filed => exact filed
  | ofVariable | ofParameter | ofFunction => rfl

end Definition

/-- What can be done to a symbol table. -/
inductive ScopeOp where
  | push
  | pop
  | define (d : Definition)
  | setBuffer (name : String) (buffer : Buffer)

namespace SymbolTable

def apply (t : SymbolTable) : ScopeOp → SymbolTable
  | .push => t.push
  | .pop => t.pop
  | .define d => t.define d.symbol
  | .setBuffer name buffer => t.setBuffer name buffer

def run (t : SymbolTable) (ops : List ScopeOp) : SymbolTable := ops.foldl apply t

end SymbolTable

/-! ## Scopes of names -/

abbrev Bindings := String → Option Symbol

abbrev NameScopes := List Bindings

/-- Some name is bound to a symbol with this fingerprint. -/
def Bindings.Taken (b : Bindings) (hash : UInt32) : Prop := ∃ n s, b n = some s ∧ s.hash = hash

namespace NameScopes

def push (m : NameScopes) : NameScopes := (fun _ => none) :: m

def pop : NameScopes → NameScopes
  | _ :: b :: m => b :: m
  | m => m

open Classical in
/-- Binds the name of a symbol in the innermost scope, unless the fingerprint is taken there. -/
noncomputable def define (s : Symbol) : NameScopes → NameScopes
  | [] => []
  | b :: m => if b.Taken s.hash then b :: m else Function.update b s.name (some s) :: m

def setBuffer (name : String) (buffer : Buffer) : NameScopes → NameScopes
  | [] => []
  | b :: m =>
    match b name with
    | some s => Function.update b name (some { s with buffer }) :: m
    | none => b :: setBuffer name buffer m

def lookup (m : NameScopes) (name : String) : Option Symbol := m.findSome? (· name)

noncomputable def apply (m : NameScopes) : ScopeOp → NameScopes
  | .push => m.push
  | .pop => m.pop
  | .define d => m.define d.symbol
  | .setBuffer name buffer => m.setBuffer name buffer

noncomputable def run (m : NameScopes) (ops : List ScopeOp) : NameScopes := ops.foldl apply m

def standard : NameScopes := [fun n => (Builtin.find? n).map fun b => .of n (.builtin b)]

theorem setBuffer_append {inner outer : NameScopes} {b : Bindings}
    (hinner : ∀ c ∈ inner, c n = none) (hs : b n = some s) (buffer : Buffer) :
    setBuffer n buffer (inner ++ b :: outer) =
      inner ++ Function.update b n (some { s with buffer }) :: outer := by
  induction inner with
  | nil => simp [setBuffer, hs]
  | cons c inner ih =>
    rw [List.cons_append, setBuffer, hinner c (by simp), ih fun c hc => hinner c (by simp [hc])]
    rfl

theorem setBuffer_of_none {m : NameScopes} (h : m.lookup n = none) (buffer : Buffer) :
    m.setBuffer n buffer = m := by
  induction m with
  | nil => rfl
  | cons b m ih =>
    obtain ⟨hb, hm⟩ := List.forall_mem_cons.mp (List.findSome?_eq_none_iff.mp h)
    rw [setBuffer, hb, ih (List.findSome?_eq_none_iff.mpr hm)]

end NameScopes

/-! ## One scope -/

namespace Scope

theorem isSome_find?_iff {scope : Scope} {hash : UInt32} :
    (scope.find? hash).isSome ↔ ∃ s ∈ scope, s.hash = hash := by
  simp [find?, List.find?_isSome]

theorem Filed.named?_eq_some_iff {scope : Scope} (h : scope.Filed) :
    scope.named? n = some s ↔ s ∈ scope ∧ s.name = n :=
  ⟨named?_eq_some, fun ⟨hs, hn⟩ => hn ▸ h.named?_mem hs⟩

theorem Filed.taken_iff {scope : Scope} {hash : UInt32} (h : scope.Filed) :
    Bindings.Taken scope.named? hash ↔ ∃ s ∈ scope, s.hash = hash := by
  constructor
  · rintro ⟨n, s, hs, hhash⟩
    exact ⟨s, (named?_eq_some hs).1, hhash⟩
  · rintro ⟨s, hs, hhash⟩
    exact ⟨s.name, s, h.named?_mem hs, hhash⟩

theorem named?_cons {scope : Scope} (hs : s.hash = Text.fingerprint s.name)
    (hfree : scope.find? s.hash = none) :
    Scope.named? (s :: scope) = Function.update scope.named? s.name (some s) := by
  funext n
  by_cases hn : n = s.name
  · subst hn
    simp [named?, find?_cons, hs]
  · rw [Function.update_of_ne hn, named?, find?_cons, named?]
    by_cases hhash : s.hash = Text.fingerprint n
    · -- another name with the same fingerprint: neither scope has it
      rw [if_pos hhash, ← hhash, hfree]
      simp [Option.filter, Ne.symm hn]
    · rw [if_neg hhash]

def withBuffer (scope : Scope) (s : Symbol) (buffer : Buffer) : Scope :=
  scope.map fun s' => if s' = s then { s with buffer } else s'

theorem Filed.modify_eq {scope : Scope} (h : scope.Filed) (hs : scope.named? n = some s)
    (buffer : Buffer) :
    scope.modify (Text.fingerprint n) (fun s => { s with buffer }) = scope.withBuffer s buffer := by
  obtain ⟨hfound, -⟩ := Option.filter_eq_some_iff.mp hs
  have hhash : s.hash = Text.fingerprint n := by simpa using List.find?_some hfound
  refine List.map_congr_left fun s' hs' => ?_
  by_cases heq : s' = s
  · simp [heq, hhash]
  · have hne : s'.hash ≠ Text.fingerprint n := by
      intro hhash'
      rw [← hhash', Filed.find?_mem h.distinct hs'] at hfound
      exact heq (by simpa using hfound)
    simp [heq, hne]

theorem Filed.withBuffer {scope : Scope} (h : scope.Filed) (s : Symbol) (buffer : Buffer) :
    (scope.withBuffer s buffer).Filed := by
  have hkept : ∀ s', (if s' = s then { s with buffer } else s').hash = s'.hash ∧
      (if s' = s then { s with buffer } else s').name = s'.name := by
    intro s'
    by_cases heq : s' = s <;> simp [heq]
  refine ⟨List.pairwise_map.mpr (h.distinct.imp fun {x y} hne => ?_), fun s' hs' => ?_⟩
  · rwa [(hkept x).1, (hkept y).1]
  · obtain ⟨x, hx, rfl⟩ := List.mem_map.mp hs'
    rw [(hkept x).1, (hkept x).2]
    exact h.hash x hx

theorem Filed.named?_withBuffer {scope : Scope} (h : scope.Filed) (hs : scope.named? n = some s)
    (buffer : Buffer) :
    (scope.withBuffer s buffer).named? =
      Function.update scope.named? n (some { s with buffer }) := by
  obtain ⟨hmem, hname⟩ := named?_eq_some hs
  have hchanged := h.withBuffer s buffer
  funext m
  by_cases hm : m = n
  · subst hm
    rw [Function.update_self]
    have := hchanged.named?_mem (List.mem_map.mpr ⟨s, hmem, if_pos rfl⟩)
    simpa [hname] using this
  · rw [Function.update_of_ne hm]
    refine Option.ext fun s' => ?_
    rw [hchanged.named?_eq_some_iff, h.named?_eq_some_iff]
    constructor
    · rintro ⟨hs', rfl⟩
      obtain ⟨x, hx, rfl⟩ := List.mem_map.mp hs'
      by_cases heq : x = s
      · exact absurd (by simp [heq, hname]) hm
      · simpa [heq] using hx
    · rintro ⟨hs', rfl⟩
      have heq : s' ≠ s := fun heq => hm (heq ▸ hname)
      exact ⟨List.mem_map.mpr ⟨s', hs', if_neg heq⟩, rfl⟩

end Scope

/-! ## Stacks of scopes -/

namespace SymbolTable

theorem scopes_eq_cons (t : SymbolTable) : t.scopes = t.current :: t.scopes.tail := by
  unfold scopes current
  cases t.inner <;> rfl

theorem scopes_define (t : SymbolTable) (s : Symbol) :
    (t.define s).scopes = t.current.add s :: t.scopes.tail := by
  unfold define define? Scope.add
  split
  · exact t.scopes_eq_cons
  · unfold insert scopes current
    cases t.inner <;> rfl

theorem modifyIn_append (n : String) (f : Symbol → Symbol) (xs ys : List Scope) :
    modifyIn n f (xs ++ ys) =
      if xs.any fun scope => (scope.named? n).isSome then modifyIn n f xs ++ ys
      else xs ++ modifyIn n f ys := by
  induction xs with
  | nil => rfl
  | cons scope xs ih =>
    rw [List.cons_append, modifyIn, List.any_cons, modifyIn]
    cases (scope.named? n).isSome with
    | true => rfl
    | false =>
      simp only [Bool.false_eq_true, ↓reduceIte, Bool.false_or, ih]
      split <;> rfl

theorem scopes_modify (t : SymbolTable) (n : String) (f : Symbol → Symbol) :
    (t.modify n f).scopes = modifyIn n f t.scopes := by
  unfold modify scopes
  rw [modifyIn_append]
  split
  · rfl
  · rw [modifyIn, modifyIn]
    split <;> rfl

theorem lookup_eq_some_iff {t : SymbolTable} : t.lookup n = some s ↔
    ∃ inner scope outer, t.scopes = inner ++ scope :: outer ∧ Scope.named? scope n = some s ∧
      ∀ c ∈ inner, Scope.named? c n = none :=
  List.findSome?_eq_some_iff

def Filed (t : SymbolTable) : Prop := ∀ scope ∈ t.scopes, Scope.Filed scope

theorem Filed.scopes_setBuffer {t : SymbolTable} (h : t.Filed) {inner outer : List Scope}
    (hscopes : t.scopes = inner ++ scope :: outer) (hs : Scope.named? scope n = some s)
    (hinner : ∀ c ∈ inner, Scope.named? c n = none) (buffer : Buffer) :
    (t.setBuffer n buffer).scopes = inner ++ Scope.withBuffer scope s buffer :: outer := by
  have hnone : (inner.any fun c => (c.named? n).isSome) = false :=
    List.any_eq_false.mpr fun c hc => by simp [hinner c hc]
  have hfiled := h scope (by simp [hscopes])
  rw [setBuffer, scopes_modify, hscopes, modifyIn_append, hnone, modifyIn, hs]
  simp [hfiled.modify_eq hs]

theorem setBuffer_of_none {t : SymbolTable} (h : t.lookup n = none) (buffer : Buffer) :
    t.setBuffer n buffer = t := by
  have hnone : ∀ c ∈ t.scopes, Scope.named? c n = none := List.findSome?_eq_none_iff.mp h
  have hinner : (t.inner.any fun c => (c.named? n).isSome) = false :=
    List.any_eq_false.mpr fun c hc => by simp [hnone c (by simp [scopes, hc])]
  rw [setBuffer, modify, hinner, hnone t.globals (by simp [scopes])]
  rfl

/-! ## The same answers -/

def names (t : SymbolTable) : NameScopes := t.scopes.map Scope.named?

theorem lookup_names (t : SymbolTable) (n : String) : t.names.lookup n = t.lookup n := by
  unfold names NameScopes.lookup lookup
  rw [List.findSome?_map]
  rfl

theorem length_names (t : SymbolTable) : t.names.length = t.depth := by
  simp [names, scopes, depth]

theorem names_eq_cons (t : SymbolTable) :
    t.names = t.current.named? :: t.scopes.tail.map Scope.named? := by
  rw [names, scopes_eq_cons]
  rfl

theorem names_pop (t : SymbolTable) : t.pop.names = t.names.pop := by
  obtain ⟨inner, globals⟩ := t
  cases inner with
  | nil => rfl
  | cons scope inner => cases inner <;> rfl

theorem Filed.names_define {t : SymbolTable} (h : t.Filed) (hs : s.hash = Text.fingerprint s.name) :
    (t.define s).names = t.names.define s := by
  have hcurrent : t.current.Filed := h _ (by rw [scopes_eq_cons]; simp)
  rw [names, scopes_define, names_eq_cons, NameScopes.define, List.map_cons, hcurrent.taken_iff,
    ← Scope.isSome_find?_iff, Scope.add]
  split
  · rfl
  · rename_i hfree
    rw [Scope.named?_cons hs (by simpa using hfree)]

theorem Filed.names_setBuffer {t : SymbolTable} (h : t.Filed) (n : String) (buffer : Buffer) :
    (t.setBuffer n buffer).names = t.names.setBuffer n buffer := by
  cases hs : t.lookup n with
  | none =>
    rw [setBuffer_of_none hs, NameScopes.setBuffer_of_none (by rw [lookup_names, hs])]
  | some s =>
    obtain ⟨inner, scope, outer, hscopes, hs, hinner⟩ := lookup_eq_some_iff.mp hs
    have hfiled := h scope (by simp [hscopes])
    rw [names, h.scopes_setBuffer hscopes hs hinner, names, hscopes,
      List.map_append, List.map_append, List.map_cons, List.map_cons, hfiled.named?_withBuffer hs,
      NameScopes.setBuffer_append (by simpa using hinner) hs]

/-- One operation changes the maps of the scopes as it changes scopes of names. -/
theorem Filed.names_apply {t : SymbolTable} (h : t.Filed) (op : ScopeOp) :
    (t.apply op).names = t.names.apply op := by
  cases op with
  | push => rfl
  | pop => exact t.names_pop
  | define d => exact h.names_define d.hash_symbol
  | setBuffer name buffer => exact h.names_setBuffer name buffer

theorem Filed.apply {t : SymbolTable} (h : t.Filed) (op : ScopeOp) : (t.apply op).Filed := by
  cases op with
  | push => exact List.forall_mem_cons.mpr ⟨.nil, h⟩
  | pop =>
    intro scope hscope
    refine h scope ?_
    simp only [SymbolTable.apply, SymbolTable.pop, scopes, List.mem_append] at hscope ⊢
    exact hscope.imp_left List.mem_of_mem_tail
  | define d =>
    have hscopes := t.scopes_eq_cons
    have hcurrent : t.current.Filed := h _ (by rw [hscopes]; simp)
    intro scope hscope
    rw [SymbolTable.apply, scopes_define] at hscope
    rcases List.mem_cons.mp hscope with rfl | hscope
    · exact hcurrent.add d.hash_symbol
    · exact h scope (List.mem_of_mem_tail hscope)
  | setBuffer name buffer =>
    cases hs : t.lookup name with
    | none =>
      rw [SymbolTable.apply, setBuffer_of_none hs]
      exact h
    | some s =>
      obtain ⟨inner, scope, outer, hscopes, hs, hinner⟩ := lookup_eq_some_iff.mp hs
      unfold Filed at h ⊢
      rw [SymbolTable.apply, Filed.scopes_setBuffer h hscopes hs hinner]
      simp only [hscopes, List.forall_mem_append, List.forall_mem_cons] at h ⊢
      exact ⟨h.1, h.2.1.withBuffer s buffer, h.2.2⟩

theorem run_cons (t : SymbolTable) (op : ScopeOp) (ops : List ScopeOp) :
    t.run (op :: ops) = (t.apply op).run ops := rfl

theorem run_append (t : SymbolTable) (ops ops' : List ScopeOp) :
    t.run (ops ++ ops') = (t.run ops).run ops' := List.foldl_append

theorem Filed.run {t : SymbolTable} (h : t.Filed) (ops : List ScopeOp) : (t.run ops).Filed := by
  induction ops generalizing t with
  | nil => exact h
  | cons op ops ih => exact ih (h.apply op)

theorem Filed.names_run {t : SymbolTable} (h : t.Filed) (ops : List ScopeOp) :
    (t.run ops).names = t.names.run ops := by
  induction ops generalizing t with
  | nil => rfl
  | cons op ops ih => rw [run_cons, ih (h.apply op), h.names_apply op]; rfl

/-! ## Built-in functions -/

def KnowsBuiltins (t : SymbolTable) : Prop :=
  ∀ n b, Builtin.find? n = some b → ∃ s ∈ t.globals, s.name = n ∧ s.meaning = .builtin b

theorem globals_define (t : SymbolTable) (s : Symbol) :
    (t.define s).globals = t.globals ∨ (t.define s).globals = s :: t.globals := by
  unfold define define? insert
  split
  · exact .inl rfl
  · cases t.inner with
    | nil => exact .inr rfl
    | cons => exact .inl rfl

theorem globals_modify (t : SymbolTable) (n : String) (f : Symbol → Symbol) :
    (t.modify n f).globals = t.globals ∨
      (t.modify n f).globals = t.globals.modify (Text.fingerprint n) f := by
  unfold modify
  split
  · exact .inl rfl
  · split
    · exact .inr rfl
    · exact .inl rfl

theorem KnowsBuiltins.apply {t : SymbolTable} (h : t.KnowsBuiltins) (op : ScopeOp) :
    (t.apply op).KnowsBuiltins := by
  intro n b hb
  obtain ⟨s, hs, hn, hm⟩ := h n b hb
  cases op with
  | push | pop => exact ⟨s, hs, hn, hm⟩
  | define d =>
    refine ⟨s, ?_, hn, hm⟩
    rcases t.globals_define d.symbol with heq | heq <;> rw [SymbolTable.apply, heq]
    · exact hs
    · exact List.mem_cons_of_mem _ hs
  | setBuffer name buffer =>
    rcases t.globals_modify name fun s => { s with buffer } with heq | heq <;>
      rw [SymbolTable.apply, setBuffer, heq]
    · exact ⟨s, hs, hn, hm⟩
    · refine ⟨_, List.mem_map_of_mem hs, ?_, ?_⟩ <;> split <;> assumption

theorem KnowsBuiltins.run {t : SymbolTable} (h : t.KnowsBuiltins) (ops : List ScopeOp) :
    (t.run ops).KnowsBuiltins := by
  induction ops generalizing t with
  | nil => exact h
  | cons op ops ih => exact ih (h.apply op)

theorem standard_symbol : ∀ s ∈ standard.globals,
    (Builtin.find? s.name).map (fun b => .of s.name (.builtin b)) = some s := by
  decide +kernel

theorem filed_standard : standard.Filed := by
  obtain ⟨G, heq, hG⟩ := standard_globals #[] []
  rw [heq]
  exact fun scope hscope => List.mem_singleton.mp hscope ▸ hG.filed

theorem names_standard : standard.names = NameScopes.standard := by
  have hglobals : standard.globals.Filed := filed_standard _ (by simp [scopes])
  have hinner : standard.inner = [] := by
    obtain ⟨G, heq, -⟩ := standard_globals #[] []
    rw [heq]
  have hnames : standard.globals.named? = fun n => (Builtin.find? n).map fun b =>
      .of n (.builtin b) := by
    funext n
    refine Option.ext fun s => ?_
    rw [hglobals.named?_eq_some_iff]
    constructor
    · rintro ⟨hs, rfl⟩
      exact standard_symbol s hs
    · intro hs
      obtain ⟨b, hb, rfl⟩ := Option.map_eq_some_iff.mp hs
      obtain ⟨s, hmem, rfl, -⟩ := standard_builtin hb
      have heq := standard_symbol s hmem
      rw [hb, Option.map_some, Option.some_inj] at heq
      exact ⟨heq ▸ hmem, rfl⟩
  rw [names, scopes, hinner, List.nil_append, List.map_singleton, hnames]
  rfl

/-! ## Blocks -/

/-- Every scope that is opened is closed, and no other. -/
inductive Balanced : List ScopeOp → Prop
  | nil : Balanced []
  | define (d : Definition) : Balanced ops → Balanced (.define d :: ops)
  | setBuffer (name : String) (buffer : Buffer) : Balanced ops →
      Balanced (.setBuffer name buffer :: ops)
  | block : Balanced body → Balanced ops → Balanced (.push :: (body ++ .pop :: ops))

theorem Balanced.run_above (h : Balanced ops) (hkeep : ∀ n buffer, .setBuffer n buffer ∉ ops)
    (scope : Scope) (inner : List Scope) (globals : Scope) :
    ∃ scope', run ⟨scope :: inner, globals⟩ ops = ⟨scope' :: inner, globals⟩ := by
  induction h generalizing scope inner with
  | nil => exact ⟨scope, rfl⟩
  | define d _ ih =>
    have hdefine : ∃ scope',
        SymbolTable.define ⟨scope :: inner, globals⟩ d.symbol = ⟨scope' :: inner, globals⟩ := by
      unfold SymbolTable.define define? insert
      split
      · exact ⟨_, rfl⟩
      · exact ⟨_, rfl⟩
    obtain ⟨scope', hscope'⟩ := hdefine
    rw [run_cons, apply, hscope']
    exact ih (fun n buffer hmem => hkeep n buffer (List.mem_cons_of_mem _ hmem)) scope' inner
  | setBuffer name buffer => exact absurd (List.mem_cons_self ..) (hkeep name buffer)
  | block _ _ ihBody ihOps =>
    simp only [List.mem_cons, List.mem_append, not_or] at hkeep
    obtain ⟨inside, hinside⟩ := ihBody (fun n buffer => (hkeep n buffer).2.1) [] (scope :: inner)
    rw [run_cons, run_append, apply, push, hinside]
    exact ihOps (fun n buffer => (hkeep n buffer).2.2.2) scope inner

theorem Balanced.run_block (h : Balanced body) (hkeep : ∀ n buffer, .setBuffer n buffer ∉ body)
    (t : SymbolTable) : t.run (.push :: (body ++ [.pop])) = t := by
  obtain ⟨inside, hinside⟩ := h.run_above hkeep [] t.inner t.globals
  rw [run_cons, run_append, apply, push, hinside]
  rfl

/-! ## Symbol tables answer as scopes of names do -/

/-- A table answers, and does what is asked of it, as the scopes of names `m` do. -/
structure ScopedAs (t : SymbolTable) (m : NameScopes) : Prop where
  depth : t.depth = m.length
  depth_pos : 1 ≤ t.depth
  /-- A definition is refused exactly if its fingerprint is taken in the innermost scope. -/
  define_none : ∀ s, t.define? s = none ↔ ∃ s' ∈ t.current, s'.hash = s.hash
  define_refused : ∀ s, t.define? s = none → t.define s = t
  define_added : ∀ s t', t.define? s = some t' → t.define s = t' ∧ t'.current = s :: t.current
  lookup : ∀ n, t.lookup n = m.lookup n
  lookup_name : ∀ n s, t.lookup n = some s → s.name = n
  isDefinedHere : ∀ n, t.isDefinedHere n = true ↔ ∃ b ∈ m.head?, (b n).isSome
  /-- What is changed through a name is the symbol that the name finds, where it is found. -/
  setBuffer_some : ∀ n s buffer, t.lookup n = some s → ∃ inner scope outer,
    t.scopes = inner ++ scope :: outer ∧ (∀ c ∈ inner, ∀ s' ∈ c, s'.name ≠ n) ∧ s ∈ scope ∧
      (t.setBuffer n buffer).scopes = inner ++ scope.withBuffer s buffer :: outer
  setBuffer_none : ∀ n buffer, t.lookup n = none → t.setBuffer n buffer = t
  builtin : ∀ n b, t.depth = 1 → Builtin.find? n = some b →
    ∃ s, t.lookup n = some s ∧ s.meaning = .builtin b
  restored : ∀ body, Balanced body → (∀ n buffer, .setBuffer n buffer ∉ body) →
    t.run (.push :: (body ++ [.pop])) = t

theorem define?_eq_none_iff {t : SymbolTable} {s : Symbol} :
    t.define? s = none ↔ ∃ s' ∈ t.current, s'.hash = s.hash := by
  rw [← Scope.isSome_find?_iff, define?]
  split <;> simp_all

theorem Filed.scopedAs {t : SymbolTable} (h : t.Filed) (hbuiltins : t.KnowsBuiltins) :
    t.ScopedAs t.names where
  depth := t.length_names.symm
  depth_pos := Nat.le_add_left ..
  define_none _ := define?_eq_none_iff
  define_refused s hs := by rw [SymbolTable.define, hs]; rfl
  define_added s t' hs := by
    refine ⟨by rw [SymbolTable.define, hs]; rfl, ?_⟩
    unfold define? at hs
    split at hs
    · cases hs
    · cases hs
      exact t.current_insert s
  lookup n := (t.lookup_names n).symm
  lookup_name n s hs := by
    obtain ⟨inner, scope, outer, -, hs, -⟩ := lookup_eq_some_iff.mp hs
    exact (Scope.named?_eq_some hs).2
  isDefinedHere n := by
    rw [names_eq_cons]
    simp [SymbolTable.isDefinedHere]
  setBuffer_some n s buffer hs := by
    obtain ⟨inner, scope, outer, hscopes, hs, hinner⟩ := lookup_eq_some_iff.mp hs
    refine ⟨inner, scope, outer, hscopes, fun c hc s' hs' hn => ?_, (Scope.named?_eq_some hs).1,
      h.scopes_setBuffer hscopes hs hinner buffer⟩
    -- In a filed scope each symbol is found by its name, so none of this name lies further in.
    have hfound := (h c (by simp [hscopes, hc])).named?_mem hs'
    rw [hn, hinner c hc] at hfound
    cases hfound
  setBuffer_none n buffer hs := setBuffer_of_none hs buffer
  builtin n b hdepth hb := by
    obtain ⟨s, hs, rfl, hm⟩ := hbuiltins n b hb
    have hinner : t.inner = [] := by simpa [SymbolTable.depth] using hdepth
    have hscopes : t.scopes = [t.globals] := by rw [scopes, hinner]; rfl
    have hfound := (h t.globals (by simp [hscopes])).named?_mem hs
    exact ⟨s, by rw [SymbolTable.lookup, hscopes]; simp [hfound], hm⟩
  restored body hbody hkeep := hbody.run_block hkeep t

/-- Whatever is done to the table that every patch starts from, in whatever order, it keeps to the
scopes of names to which the same is done, although it files by fingerprints. -/
theorem symbolTable_scoped (ops : List ScopeOp) :
    (standard.run ops).ScopedAs (NameScopes.standard.run ops) := by
  have hbuiltins : standard.KnowsBuiltins := fun n b hb => standard_builtin hb
  rw [← names_standard, ← filed_standard.names_run ops]
  exact (filed_standard.run ops).scopedAs (hbuiltins.run ops)

-- Two names with one fingerprint: in one scope the second cannot be defined, in another one it can.
example :
    let liquid := ScopeOp.define (.ofVariable "liquid" 1)
    let costarring := ScopeOp.define (.ofVariable "costarring" 2)
    ((standard.run [liquid, costarring]).lookup "costarring").map Symbol.buffer = none ∧
    ((standard.run [liquid, .push, costarring]).lookup "costarring").map Symbol.buffer = some 2 ∧
    ((standard.run [liquid, .push, costarring]).lookup "liquid").map Symbol.buffer = some 1 := by
  decide +kernel

end SymbolTable

end SignalPatch
