import SignalPatch.Proofs.StepReports
import SignalPatch.Token.Scan

/-!
# Names that are defined twice

The functions of a patch share one scope with the built-in functions, and its variables share
another. A definition is refused if its name is taken there, where names are told apart by their
fingerprints alone. So the redefinitions that resolution reports are the definitions whose
fingerprint came before (`redefinitions_eq`); they are those whose name came before, as long as
different names of a scope have different fingerprints.
-/

namespace SignalPatch

open Resolving

structure Naming where
  name : String
  span : Span
  deriving DecidableEq

def Statement.function? : Statement → Option Naming
  | .define name _ _ span => some ⟨name, span⟩
  | _ => none

def Statement.assignment? : Statement → Option Naming
  | .assign name _ span => some ⟨name, span⟩
  | _ => none

def Finding.refused? (f : Finding) : Option Naming :=
  match f.issue with
  | .redefinition name _ => some ⟨name, f.span⟩
  | _ => none

def Builtin.names : List String := table.map Builtin.name ++ aliases.map Prod.fst

/-! ## Definitions that repeat a name -/

/-- Those definitions whose name has the key of an earlier one, or of one of the names `taken`. -/
def repeats [DecidableEq κ] (key : String → κ) (taken : List String) : List Naming → List Naming
  | [] => []
  | d :: ds => (if key d.name ∈ taken.map key then [d] else []) ++ repeats key (d.name :: taken) ds

/-- Different names have different fingerprints. -/
def Separate (names : List String) : Prop :=
  ∀ x ∈ names, ∀ y ∈ names, Text.fingerprint x = Text.fingerprint y → x = y

instance (names : List String) : Decidable (Separate names) :=
  inferInstanceAs
    (Decidable (∀ x ∈ names, ∀ y ∈ names, Text.fingerprint x = Text.fingerprint y → x = y))

theorem repeats_fingerprint {taken : List String} {ds : List Naming}
    (h : Separate (taken ++ ds.map Naming.name)) :
    repeats Text.fingerprint taken ds = repeats id taken ds := by
  induction ds generalizing taken with
  | nil => rfl
  | cons d ds ih =>
    have hrest : Separate (d.name :: taken ++ ds.map Naming.name) := fun x hx y hy =>
      h x (List.perm_middle.symm.subset hx) y (List.perm_middle.symm.subset hy)
    have hmem : Text.fingerprint d.name ∈ taken.map Text.fingerprint ↔ d.name ∈ taken := by
      refine ⟨fun hmem => ?_, List.mem_map_of_mem⟩
      obtain ⟨x, hx, heq⟩ := List.mem_map.mp hmem
      rwa [← h x (List.mem_append_left _ hx) d.name (by simp) heq]
    simp only [repeats, ih hrest, hmem, List.map_id, id_eq]

theorem repeats_id_eq_nil_iff (taken : List String) (ds : List Naming) :
    repeats id taken ds = [] ↔ (ds.map Naming.name).Nodup ∧ ∀ d ∈ ds, d.name ∉ taken := by
  induction ds generalizing taken with
  | nil => simp [repeats]
  | cons d ds ih =>
    rw [repeats, List.append_eq_nil_iff, ih, List.map_cons, List.nodup_cons, List.forall_mem_cons]
    simp only [id_eq, List.map_id, ite_eq_right_iff, reduceCtorEq, imp_false, List.mem_cons,
      not_or, List.mem_map]
    grind

theorem filterMap_cons_toList (f : α → Option β) (x : α) (xs : List α) :
    (x :: xs).filterMap f = (f x).toList ++ xs.filterMap f := by
  cases h : f x <;> simp [h]

/-! ## Scopes and the names in them -/

/-- The innermost scope holds the fingerprints of these names and no others. -/
def SymbolTable.Holds (t : SymbolTable) (names : List String) : Prop :=
  ∀ k, (t.current.find? k).isSome ↔ k ∈ names.map Text.fingerprint

theorem SymbolTable.Holds.insert {t : SymbolTable} {names : List String} (h : t.Holds names)
    (hs : s.hash = Text.fingerprint s.name) : (t.insert s).Holds (s.name :: names) := by
  intro k
  rw [current_insert, Scope.find?_cons, List.map_cons, List.mem_cons, ← h k, ← hs]
  by_cases hk : s.hash = k
  · simp [hk]
  · simp [hk, Ne.symm hk]

theorem SymbolTable.Holds.again {t : SymbolTable} {names : List String} (h : t.Holds names)
    (hs : Text.fingerprint name ∈ names.map Text.fingerprint) : t.Holds (name :: names) := by
  intro k
  rw [h k, List.map_cons, List.mem_cons]
  exact ⟨.inr, fun hk => hk.elim (fun heq => heq ▸ hs) id⟩

theorem Scope.isSome_find?_foldl_add (symbols : List Symbol) (scope : Scope) (k : UInt32) :
    ((symbols.foldl Scope.add scope).find? k).isSome ↔
      k ∈ symbols.map Symbol.hash ∨ (scope.find? k).isSome := by
  induction symbols generalizing scope with
  | nil => simp
  | cons s symbols ih =>
    rw [List.foldl_cons, ih, List.map_cons, List.mem_cons]
    unfold Scope.add
    split
    · rename_i htaken
      by_cases hk : k = s.hash
      · subst hk
        simp [htaken]
      · simp [hk]
    · rw [Scope.find?_cons]
      by_cases hk : s.hash = k
      · simp [hk]
      · simp [hk, Ne.symm hk]

theorem standard_holds : SymbolTable.standard.Holds Builtin.names := by
  intro k
  have hhash : (SymbolTable.builtinSymbols ++ SymbolTable.aliasSymbols).map Symbol.hash =
      Builtin.names.map Text.fingerprint := by
    decide +kernel
  have hstandard : SymbolTable.standard =
      ⟨[], (SymbolTable.builtinSymbols ++ SymbolTable.aliasSymbols).foldl Scope.add []⟩ :=
        foldl_define_globals _
  rw [hstandard, ← hhash]
  generalize SymbolTable.builtinSymbols ++ SymbolTable.aliasSymbols = symbols
  exact (Scope.isSome_find?_foldl_add _ [] k).trans (or_iff_left (by simp [Scope.find?]))

/-! ## Steps -/

namespace Resolving

theorem define_refused {r : Resolution} (h : r.symbols.Holds taken) (name : String)
    (meaning : Meaning) (span : Span) :
    let r' := ((define (.of name meaning) span).run r).2
    r'.nodes = r.nodes ∧ r'.findings.filterMap Finding.refused? =
      r.findings.filterMap Finding.refused? ++
        (if Text.fingerprint name ∈ taken.map Text.fingerprint then [⟨name, span⟩] else []) ∧
      r'.symbols.Holds (name :: taken) := by
  let symbol : Symbol := { Symbol.of name meaning with definedAt := some span }
  have hdefine : r.symbols.define? symbol =
      if Text.fingerprint name ∈ taken.map Text.fingerprint then none
        else some (r.symbols.insert symbol) := by
    rw [SymbolTable.define?]
    simp only [h symbol.hash]
    rfl
  by_cases htaken : Text.fingerprint name ∈ taken.map Text.fingerprint
  · rw [if_pos htaken] at hdefine
    dsimp only
    rw [run_define_none hdefine, if_pos htaken, List.filterMap_append]
    exact ⟨rfl, rfl, h.again htaken⟩
  · rw [if_neg htaken] at hdefine
    dsimp only
    rw [run_define_some hdefine, if_neg htaken, List.append_nil]
    exact ⟨rfl, rfl, h.insert (s := symbol) rfl⟩

theorem refused?_of_isOfUse {f : Finding} (h : f.issue.isOfUse) : f.refused? = none := by
  obtain ⟨issue, span⟩ := f
  cases issue <;> first | rfl | cases h

mutual

theorem Walk.refused_eq : Walk P a e i hole r j r' →
    r'.findings.filterMap Finding.refused? = r.findings.filterMap Finding.refused?
  | .number _ _ | .bool _ _ | .text _ _ | .filled _ => rfl
  | .ident _ _ =>
    Reports.filterMap ((checkValue_reports _ _).mono fun _ hf => refused?_of_isOfUse hf.1) r
  | .unfilled _ => List.filterMap_append.trans (List.append_nil _)
  | .binary hl hr _ _ => hr.refused_eq.trans hl.refused_eq
  | .pipe hs ht _ _ => ht.refused_eq.trans hs.refused_eq
  | .refused hs _ _ _ => List.filterMap_append.trans ((List.append_nil _).trans hs.refused_eq)
  | .call hargs _ _ _ _ =>
    (Reports.filterMap ((resolveCall_reports _ _ _).mono fun _ hf => refused?_of_isOfUse hf)
      _).trans hargs.refused_eq

theorem WalkArgs.refused_eq : WalkArgs P a args ids b hole r ids' r' →
    r'.findings.filterMap Finding.refused? = r.findings.filterMap Finding.refused?
  | .nil => rfl
  | .cons hv hargs => hargs.refused_eq.trans hv.refused_eq

end

theorem repeatedParameters_refused (function : String) (seen : List String) (ps : List Parameter) :
    (repeatedParameters function seen ps).filterMap Finding.refused? = [] := by
  induction ps generalizing seen with
  | nil => rfl
  | cons p ps ih =>
    rw [repeatedParameters, List.filterMap_append, ih, List.append_nil]
    split <;> rfl

theorem hoist_refused {r : Resolution} (hs : StoredStatement r.nodes b s i)
    (h : r.symbols.Holds taken) :
    let r' := ((hoist i).run r).2
    r'.nodes = r.nodes ∧ ∃ taken', r'.symbols.Holds taken' ∧
      ∀ ds, r.findings.filterMap Finding.refused? ++ repeats Text.fingerprint taken
        (s.function?.toList ++ ds) =
        r'.findings.filterMap Finding.refused? ++ repeats Text.fingerprint taken' ds := by
  cases hs with
  | @define e body name params span hbody hnode =>
    let r₁ : Resolution := { r with findings := r.findings ++ repeatedParameters name [] params }
    have hrun := run_hoist_define hnode
    obtain ⟨hnodes, hfindings, hholds⟩ := define_refused (r := r₁) h name
      (.function ⟨name, params.map formal, body + 1⟩) span
    dsimp only
    rw [hrun]
    refine ⟨hnodes, name :: taken, hholds, fun ds => ?_⟩
    rw [hfindings, List.filterMap_append, repeatedParameters_refused,
      List.append_nil, List.append_assoc]
    rfl
  | assign hv hnode =>
    dsimp only
    rw [run_hoist_other (not_defines_assign hnode)]
    exact ⟨rfl, taken, h, fun ds => rfl⟩
  | expr he =>
    dsimp only
    rw [run_hoist_other (he.not_defines rfl)]
    exact ⟨rfl, taken, h, fun ds => rfl⟩

theorem forM_hoist_refused {P : Arena} (hs : StoredList P a ss ids) :
    ∀ (r : Resolution) (taken : List String),
    r.nodes = P → r.symbols.Holds taken →
    ((ids.forM hoist).run r).2.findings.filterMap Finding.refused? =
      r.findings.filterMap Finding.refused? ++
      repeats Text.fingerprint taken (ss.filterMap Statement.function?) := by
  induction hs with
  | nil =>
    intro r taken _ _
    exact (List.append_nil _).symm
  | @cons a b s i ss ids hab hs hrest ih =>
    rintro r taken rfl h
    obtain ⟨hnodes, taken', hholds, hrepeats⟩ := hoist_refused hs h
    rw [run_forM_cons, ih _ taken' hnodes hholds, ← hrepeats, filterMap_cons_toList]

theorem StatementWalk.refused {known : List String} (h : StatementWalk P G a s i j vars r vars' r')
    (hr : (SymbolTable.above G vars).Holds known) :
    ∃ known', (SymbolTable.above G vars').Holds known' ∧
      ∀ ds, r.findings.filterMap Finding.refused? ++ repeats Text.fingerprint known
        (s.assignment?.toList ++ ds) =
        r'.findings.filterMap Finding.refused? ++ repeats Text.fingerprint known' ds := by
  have hmem : ∀ x, (vars.find? (Text.fingerprint x)).isSome ↔
      Text.fingerprint x ∈ known.map Text.fingerprint :=
    fun x => hr _
  cases h with
  | define _ _ _ => exact ⟨known, hr, fun ds => rfl⟩
  | @assign _ _ _ _ _ _ x span _ hfree hv _ _ =>
    have hnew : Text.fingerprint x ∉ known.map Text.fingerprint := by simp [← hmem, hfree]
    refine ⟨x :: known, hr.insert (s := variableSymbol x span) rfl, fun ds => ?_⟩
    rw [hv.refused_eq]
    exact congrArg (_ ++ ·) (congrArg (· ++ repeats Text.fingerprint (x :: known) ds) (if_neg hnew))
  | @taken _ _ _ _ _ _ _ x span _ htaken hv _ _ =>
    have hold : Text.fingerprint x ∈ known.map Text.fingerprint := by simp [← hmem, htaken]
    refine ⟨x :: known, hr.again hold, fun ds => ?_⟩
    rw [List.filterMap_append, hv.refused_eq, List.append_assoc]
    exact congrArg (_ ++ ·) (congrArg (· ++ repeats Text.fingerprint (x :: known) ds) (if_pos hold))
  | expr he =>
    refine ⟨known, hr, fun ds => ?_⟩
    rw [he.refused_eq]
    rfl

theorem StatementWalks.refused (h : StatementWalks P G a ss ids ids' vars r vars' r')
    (hr : (SymbolTable.above G vars).Holds taken) :
    r'.findings.filterMap Finding.refused? = r.findings.filterMap Finding.refused? ++
      repeats Text.fingerprint taken (ss.filterMap Statement.assignment?) := by
  induction h generalizing taken with
  | nil => exact (List.append_nil _).symm
  | cons _ hfirst _ ih =>
    obtain ⟨taken', hholds, hrepeats⟩ := hfirst.refused hr
    rw [ih hholds, ← hrepeats, filterMap_cons_toList]

theorem BodyWalks.refused (h : BodyWalks P G a ss ids r r') :
    r'.findings.filterMap Finding.refused? = r.findings.filterMap Finding.refused? := by
  induction h with
  | nil => rfl
  | cons _ hfirst _ ih =>
    rw [ih]
    cases hfirst with
    | define _ hbody _ _ => exact hbody.refused_eq
    | assign _ _ | expr _ => rfl

end Resolving

/-- The redefinitions that are reported, in order, by fingerprint. -/
theorem redefinitions_eq (tokens : List Token) :
    (parse tokens).patch.resolve.findings.filterMap Finding.refused? =
      repeats Text.fingerprint Builtin.names
        ((Grammar.statements tokens).filterMap Statement.function?) ++
        repeats Text.fingerprint []
          ((Grammar.statements tokens).filterMap Statement.assignment?) := by
  have hstored := parse_stored tokens
  obtain ⟨G, vars, r₁, r₂, r₃, hrun⟩ := Patch.resolve_run hstored
  let r₀ : Resolution := { nodes := (parse tokens).patch.nodes }
  have hstart : r₀.symbols.Holds Builtin.names := by
    dsimp only [r₀]
    exact standard_holds
  have hfunctions := forM_hoist_refused hstored r₀ Builtin.names rfl hstart
  have hempty : SymbolTable.Holds (.above G []) [] := fun k => by
    simp [SymbolTable.current, SymbolTable.above, Scope.find?]
  have hvariables := hrun.statements.refused hempty
  rw [hrun.hoisted] at hfunctions
  rw [hrun.findings, hvariables, show _ = _ from hrun.bodies.refused, hfunctions]
  rfl

/-- Resolution refuses a function whose fingerprint is that of a built-in function or of an earlier
function, and a variable whose fingerprint is that of an earlier variable, and no other definition.
If different names of a scope have different fingerprints, these are the repeated names, and nothing
is refused if there are none. -/
theorem resolve_refuses_repeats (tokens : List Token) :
    let functions := (Grammar.statements tokens).filterMap Statement.function?
    let assignments := (Grammar.statements tokens).filterMap Statement.assignment?
    let refused := (parse tokens).patch.resolve.findings.filterMap Finding.refused?
    refused = repeats Text.fingerprint Builtin.names functions ++
      repeats Text.fingerprint [] assignments ∧
      (Separate (Builtin.names ++ functions.map Naming.name) →
        repeats Text.fingerprint Builtin.names functions = repeats id Builtin.names functions ∧
          (repeats id Builtin.names functions = [] ↔
            (functions.map Naming.name).Nodup ∧ ∀ d ∈ functions, d.name ∉ Builtin.names)) ∧
      (Separate (assignments.map Naming.name) →
        repeats Text.fingerprint [] assignments = repeats id [] assignments ∧
          (repeats id [] assignments = [] ↔ (assignments.map Naming.name).Nodup)) := by
  refine ⟨redefinitions_eq tokens, fun h => ?_, fun h => ?_⟩
  · exact ⟨repeats_fingerprint h, repeats_id_eq_nil_iff _ _⟩
  · refine ⟨repeats_fingerprint h, (repeats_id_eq_nil_iff _ _).trans ?_⟩
    simp

def repeatedNames : String := "fn up(x) -> x + 1\nfn up(x) -> x + 2\na = up(1)\nb = a\na = up(b)"

theorem repeatedNames_refused :
    let tokens := (scan repeatedNames).tokens
    let functions := (Grammar.statements tokens).filterMap Statement.function?
    let assignments := (Grammar.statements tokens).filterMap Statement.assignment?
    Separate (Builtin.names ++ functions.map Naming.name) ∧ Separate (assignments.map Naming.name) ∧
      (parse tokens).patch.resolve.findings.filterMap Finding.refused? =
        [⟨"up", ⟨2, 1, 18, 17⟩⟩, ⟨"a", ⟨5, 1, 52, 9⟩⟩] := by
  have hscan : scan repeatedNames = .ofChars _ := congrArg Scan.ofChars String.toList_ofList
  have hfunctions : Separate (Builtin.names ++
      ((Grammar.statements (scan repeatedNames).tokens).filterMap Statement.function?).map
        Naming.name) := by
    rw [hscan]
    decide +kernel
  have hvariables : Separate
      (((Grammar.statements (scan repeatedNames).tokens).filterMap Statement.assignment?).map
        Naming.name) := by
    rw [hscan]
    decide +kernel
  obtain ⟨hrefused, hbyFunction, hbyVariable⟩ := resolve_refuses_repeats (scan repeatedNames).tokens
  refine ⟨hfunctions, hvariables, hrefused.trans ?_⟩
  rw [(hbyFunction hfunctions).1, (hbyVariable hvariables).1, hscan]
  decide +kernel

/-- Two variables with different names and one fingerprint: the second is refused. -/
theorem collidingNames_refused :
    let tokens := (scan "glbvs = 1\nyacxa = 2").tokens
    ((Grammar.statements tokens).filterMap Statement.assignment?).map Naming.name =
      ["glbvs", "yacxa"] ∧
      (parse tokens).patch.resolve.findings.filterMap Finding.refused? =
        [⟨"yacxa", ⟨2, 1, 10, 9⟩⟩] := by
  have hscan : scan "glbvs = 1\nyacxa = 2" = .ofChars _ :=
    congrArg Scan.ofChars String.toList_ofList
  dsimp only
  rw [hscan]
  decide +kernel

end SignalPatch
