import SignalPatch.Proofs.ResolvedPatch

/-!
# What steps of resolution report

Every step of resolution adds to the findings, and only findings of certain kinds: a tree may use a
name or a function wrongly, and a definition may introduce a name that is taken. So a step keeps
what was found of other kinds (`Reports.filterMap`).
-/

namespace SignalPatch

/-- Whether an issue is one of a name or of a call, and not one of where something stands. -/
def Issue.isOfUse : Issue → Bool
  | .unknownIdentifier _ | .functionAsValue _ | .unknownFunction _ | .valueCalled _
  | .patternNotText | .badPattern _
  | .hostParamName _ | .hostParamSetting _ | .rangeSwapped _ | .rangeRedeclared _ => true
  | issue => issue.isMismatch

/-- Whether an issue is one of the names that a definition introduces. -/
def Issue.isOfDefinition : Issue → Bool
  | .redefinition _ _ | .duplicateParameter _ _ => true
  | _ => false

def Finding.Misuse (f : Finding) : Prop := f.issue.isOfUse ∧ f.isError

def Finding.Misdefinition (f : Finding) : Prop := f.issue.isOfDefinition ∧ f.isError

theorem Binding.bind_misuse (callee : String) (params : Signature) (args : List (Arg NodeId))
    (span : Span) (nodes : Arena) :
    ∀ f ∈ (bind callee params args span nodes).findings, f.Misuse := by
  intro f hf
  refine ⟨?_, bind_isError _ _ _ _ _ f hf⟩
  have hissue := (bind_reports hf).1
  unfold Issue.isOfUse
  split <;> first | rfl | exact hissue

namespace Resolving

/-- A step whose findings, if any, are of the kind `Q`. -/
def Reports (Q : Finding → Prop) (x : Resolving α) : Prop :=
  ∀ r : Resolution, ∃ fs, (x.run r).2.findings = r.findings ++ fs ∧ ∀ f ∈ fs, Q f

namespace Reports

variable {Q Q' : Finding → Prop}

theorem mono {x : Resolving α} (h : Reports Q x) (hQ : ∀ f, Q f → Q' f) : Reports Q' x := by
  intro r
  obtain ⟨fs, hrun, hfs⟩ := h r
  exact ⟨fs, hrun, fun f hf => hQ f (hfs f hf)⟩

theorem silent {x : Resolving α} (h : ∀ r, (x.run r).2.findings = r.findings) : Reports Q x :=
  fun r => ⟨[], by rw [h, List.append_nil], by simp⟩

theorem pure (a : α) : Reports Q (Pure.pure a) := .silent fun _ => rfl

theorem report {issue : Issue} {span : Span} (h : Q ⟨issue, span⟩) :
    Reports Q (report issue span) :=
  fun _ => ⟨[⟨issue, span⟩], rfl, by simpa using h⟩

theorem bind {x : Resolving α} {f : α → Resolving β} (hx : Reports Q x)
    (hf : ∀ a, Reports Q (f a)) :
    Reports Q (x >>= f) := by
  intro r
  obtain ⟨fs, hrun, hfs⟩ := hx r
  obtain ⟨gs, hrun', hgs⟩ := hf (x.run r).1 (x.run r).2
  refine ⟨fs ++ gs, ?_, fun f hf => (List.mem_append.mp hf).elim (hfs f) (hgs f)⟩
  rw [run_bind, hrun', hrun, List.append_assoc]

theorem forM {f : α → Resolving PUnit} (h : ∀ x, Reports Q (f x)) (xs : List α) :
    Reports Q (xs.forM f) := by
  induction xs with
  | nil => exact .pure _
  | cons x xs ih => exact (h x).bind fun _ => ih

theorem filterMap {view : Finding → Option β} {x : Resolving α}
    (h : Reports (fun f => view f = none) x) (r : Resolution) :
    (x.run r).2.findings.filterMap view = r.findings.filterMap view := by
  obtain ⟨fs, hrun, hfs⟩ := h r
  rw [hrun, List.filterMap_append, List.filterMap_eq_nil_iff.mpr hfs, List.append_nil]

end Reports

theorem checkValue_reports (x : String) (span : Span) :
    Reports Finding.Misuse (checkValue x span) := by
  refine Reports.bind (.silent fun _ => rfl) fun symbol => ?_
  cases symbol with
  | none => exact .report ⟨rfl, rfl⟩
  | some symbol =>
    dsimp only
    split
    · exact .pure ()
    · exact .report ⟨rfl, rfl⟩

theorem readPattern_reports (i : NodeId) : Reports Finding.Misuse (readPattern i) := by
  refine Reports.bind (.silent fun _ => rfl) fun kind => ?_
  split
  · refine Reports.bind (.silent fun _ => rfl) fun span => ?_
    split
    · exact .silent fun _ => rfl
    · rename_i finding herror
      obtain ⟨m, hissue⟩ := parse_error herror
      refine .report ⟨?_, ?_⟩ <;> simp [Finding.isError, hissue, Issue.isOfUse, Issue.severity]
  · exact Reports.bind (.silent fun _ => rfl) fun span => .report ⟨rfl, rfl⟩

theorem remarks_isOfUse (params : List HostParam) (p : HostParam) (swapped : Bool) :
    ∀ issue ∈ HostParam.remarks params p swapped, issue.isOfUse := by
  intro issue hmem
  unfold HostParam.remarks at hmem
  rcases List.mem_append.mp hmem with hmem | hmem
  · split at hmem <;> simp_all [Issue.isOfUse]
  · split at hmem
    · split at hmem <;> simp_all [Issue.isOfUse]
    · cases hmem

theorem checkBuiltin_reports (callee : String) (b : Builtin) (args : List NodeId) (span : Span) :
    Reports (·.issue.isOfUse) (checkBuiltin callee b args span) := by
  unfold checkBuiltin
  split
  · exact .pure ()
  · cases args with
    | nil => exact .pure ()
    | cons i _ => exact (readPattern_reports i).mono fun _ h => h.1
  · intro r
    unfold declareHostParam
    rw [run_bind, run_get]
    dsimp only
    split
    · exact Reports.pure () r
    · split
      · split
        · exact Reports.report (Q := (·.issue.isOfUse)) rfl r
        · refine ⟨_, rfl, fun f hf => ?_⟩
          obtain ⟨issue, hissue, rfl⟩ := List.mem_map.mp hf
          exact remarks_isOfUse _ _ _ issue hissue
      · exact Reports.report (Q := (·.issue.isOfUse)) rfl r

theorem bindCall_reports (i : NodeId) (callee : String) (params : Signature)
    (args : List (Arg NodeId)) (span : Span) :
    Reports Finding.Misuse (bindCall i callee params args span) := by
  intro r
  rw [run_bindCall]
  exact ⟨_, rfl, Binding.bind_misuse callee params args span r.nodes⟩

theorem resolveCall_reports (i : NodeId) (callee : String) (args : List (Arg NodeId)) :
    Reports (·.issue.isOfUse) (resolveCall i callee args) := by
  have hbind : ∀ params span, Reports (·.issue.isOfUse) (bindCall i callee params args span) :=
    fun params span => (bindCall_reports i callee params args span).mono fun _ h => h.1
  refine Reports.bind (.silent fun _ => rfl) fun span => ?_
  refine Reports.bind (.silent fun _ => rfl) fun _ => ?_
  refine Reports.bind (.silent fun _ => rfl) fun symbol => ?_
  split
  · exact .report rfl
  · exact .report rfl
  · exact .report rfl
  · exact (hbind _ span).bind fun _ => .pure ()
  · refine (hbind _ span).bind fun values => ?_
    cases values with
    | none => exact .pure ()
    | some values => exact checkBuiltin_reports callee _ values span

theorem define_reports (symbol : Symbol) (span : Span) :
    Reports Finding.Misdefinition (define symbol span) := by
  refine Reports.bind (.silent fun _ => rfl) fun r => ?_
  split
  · exact .silent fun _ => rfl
  · exact Reports.bind (.silent fun _ => rfl) fun _ => .report ⟨rfl, rfl⟩

theorem repeatedParameters_misdefinition (function : String) (seen : List String)
    (ps : List Parameter) :
    ∀ f ∈ repeatedParameters function seen ps, f.Misdefinition := by
  induction ps generalizing seen with
  | nil => simp [repeatedParameters]
  | cons p ps ih =>
    intro f hf
    rcases List.mem_append.mp hf with hf | hf
    · split at hf
      · cases List.mem_singleton.mp hf
        exact ⟨rfl, rfl⟩
      · cases hf
    · exact ih _ f hf

theorem hoist_reports (i : NodeId) : Reports Finding.Misdefinition (hoist i) := by
  refine Reports.bind (.silent fun _ => rfl) fun kind => ?_
  split
  · refine Reports.bind (fun r => ⟨_, rfl, repeatedParameters_misdefinition _ _ _⟩) fun _ => ?_
    exact Reports.bind (.silent fun _ => rfl) fun span => define_reports _ span
  · exact .pure ()

end Resolving

end SignalPatch
