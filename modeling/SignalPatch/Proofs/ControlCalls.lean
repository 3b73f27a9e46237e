import SignalPatch.Proofs.CallGraph
import SignalPatch.Proofs.CallPlaces
import SignalPatch.Proofs.Reading

/-!
# The calls that ask for host parameters

`Expr.controlSpans` lists the calls of a tree that ask the host for a parameter, as they are written
one behind the other. Their places are places of tokens in the same order (`Reads.controls`), so
they come in the order of the text (`controls_ordered`). In a tree without errors each of these
calls declares one host parameter, and nothing else does (`Expr.Checks.declarations`).
-/

namespace SignalPatch

def isControl (callee : String) : Bool :=
  (Builtin.find? callee).any fun b => b.kind matches .control _

mutual

/-- Where the tree asks for host parameters. -/
def Expr.controlSpans : Expr → List Span
  | .binary _ lhs rhs _ => lhs.controlSpans ++ rhs.controlSpans
  | .pipe source target _ => source.controlSpans ++ target.controlSpans
  | .call callee args span => (if isControl callee then [span] else []) ++ argControlSpans args
  | _ => []

def argControlSpans : List (Arg Expr) → List Span
  | [] => []
  | ⟨_, value, _⟩ :: args => value.controlSpans ++ argControlSpans args

end

def Expr.controlOffsets (e : Expr) : List Nat := e.controlSpans.map Span.offset

theorem argControlSpans_eq (args : List (Arg Expr)) :
    argControlSpans args = args.flatMap fun a => a.value.controlSpans := by
  induction args with
  | nil => rfl
  | cons a args ih => rw [argControlSpans, ih, List.flatMap_cons]

theorem Expr.controlSpans_negated (sign : Span) (e : Expr) :
    (e.negated sign).controlSpans = e.controlSpans := by
  have hneg : isControl "neg" = false := by decide
  simp [Expr.negated, Expr.controlSpans, argControlSpans, hneg]

/-! ## The order of the text -/

namespace Grammar

open scoped List

def offsets (ts : List Token) : List Nat := ts.map (·.span.offset)

def InOrder (ts : List Token) : Prop := (offsets ts).Pairwise (· < ·)

theorem InOrder.of_sublist (h : InOrder ts) (hsub : offsets rest <+ offsets ts) : InOrder rest :=
  List.Pairwise.sublist hsub h

theorem sublist_of_skip (h : skipNewlines ts = t :: rest) : t :: rest <+ ts :=
  h ▸ skipNewlines_sublist ts

theorem sublist_both {xs ys : List Nat} (h : xs ++ offsets rest <+ offsets ts) (hmid : mid <+ rest)
    (h' : ys ++ offsets rest' <+ offsets mid) : xs ++ ys ++ offsets rest' <+ offsets ts := by
  rw [List.append_assoc]
  exact ((h'.trans (hmid.map _)).append_left xs).trans h

theorem sublist_rest {xs : List Nat} (h : xs ++ offsets rest <+ offsets ts) :
    offsets rest <+ offsets ts :=
  (List.sublist_append_right _ _).trans h

theorem controlSpans_join (op : Operator) (a b : Expr) :
    (op.join a b).controlSpans = a.controlSpans ++ b.controlSpans := by
  cases op <;> rfl

theorem controlSpans_literal (h : literal? t = some e) : e.controlSpans = [] := by
  unfold literal? at h
  split at h <;> cases h <;> rfl

theorem sublist_call {callee : String} {xs : List Nat}
    (hts : InOrder (⟨.ident callee, span⟩ :: ⟨.openParen, open_⟩ :: ts))
    (hclose : offsets (⟨.closeParen, close⟩ :: rest) <+ mid) (hmid : xs ++ mid <+ offsets ts) :
    (if isControl callee then [span.cover close] else []).map Span.offset ++ xs ++ offsets rest <+
      offsets (⟨.ident callee, span⟩ :: ⟨.openParen, open_⟩ :: ts) := by
  have hrest : xs ++ offsets rest <+ offsets (⟨.openParen, open_⟩ :: ts) :=
    ((((List.sublist_cons_self _ _).trans hclose).append_left xs).trans hmid).trans
      (List.sublist_cons_self _ _)
  rw [List.append_assoc]
  split
  · have hmem : close.offset ∈ offsets (⟨.openParen, open_⟩ :: ts) :=
      .tail _ (hmid.mem (List.mem_append_right _ (hclose.mem (.head _))))
    have hlt : span.offset < close.offset := (List.pairwise_cons.mp hts).1 _ hmem
    rw [Span.cover, if_pos (Nat.le_of_lt hlt)]
    exact hrest.cons_cons _
  · exact hrest.trans (List.sublist_cons_self _ _)

mutual

/-- The calls of an expression stand where tokens are that it is read from, in the same order. -/
theorem Reads.controls :
    Reads l ts e rest → InOrder ts → e.controlOffsets ++ offsets rest <+ offsets ts
  | .loop _ ha hc, hts => by
    have hfirst := ha.controls hts
    obtain ⟨more, he, hmore⟩ := hc.controls (hts.of_sublist (sublist_rest hfirst))
    rw [he]
    exact sublist_both hfirst (.refl _) hmore
  | .base h _, hts => h.controls hts
  | .power ha hafter hb, hts => by
    have hfirst := ha.controls hts
    have hskip := after_sublist hafter
    have hsecond := hb.controls (hts.of_sublist ((hskip.map _).trans (sublist_rest hfirst)))
    rw [Expr.controlOffsets, Expr.operation, Expr.controlSpans, List.map_append]
    exact sublist_both hfirst hskip hsecond
  | .negative, _ => (List.sublist_cons_self _ _).trans (List.sublist_cons_self _ _)
  | .negated _ h, hts => by
    rw [Expr.controlOffsets, Expr.controlSpans_negated]
    exact (h.controls (List.Pairwise.of_cons hts)).trans (List.sublist_cons_self _ _)
  | .primary _ h, hts => h.controls hts
  | .literal h, _ => by
    rw [Expr.controlOffsets, controlSpans_literal h]
    exact List.sublist_cons_self _ _
  | .ident _, _ => List.sublist_cons_self _ _
  | .call₀ hclose, hts => by
    rw [Expr.controlOffsets, Expr.controlSpans, List.map_append]
    exact sublist_call hts ((sublist_of_skip hclose).map _) (.refl _)
  | @Reads.call ts _ _ _ _ _ _ _ _ hargs hclose, hts => by
    have hskip := skipNewlines_sublist ts
    have hinner :=
      hargs.controls ((List.Pairwise.of_cons (List.Pairwise.of_cons hts)).sublist (hskip.map _))
    rw [Expr.controlOffsets, Expr.controlSpans, List.map_append]
    exact sublist_call hts ((sublist_of_skip hclose).map _) (hinner.trans (hskip.map _))
  | @Reads.paren ts _ _ _ _ _ h hclose, hts => by
    have hskip := skipNewlines_sublist ts
    have hinner := h.controls ((List.Pairwise.of_cons hts).sublist (hskip.map _))
    have hend := (List.sublist_cons_self _ _).trans (sublist_of_skip hclose)
    exact (((hend.map _).append_left _).trans hinner).trans
      ((hskip.map _).trans (List.sublist_cons_self _ _))

theorem Continues.controls : Continues l a ts e rest → InOrder ts →
    ∃ more, e.controlOffsets = a.controlOffsets ++ more ∧ more ++ offsets rest <+ offsets ts
  | .stop _, _ => ⟨[], (List.append_nil _).symm, .refl _⟩
  | @Continues.step op _ b _ _ _ _ _ _ hnext hb hc, hts => by
    have hskip := Level.next?_sublist hnext
    have hfirst := hb.controls (hts.of_sublist (hskip.map _))
    obtain ⟨more, he, hmore⟩ :=
      hc.controls (hts.of_sublist ((sublist_rest hfirst).trans (hskip.map _)))
    refine ⟨b.controlOffsets ++ more, ?_, (sublist_both hfirst (.refl _) hmore).trans (hskip.map _)⟩
    rw [he, Expr.controlOffsets, controlSpans_join, List.map_append, List.append_assoc]
    rfl

theorem ReadsArgs.controls : ReadsArgs ts args rest → InOrder ts →
    (argControlSpans args).map Span.offset ++ offsets rest <+ offsets ts
  | .one ha _, hts => by
    rw [argControlSpans, argControlSpans, List.append_nil]
    exact (((skipNewlines_sublist _).map _).append_left _).trans (ha.controls hts)
  | .cons ha hafter hargs, hts => by
    have hfirst := ha.controls hts
    have hskip := (after_sublist hafter).trans (skipNewlines_sublist _)
    have hmore := hargs.controls (hts.of_sublist ((hskip.map _).trans (sublist_rest hfirst)))
    rw [argControlSpans, List.map_append]
    exact sublist_both hfirst hskip hmore

theorem ReadsArg.controls :
    ReadsArg ts a rest → InOrder ts → a.value.controlOffsets ++ offsets rest <+ offsets ts
  | .named hlabel h, hts => by
    have hskip := label?_sublist hlabel
    exact (h.controls (hts.of_sublist (hskip.map _))).trans (hskip.map _)
  | .positional _ h, hts => h.controls hts

end

theorem ReadsParam.sublist (h : ReadsParam ts p rest) : rest <+ ts := by
  cases h with
  | bare => exact List.sublist_cons_self _ _
  | default => exact (List.suffix_append [_, _, _] _).sublist
  | negative => exact (List.suffix_append [_, _, _, _] _).sublist

theorem ReadsParams.sublist (h : ReadsParams ts ps rest) : rest <+ ts := by
  induction h with
  | one h _ => exact (skipNewlines_sublist _).trans h.sublist
  | cons h hcomma _ ih =>
    exact ih.trans ((after_sublist hcomma).trans ((skipNewlines_sublist _).trans h.sublist))

theorem ReadsHeader.sublist (h : ReadsHeader ts params rest) : rest <+ ts := by
  cases h with
  | none hclose => exact (List.sublist_cons_self _ _).trans (sublist_of_skip hclose)
  | some _ hparams hclose =>
    exact (List.sublist_cons_self _ _).trans ((sublist_of_skip hclose).trans
      (hparams.sublist.trans (skipNewlines_sublist _)))

theorem Reads.controls_of_sublist (h : Reads l mid e rest) (hmid : mid <+ ts) (hts : InOrder ts) :
    e.controlOffsets ++ offsets rest <+ offsets ts :=
  (h.controls (hts.of_sublist (hmid.map _))).trans (hmid.map _)

theorem ReadsStatement.controls (h : ReadsStatement ts s rest) (hts : InOrder ts) :
    s.tree.controlOffsets ++ offsets rest <+ offsets ts := by
  cases h with
  | @define ts _ arrow rest₁ _ _ _ _ _ _ hheader hbody =>
    have hskip : skipNewlines rest₁ <+ ts :=
      (skipNewlines_sublist _).trans
        ((List.sublist_cons_self ⟨.arrow, arrow⟩ _).trans hheader.sublist)
    exact hbody.controls_of_sublist (hskip.trans (List.suffix_append [_, _, _] ts).sublist) hts
  | @assign ts _ _ _ _ _ hvalue =>
    exact hvalue.controls_of_sublist
      ((skipNewlines_sublist ts).trans (List.suffix_append [_, _] ts).sublist) hts
  | expr _ _ hvalue => exact hvalue.controls hts

theorem turns_controls (ts : List Token) (hts : InOrder ts) :
    ((turns ts).filterMap Turn.statement?).flatMap (·.tree.controlOffsets) <+ offsets ts := by
  cases hdrop : ts.dropWhile isSeparator with
  | nil =>
    rw [turns_done hdrop]
    exact List.nil_sublist _
  | cons t rest =>
    have hsub : t :: rest <+ ts := hdrop ▸ List.dropWhile_sublist _
    have hlength := hsub.length_le
    have hin := hts.of_sublist (hsub.map _)
    cases hread : plain (statement (t :: rest)) with
    | error fault =>
      -- A statement that is given up declares nothing, and reading goes on behind some of its
      -- tokens.
      have hresume : resume (t :: rest) fault.left <+ t :: rest :=
        (List.dropWhile_sublist _).trans (List.drop_sublist _ _)
      have hlt := resume_length_lt rest fault.left (head_dropWhile_separator hdrop)
      rw [turns_fault hdrop hread]
      exact (turns_controls _ (hin.of_sublist (hresume.map _))).trans ((hresume.trans hsub).map _)
    | ok out =>
      obtain ⟨s, rest'⟩ := out
      have hstatement := readsStatement_of_read hread
      have hfirst := hstatement.controls hin
      have hskip : skipStatement rest' <+ rest' := List.dropWhile_sublist _
      have hlt := plain_length hread
      have hle := hskip.length_le
      have hmore := turns_controls (skipStatement rest')
        (hin.of_sublist ((hskip.map _).trans (sublist_rest hfirst)))
      have hturn : (finished s rest').statement? = some s := by
        unfold finished
        split
        · rfl
        · split <;> rfl
      rw [turns_read hdrop hread, List.filterMap_cons_some hturn, List.flatMap_cons]
      exact ((hmore.append_left _).trans (((hskip.map _).append_left _).trans hfirst)).trans
        (hsub.map _)
termination_by ts.length

end Grammar

open Grammar

theorem tokensOf_inOrder (source : String) : InOrder (tokensOf source) := by
  have hline := tokensOf_inLine source
  refine List.pairwise_map.mpr ((tokensOf_ordered source).imp_of_mem fun {t u} ht _ hle => ?_)
  obtain ⟨-, hpos, -⟩ := hline.mem (List.mem_map_of_mem ht)
  change t.span.stop ≤ u.span.offset at hle
  rw [Span.stop] at hle
  omega

/-- The host parameters that a program asks for come in the order of the text. -/
theorem controls_inOrder (source : String) :
    ((statements (scan source).tokens).flatMap (·.tree.controlOffsets)).Pairwise (· < ·) := by
  rw [statements, beforeFinish_scan]
  exact (tokensOf_inOrder source).sublist (turns_controls _ (tokensOf_inOrder source))

/-! ## What the calls declare -/

def Span.extent (s : Span) : Nat × Nat := (s.offset, s.length)

def HostParam.extent (p : HostParam) : Nat × Nat := (p.offset, p.length)

theorem Expr.controlSpans_of_shown {e : Expr} (h : e.face flow ≠ .other) : e.controlSpans = [] := by
  cases e <;> simp_all [Expr.face, Expr.controlSpans]

theorem params_of_control : ∀ b ∈ Builtin.table, (b.kind matches .control _) → b.params ≠ [] := by
  decide

theorem isControl_iff :
    isControl callee ↔ ∃ b kind, Builtin.find? callee = some b ∧ b.kind = .control kind := by
  unfold isControl
  cases Builtin.find? callee with
  | none => simp
  | some b => cases hk : b.kind <;> simp [hk]

theorem callDeclarations_other (h : ¬ isControl callee) (args : List (Arg Face)) (s : Span) :
    callDeclarations callee args s = [] := by
  rw [isControl_iff] at h
  unfold callDeclarations
  cases hb : Builtin.find? callee with
  | none => rfl
  | some b =>
    cases hk : b.kind with
    | op | pattern => simp [Builtin.declarations, hk]
    | control kind => exact absurd ⟨b, kind, hb, hk⟩ h

theorem Builtin.declarations_control {b : Builtin} {kind : ControlKind}
    (hkind : b.kind = .control kind) (hfaces : faces ≠ [])
    (haccepts : (BuiltinKind.control kind).Accepts faces) (s : Span) :
    (b.declarations faces s).map HostParam.extent = [s.extent] := by
  cases faces with
  | nil => exact absurd rfl hfaces
  | cons f faces =>
    obtain ⟨⟨t, rfl⟩, values, hvalues⟩ := haccepts
    simp only [Builtin.declarations, hkind, Face.numbers_eq_some.mpr hvalues]
    rfl

/-- A call that asks for a host parameter, and is right, declares one. No argument of it does. -/
theorem callDeclarations_control (h : isControl callee) (hroles : RolesOk roles)
    (hrole : roles callee = some role) (htakes : role.Takes args) (s : Span) :
    (callDeclarations callee args s).map HostParam.extent = [s.extent] ∧
      ∀ a ∈ args, a.value ≠ .other := by
  obtain ⟨b, kind, hb, hkind⟩ := isControl_iff.mp h
  have htable := Builtin.mem_table hb
  rcases hroles callee b role hb hrole with rfl | rfl
  · exact htakes.elim
  refine ⟨?_, fun a ha => htakes.shown htable (by simp [Meaning.takesSignals, hkind]) ha⟩
  have hparams : b.params ≠ [] := params_of_control b htable (by rw [hkind])
  have hfaces : Binding.faces b.params args ≠ [] := by simpa [Binding.faces] using hparams
  rw [callDeclarations, hb, Option.map_some, Option.getD_some]
  exact Builtin.declarations_control hkind hfaces (hkind ▸ htakes.2) s

theorem Expr.Checks.declarations {e : Expr} (hroles : RolesOk roles) (h : e.Checks roles flow) :
    (e.declarations flow).map HostParam.extent = e.controlSpans.map Span.extent := by
  induction h with
  | number | bool | text | ident | hole => rfl
  | binary _ _ ihl ihr =>
    simp only [Expr.declarations, Expr.controlSpans, List.map_append, ihl, ihr]
  | pipe _ _ _ _ ihs iht =>
    simp only [Expr.declarations, Expr.controlSpans, List.map_append, ihs, iht]
  | @call args flow callee role s hargs hrole htakes ih =>
    have hinner : (argDeclarations flow args).map HostParam.extent =
        (argControlSpans args).map Span.extent := by
      rw [argDeclarations_eq, argControlSpans_eq, List.map_flatMap, List.map_flatMap]
      exact List.flatMap_congr ih
    rw [Expr.declarations, Expr.controlSpans, List.map_append, List.map_append, hinner]
    by_cases hcontrol : isControl callee
    · obtain ⟨hone, hshown⟩ := callDeclarations_control hcontrol hroles hrole htakes s
      have hnone : argControlSpans args = [] := by
        rw [argControlSpans_eq, List.flatMap_eq_nil_iff]
        exact fun a ha => Expr.controlSpans_of_shown (hshown _ (List.mem_map_of_mem ha))
      rw [hone, hnone, if_pos hcontrol]
      rfl
    · rw [callDeclarations_other hcontrol, if_neg hcontrol]
      exact List.append_nil _

end SignalPatch
