import SignalPatch.Proofs.ProgramCheck
import SignalPatch.Proofs.TwinNodes

/-!
# Ways of writing a program

One program can be written in several ways: named arguments of a call in any order, an operator as
the function that it stands for, a built-in function by any of its names, and functions anywhere
among the statements. `Latitude` says which of the first three are at issue.

`Shape.Varies` and `StatementShape.Varies` relate what is written, without places. `Expr.Varies` and
`ProgramVaries` are the same for trees and for whole programs, where definitions may have moved and
variables may have other names (`Manner`).
-/

namespace SignalPatch

/-! ## Names of functions and order of arguments -/

structure Latitude where
  /-- Named arguments of a call come in any order. -/
  order : Bool
  /-- Operators are written as their functions, and built-in functions by their canonical names. -/
  spelling : Bool

namespace Latitude

def strict : Latitude := ⟨false, false⟩

def reordered : Latitude := ⟨true, false⟩

def respelled : Latitude := ⟨false, true⟩

variable {v : Latitude}

def Reorders (v : Latitude) (name : α → Option String) (xs ys : List α) : Prop :=
  xs = ys ∨ v.order ∧ Binding.Rearranged name xs ys

def Respells (v : Latitude) (callee callee' : String) : Prop :=
  callee' = callee ∨ v.spelling ∧ callee' = Builtin.canonicalName callee

theorem Reorders.refl (v : Latitude) (name : α → Option String) (xs : List α) :
    v.Reorders name xs xs :=
  .inl rfl

theorem Reorders.rearranged {name : α → Option String} (h : v.Reorders name xs ys) :
    Binding.Rearranged name xs ys := by
  rcases h with rfl | ⟨-, h⟩
  · exact .refl name xs
  · exact h

theorem Reorders.eq {name : α → Option String} (h : v.Reorders name xs ys) (hv : v.order = false) :
    xs = ys := by
  rcases h with rfl | ⟨ho, -⟩
  · rfl
  · cases hv.symm.trans ho

theorem Reorders.exists_forall₂ {name : α → Option String} {name' : β → Option String}
    {r : α → β → Prop} (hname : ∀ a b, r a b → name a = name' b) (h : v.Reorders name xs ys)
    (hr : List.Forall₂ r ys zs) : ∃ ws, List.Forall₂ r xs ws ∧ v.Reorders name' ws zs := by
  rcases h with rfl | ⟨ho, h⟩
  · exact ⟨zs, hr, .inl rfl⟩
  · obtain ⟨ws, hws, h⟩ := h.exists_forall₂ hname hr
    exact ⟨ws, hws, .inr ⟨ho, h⟩⟩

theorem Reorders.map {name : α → Option String} {name' : β → Option String} (f : α → β)
    (hf : ∀ a, name' (f a) = name a) (h : v.Reorders name xs ys) :
    v.Reorders name' (xs.map f) (ys.map f) :=
  h.imp (congrArg (List.map f)) (And.imp_right (Binding.Rearranged.map f hf))

theorem Reorders.symm {name : α → Option String} (h : v.Reorders name xs ys) :
    v.Reorders name ys xs :=
  h.imp Eq.symm (And.imp_right Binding.Rearranged.symm)

theorem Respells.refl (v : Latitude) (callee : String) : v.Respells callee callee := .inl rfl

theorem Respells.eq (h : v.Respells callee callee') (hv : v.spelling = false) :
    callee' = callee := by
  rcases h with rfl | ⟨hs, -⟩
  · rfl
  · cases hv.symm.trans hs

end Latitude

theorem Builtin.canonicalName_canonicalName (n : String) :
    canonicalName (canonicalName n) = canonicalName n := by
  have hplain : ∀ q ∈ aliases, aliases.lookup q.2 = none := by decide
  unfold canonicalName
  cases h : aliases.lookup n with
  | none => simp [h]
  | some target =>
    obtain ⟨front, back, heq, -⟩ := List.lookup_eq_some_iff.mp h
    simp [hplain (n, target) (by simp [heq])]

theorem Latitude.Respells.find? {v : Latitude} (h : v.Respells callee callee') :
    Builtin.find? callee' = Builtin.find? callee := by
  rcases h with rfl | ⟨-, rfl⟩
  · rfl
  · rw [Builtin.find?, Builtin.canonicalName_canonicalName, Builtin.find?]

theorem Latitude.Respells.eq_of_find? {v : Latitude} (h : v.Respells callee callee')
    (hfind : Builtin.find? callee = none) : callee' = callee := by
  rcases h with rfl | ⟨-, rfl⟩
  · rfl
  · have hknown : ∀ q ∈ Builtin.aliases, (Builtin.find? q.1).isSome := by decide
    unfold Builtin.canonicalName
    cases h : Builtin.aliases.lookup callee with
    | none => rfl
    | some target =>
      obtain ⟨front, back, heq, -⟩ := List.lookup_eq_some_iff.mp h
      have := hknown (callee, target) (by simp [heq])
      simp [hfind] at this

/-! ## What is written -/

/-- The second expression is another way of writing the first. -/
inductive Shape.Varies (v : Latitude) : Shape → Shape → Prop
  | number : Varies v (.number x) (.number x)
  | bool : Varies v (.bool b) (.bool b)
  | text : Varies v (.text t) (.text t)
  | ident : Varies v (.ident x) (.ident x)
  | hole : Varies v .hole .hole
  | binary : Varies v lhs lhs' → Varies v rhs rhs' →
      Varies v (.binary op lhs rhs) (.binary op lhs' rhs')
  | pipe : Varies v source source' → Varies v target target' →
      Varies v (.pipe source target) (.pipe source' target')
  | call : args.map Prod.fst = mid.map Prod.fst → (∀ q ∈ args.zip mid, Varies v q.1.2 q.2.2) →
      v.Reorders Prod.fst mid args' → v.Respells callee callee' →
      Varies v (.call callee args) (.call callee' args')
  | operator : v.spelling → Varies v lhs lhs' → Varies v rhs rhs' →
      Varies v (.binary op lhs rhs) (.call op.functionName [(none, lhs'), (none, rhs')])

inductive StatementShape.Varies (v : Latitude) : StatementShape → StatementShape → Prop
  | define : body.Varies v body' → Varies v (.define name params body) (.define name params body')
  | assign : value.Varies v value' → Varies v (.assign x value) (.assign x value')
  | expr : e.Varies v e' → Varies v (.expr e) (.expr e')

def StatementShape.isDefinition : StatementShape → Bool
  | .define .. => true
  | _ => false

/-- The second program has the statements of the first, with its definitions in other places. -/
structure DefinitionsMoved (program program' : List StatementShape) : Prop where
  others : program.filter (!·.isDefinition) = program'.filter (!·.isDefinition)
  definitions : (program.filter (·.isDefinition)).Perm (program'.filter (·.isDefinition))

theorem DefinitionsMoved.append_left (front : List StatementShape)
    (h : DefinitionsMoved program program') :
    DefinitionsMoved (front ++ program) (front ++ program') := by
  refine ⟨?_, ?_⟩
  · rw [List.filter_append, List.filter_append, h.others]
  · rw [List.filter_append, List.filter_append]
    exact h.definitions.append_left _

/-! ## Trees -/

/-- In what ways trees may differ, with their names and places. -/
structure Manner extends Latitude where
  /-- What the second tree calls a variable. -/
  name : String → String
  /-- Which functions may be called. -/
  calls : String → Prop
  /-- Whether calls stand at the same places. -/
  placed : Bool

def Latitude.plain (v : Latitude) : Manner :=
  { v with name := id, calls := fun _ => True, placed := false }

/-- How bodies of functions may differ. Variables are not known there. -/
def Manner.inBody (w : Manner) : Manner := { w with name := id, calls := fun _ => True }

/-- The second tree is another way of writing the first. -/
inductive Expr.Varies (w : Manner) : Expr → Expr → Prop
  | number : Varies w (.number x s) (.number x s')
  | bool : Varies w (.bool b s) (.bool b s')
  | text : Varies w (.text t s) (.text t s')
  | ident : Varies w (.ident x s) (.ident (w.name x) s')
  | hole : Varies w (.hole s) (.hole s')
  | binary : Varies w lhs lhs' → Varies w rhs rhs' →
      Varies w (.binary op lhs rhs s) (.binary op lhs' rhs' s')
  | pipe : Varies w source source' → Varies w target target' →
      Varies w (.pipe source target s) (.pipe source' target' s')
  | call : w.calls callee → (w.placed → s = s') → args.map Arg.name = mid.map Arg.name →
      (∀ q ∈ args.zip mid, Varies w q.1.value q.2.value) → w.Reorders Arg.name mid args' →
      w.Respells callee callee' → Varies w (.call callee args s) (.call callee' args' s')
  | operator : w.spelling → Varies w lhs lhs' → Varies w rhs rhs' →
      Varies w (.binary op lhs rhs s) (.call op.functionName [⟨none, lhs', t⟩, ⟨none, rhs', t'⟩] s')

inductive Statement.Varies (w : Manner) : Statement → Statement → Prop
  | define : params.map Parameter.shape = params'.map Parameter.shape → body.Varies w.inBody body' →
      Varies w (.define name params body s) (.define name params' body' s')
  | assign : value.Varies w value' → Varies w (.assign x value s) (.assign (w.name x) value' s')
  | expr : e.Varies w e' → Varies w (.expr e) (.expr e')

/-- The statements besides the definitions vary one by one, and so do the definitions, in any
order. -/
structure ProgramVaries (w : Manner) (ss ss' : List Statement) : Prop where
  others : List.Forall₂ (Statement.Varies w) (ss.filter (!·.isDefinition))
    (ss'.filter (!·.isDefinition))
  definitions : ∃ mid, List.Forall₂ (Statement.Varies w) (ss.filter (·.isDefinition)) mid ∧
    mid.Perm (ss'.filter (·.isDefinition))

variable {v : Latitude} {w : Manner}

theorem forall₂_matches {Q : α → β → Prop} {xs : List (Arg α)} {ys : List (Arg β)}
    (hnames : xs.map Arg.name = ys.map Arg.name) (h : ∀ q ∈ xs.zip ys, Q q.1.value q.2.value) :
    List.Forall₂ (Matches Q) xs ys := by
  induction xs generalizing ys with
  | nil =>
    obtain rfl : ys = [] := by simpa using hnames.symm
    exact .nil
  | cons x xs ih =>
    cases ys with
    | nil => cases hnames
    | cons y ys =>
      simp only [List.map_cons, List.cons.injEq] at hnames
      rw [List.zip_cons_cons, List.forall_mem_cons] at h
      exact .cons ⟨hnames.1, h.1⟩ (ih hnames.2 h.2)

theorem forall₂_and {r r' : α → β → Prop} (h : List.Forall₂ r xs ys) (h' : List.Forall₂ r' xs ys) :
    List.Forall₂ (fun x y => r x y ∧ r' x y) xs ys := by
  induction h with
  | nil => exact .nil
  | cons hxy _ ih =>
    cases h' with
    | cons hxy' h' => exact .cons ⟨hxy, hxy'⟩ (ih h')

theorem map_name_of_matches {Q : α → β → Prop} {xs : List (Arg α)} {ys : List (Arg β)}
    (h : List.Forall₂ (Matches Q) xs ys) : xs.map Arg.name = ys.map Arg.name :=
  Binding.map_eq_of_forall₂ (fun _ _ hxy => hxy.1) h

namespace Expr.Varies

theorem call_of_matches (hcalls : w.calls callee) (hplace : w.placed → s = s')
    (h : List.Forall₂ (Matches (Varies w)) args args') :
    Varies w (.call callee args s) (.call callee args' s') :=
  .call hcalls hplace (map_name_of_matches h) (fun _ hq => ((List.forall₂_iff_zip.mp h).2 hq).2)
    (.refl _ _ _) (.refl _ _)

theorem mono {calls : String → Prop} (hcalls : ∀ f, w.calls f → calls f) (h : Varies w e e') :
    Varies { w with calls } e e' := by
  induction h with
  | number => exact .number
  | bool => exact .bool
  | text => exact .text
  | ident => exact .ident
  | hole => exact .hole
  | binary _ _ ihl ihr => exact .binary ihl ihr
  | pipe _ _ ihs iht => exact .pipe ihs iht
  | call hf hplace hnames _ hreorder hcallee ih =>
    exact .call (hcalls _ hf) hplace hnames ih hreorder hcallee
  | operator hs _ _ ihl ihr => exact .operator hs ihl ihr

theorem symm (hv : v.spelling = false) (h : Varies v.plain e e') : Varies v.plain e' e := by
  induction h with
  | number => exact .number
  | bool => exact .bool
  | text => exact .text
  | ident => exact .ident
  | hole => exact .hole
  | binary _ _ ihl ihr => exact .binary ihl ihr
  | pipe _ _ ihs iht => exact .pipe ihs iht
  | call _ _ hnames _ hreorder hcallee ih =>
    have hargs := (forall₂_matches (Q := fun e e' => Varies v.plain e' e) hnames ih).flip
    obtain ⟨mid', hmid', hreorder'⟩ := hreorder.symm.exists_forall₂ (fun _ _ h => h.1.symm) hargs
    rw [hcallee.eq hv]
    refine .call trivial nofun ?_ (fun q hq => ((List.forall₂_iff_zip.mp hmid').2 hq).2)
      hreorder' (.refl v _)
    exact Binding.map_eq_of_forall₂ (fun _ _ hab => hab.1.symm) hmid'
  | operator hs => cases hv.symm.trans hs

end Expr.Varies

theorem Statement.Varies.symm (hv : v.spelling = false) (h : Statement.Varies v.plain s s') :
    Statement.Varies v.plain s' s := by
  cases h with
  | define hparams hbody => exact .define hparams.symm (hbody.symm hv)
  | assign hvalue => exact .assign (hvalue.symm hv)
  | expr he => exact .expr (he.symm hv)

theorem Statement.Varies.mono {calls : String → Prop} (hcalls : ∀ f, w.calls f → calls f)
    (h : Statement.Varies w s s') : Statement.Varies { w with calls } s s' := by
  cases h with
  | define hparams hbody => exact .define hparams hbody
  | assign hvalue => exact .assign (hvalue.mono hcalls)
  | expr he => exact .expr (he.mono hcalls)

theorem Statement.Varies.isDefinition_eq (h : Statement.Varies w s s') :
    s.isDefinition = s'.isDefinition := by
  cases h <;> rfl

theorem ProgramVaries.symm (hv : v.spelling = false) (h : ProgramVaries v.plain ss ss') :
    ProgramVaries v.plain ss' ss := by
  obtain ⟨mid, hmid, hperm⟩ := h.definitions
  have hback : List.Forall₂ (Statement.Varies v.plain) mid (ss.filter (·.isDefinition)) :=
    hmid.flip.imp fun _ _ => Statement.Varies.symm hv
  obtain ⟨mid', hmid', hperm'⟩ := List.perm_comp_forall₂ hperm.symm hback
  exact ⟨h.others.flip.imp fun _ _ => Statement.Varies.symm hv, mid', hmid', hperm'⟩

def Manner.exact : Manner := { Latitude.strict.plain with placed := true }

mutual

theorem Expr.Varies.refl : ∀ e : Expr, e.Varies .exact e
  | .number .. => .number
  | .bool .. => .bool
  | .text .. => .text
  | .ident .. => .ident
  | .hole .. => .hole
  | .binary _ lhs rhs _ => .binary (.refl lhs) (.refl rhs)
  | .pipe source target _ => .pipe (.refl source) (.refl target)
  | .call _ args _ => .call_of_matches trivial (fun _ => rfl) (Expr.Varies.refl_args args)

theorem Expr.Varies.refl_args :
    ∀ args : List (Arg Expr), List.Forall₂ (Matches (Expr.Varies .exact)) args args
  | [] => .nil
  | ⟨_, value, _⟩ :: args => .cons ⟨rfl, .refl value⟩ (Expr.Varies.refl_args args)

end

theorem Statement.Varies.refl (s : Statement) : s.Varies .exact s := by
  cases s with
  | define _ _ body _ => exact .define rfl (.refl body)
  | assign _ value _ => exact .assign (.refl value)
  | expr e => exact .expr (.refl e)

theorem ProgramVaries.of_forall₂ (h : List.Forall₂ (Statement.Varies w) ss ss') :
    ProgramVaries w ss ss' := by
  refine ⟨List.rel_filter (fun s s' hs => ?_) h, _, List.rel_filter (fun s s' hs => ?_) h, .refl _⟩
    <;> dsimp only <;> rw [hs.isDefinition_eq]

/-! ## Trees of what is written -/

def Arg.shape (a : Arg Expr) : Option String × Shape := (a.name, a.value.shape)

theorem argShapes_eq (args : List (Arg Expr)) : argShapes args = args.map Arg.shape := by
  induction args with
  | nil => rfl
  | cons a args ih => rw [argShapes, ih, List.map_cons, Arg.shape]

theorem Shape.Varies.expr (h : Shape.Varies v s s') :
    ∀ {e e' : Expr}, e.shape = s → e'.shape = s' → e.Varies v.plain e' := by
  induction h with
  | number =>
    intro e e' he he'
    cases e <;> cases he
    cases e' <;> cases he'
    exact .number
  | bool =>
    intro e e' he he'
    cases e <;> cases he
    cases e' <;> cases he'
    exact .bool
  | text =>
    intro e e' he he'
    cases e <;> cases he
    cases e' <;> cases he'
    exact .text
  | ident =>
    intro e e' he he'
    cases e <;> cases he
    cases e' <;> cases he'
    exact .ident
  | hole =>
    intro e e' he he'
    cases e <;> cases he
    cases e' <;> cases he'
    exact .hole
  | binary _ _ ihl ihr =>
    intro e e' he he'
    cases e <;> cases he
    cases e' <;> cases he'
    exact .binary (ihl rfl rfl) (ihr rfl rfl)
  | pipe _ _ ihs iht =>
    intro e e' he he'
    cases e <;> cases he
    cases e' <;> cases he'
    exact .pipe (ihs rfl rfl) (iht rfl rfl)
  | call hnames _ hreorder hcallee ih =>
    intro e e' he he'
    cases e <;> cases he
    cases e' <;> cases he'
    rw [argShapes_eq] at hnames hreorder ih
    -- the arguments that stand for `mid` are those of the second call, in another order
    have hname : ∀ (q : Option String × Shape) (a : Arg Expr), q = a.shape → q.1 = a.name :=
      fun _ a h => h ▸ rfl
    obtain ⟨margs, hmargs, hreorder'⟩ := hreorder.exists_forall₂ hname
      (List.forall₂_map_left_iff.mpr (List.forall₂_same.mpr fun _ _ => rfl))
    obtain rfl := (List.map_id _).symm.trans
      (Binding.map_eq_of_forall₂ (f := id) (fun _ _ h => h) hmargs)
    refine .call trivial nofun ?_ (fun q hq => ?_) hreorder' hcallee
    · simpa [Function.comp_def, Arg.shape] using hnames
    · refine ih (q.1.shape, q.2.shape) ?_ rfl rfl
      rw [List.zip_map]
      exact List.mem_map.mpr ⟨q, hq, rfl⟩
  | operator hs _ _ ihl ihr =>
    intro e e' he he'
    cases e <;> cases he
    cases e' with
    | call callee args span =>
      simp only [Expr.shape, Shape.call.injEq, argShapes_eq] at he'
      obtain ⟨rfl, hargs⟩ := he'
      match args, hargs with
      | [⟨_, _, _⟩, ⟨_, _, _⟩], hargs =>
        simp only [List.map_cons, List.map_nil, Arg.shape, List.cons.injEq,
          Prod.mk.injEq, and_true] at hargs
        obtain ⟨⟨rfl, hl⟩, rfl, hr⟩ := hargs
        exact .operator hs (ihl rfl hl) (ihr rfl hr)
    | _ => cases he'

theorem StatementShape.Varies.statement {s s' : Statement} (h : s.shape.Varies v s'.shape) :
    s.Varies v.plain s' := by
  generalize hs : s.shape = shape at h
  generalize hs' : s'.shape = shape' at h
  cases h with
  | define h =>
    cases s <;> cases hs
    cases s' with
    | define name params body span =>
      simp only [Statement.shape, StatementShape.define.injEq] at hs'
      obtain ⟨rfl, hparams, hbody⟩ := hs'
      exact .define hparams.symm (h.expr rfl hbody)
    | _ => cases hs'
  | assign h =>
    cases s <;> cases hs
    cases s' <;> cases hs'
    exact .assign (h.expr rfl rfl)
  | expr h =>
    cases s <;> cases hs
    cases s' <;> cases hs'
    exact .expr (h.expr rfl rfl)

mutual

theorem Shape.Varies.refl (v : Latitude) : ∀ s : Shape, s.Varies v s
  | .number _ => .number
  | .bool _ => .bool
  | .text _ => .text
  | .ident _ => .ident
  | .hole => .hole
  | .binary _ lhs rhs => .binary (.refl v lhs) (.refl v rhs)
  | .pipe source target => .pipe (.refl v source) (.refl v target)
  | .call _ args => .call rfl (Shape.Varies.refl_args v args) (.refl v _ _) (.refl v _)

theorem Shape.Varies.refl_args (v : Latitude) : ∀ args : List (Option String × Shape),
    ∀ q ∈ args.zip args, q.1.2.Varies v q.2.2
  | [] => by simp
  | (_, s) :: args => by
    rw [List.zip_cons_cons, List.forall_mem_cons]
    exact ⟨.refl v s, Shape.Varies.refl_args v args⟩

end

theorem Shape.Varies.of_canonicalName (hv : v.spelling) (h : callee' = Builtin.canonicalName callee)
    (args : List (Option String × Shape)) :
    Shape.Varies v (.call callee args) (.call callee' args) :=
  .call rfl (Shape.Varies.refl_args v args) (.refl v _ args) (.inr ⟨hv, h⟩)

theorem StatementShape.Varies.refl (v : Latitude) (s : StatementShape) : s.Varies v s := by
  cases s with
  | define name params body => exact .define (.refl v body)
  | assign x value => exact .assign (.refl v value)
  | expr e => exact .expr (.refl v e)

theorem StatementShape.Varies.append_left (front : List StatementShape)
    (h : List.Forall₂ (StatementShape.Varies v) program program') :
    List.Forall₂ (StatementShape.Varies v) (front ++ program) (front ++ program') :=
  List.rel_append (List.forall₂_same.mpr fun s _ => .refl v s) h

theorem Statement.Varies.of_shapes {ss ss' : List Statement}
    (h : List.Forall₂ (StatementShape.Varies v) (ss.map Statement.shape)
      (ss'.map Statement.shape)) :
    List.Forall₂ (Statement.Varies v.plain) ss ss' := by
  rw [List.forall₂_map_left_iff, List.forall₂_map_right_iff] at h
  exact h.imp fun _ _ => StatementShape.Varies.statement

theorem Statement.isDefinition_shape (s : Statement) : s.shape.isDefinition = s.isDefinition := by
  cases s <;> rfl

theorem DefinitionsMoved.programVaries {ss ss' : List Statement} (v : Latitude)
    (h : DefinitionsMoved (ss.map Statement.shape) (ss'.map Statement.shape)) :
    ProgramVaries v.plain ss ss' := by
  obtain ⟨hothers, hdefs⟩ := h
  have hsame : ∀ s s' : Statement, s.shape = s'.shape → s.Varies v.plain s' := fun s s' hs =>
    StatementShape.Varies.statement (hs ▸ .refl v _)
  simp only [List.filter_map, Function.comp_def, Statement.isDefinition_shape] at hothers hdefs
  constructor
  · rw [← List.forall₂_eq_eq_eq, List.forall₂_map_left_iff, List.forall₂_map_right_iff] at hothers
    exact hothers.imp hsame
  · obtain ⟨mid, hmid, hperm⟩ := List.perm_comp_forall₂
      (r := fun shape s => shape = Statement.shape s) hdefs
      (List.forall₂_map_left_iff.mpr (List.forall₂_same.mpr fun _ _ => rfl))
    rw [List.forall₂_map_left_iff] at hmid
    exact ⟨mid, hmid.imp hsame, hperm⟩

end SignalPatch
