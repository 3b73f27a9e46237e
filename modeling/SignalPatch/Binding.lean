import SignalPatch.Builtin
import SignalPatch.Patch

/-!
# Matching arguments to parameters

Arguments without a name fill the parameters from the left; named ones come after them, in any
order. A parameter without an argument takes its fallback: a fresh literal, or the argument of
another parameter.
-/

namespace SignalPatch.Binding

structure Seating where
  slots : List (Option NodeId)
  positional : Nat := 0
  named : Bool := false
  findings : List Finding := []

def Seating.report (s : Seating) (issue : Issue) (span : Span) : Seating :=
  { s with findings := s.findings ++ [⟨issue, span⟩] }

def seatNamed (callee : String) (params : Signature) (s : Seating) (name : String)
    (arg : Arg NodeId) : Seating :=
  let s := { s with named := true }
  match params.index? name with
  | none => s.report (.unknownParameter callee name) arg.span
  | some i =>
    match s.slots[i]?.join with
    | some _ => s.report (.duplicateArgument name) arg.span
    | none => { s with slots := s.slots.set i (some arg.value) }

def seatPositional (s : Seating) (arg : Arg NodeId) : Seating :=
  if s.named then s.report .positionalAfterNamed arg.span
  else
    { s with
      slots := s.slots.set s.positional (some arg.value)
      positional := s.positional + 1 }

def seat (callee : String) (params : Signature) (s : Seating) (arg : Arg NodeId) : Seating :=
  match arg.name with
  | some name => seatNamed callee params s name arg
  | none => seatPositional s arg

def seatAll (callee : String) (params : Signature) (args : List (Arg NodeId)) : Seating :=
  args.foldl (seat callee params) { slots := params.map fun _ => none }

/-- Empty slots being filled: the arena grows by the fresh literals. -/
structure Filling where
  nodes : Arena
  slots : List (Option NodeId)
  missing : List String := []

def fill (span : Span) (f : Filling) (param : Formal × Nat) : Filling :=
  let (formal, i) := param
  match f.slots[i]?.join with
  | some _ => f
  | none =>
    match formal.fallback with
    | .required => { f with missing := f.missing ++ [formal.name] }
    | .value v =>
      let (nodes, id) := f.nodes.add ⟨.number v, span⟩
      { f with nodes, slots := f.slots.set i (some id) }
    | .sameAs j => { f with slots := f.slots.set i f.slots[j]?.join }

def fillAll (params : Signature) (span : Span) (nodes : Arena) (slots : List (Option NodeId)) :
    Filling :=
  params.zipIdx.foldl (fill span) { nodes, slots }

def surplus (callee : String) (params : Signature) (s : Seating) : List Issue :=
  if params.length < s.positional then
    [.tooManyArguments callee params.length s.positional]
  else []

def shortage (callee : String) (params : Signature) (s : Seating) (missing : List String) :
    List Issue :=
  if missing.isEmpty then []
  else if s.named then missing.map (.missingArgument · callee)
  else [.tooFewArguments callee params.requiredCount s.positional]

/-- The outcome: the arena with the fresh literals, what was wrong, and one node per parameter if
nothing was. -/
structure Outcome where
  nodes : Arena
  findings : List Finding
  values : Option (List NodeId)

/-- Matches the arguments of a call at `span`. -/
def bind (callee : String) (params : Signature) (args : List (Arg NodeId)) (span : Span)
    (nodes : Arena) : Outcome :=
  let seated := seatAll callee params args
  let filled := fillAll params span nodes seated.slots
  let findings := seated.findings ++
    (surplus callee params seated ++ shortage callee params seated filled.missing).map (⟨·, span⟩)
  { nodes := filled.nodes
    findings
    values := if findings.isEmpty then filled.slots.mapM id else none }

end SignalPatch.Binding
