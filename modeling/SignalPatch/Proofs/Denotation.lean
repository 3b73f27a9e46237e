import SignalPatch.Proofs.ArgumentMatching
import SignalPatch.Proofs.Dataflow

/-!
# What a patch means, as written

The meaning of an expression is a dataflow term, read off the tree as it was parsed. A hole means
what flows into the innermost pipe around it, a variable what was assigned to it before, and a call
of a function of the patch what its body means with the parameters bound to the arguments, and
nothing else in scope. Texts have no term: they only serve as arguments of patterns and host
parameters.
-/

namespace SignalPatch

open Lowering (cycleBeats)

/-! ## Values -/

inductive Value where
  | signal (t : Term)
  | text (s : String)

def Value.signal? : Value → Option Term
  | .signal t => some t
  | .text _ => none

def Value.const (v : Float) : Value := .signal (.const (Decimal.narrow v))

abbrev Env := String → Option Value

def Env.empty : Env := fun _ => none

def Env.assign (env : Env) (x : String) (v : Option Value) : Env :=
  fun y => if y = x then v else env y

def Env.ofParameters (params : List Parameter) (args : List Term) : Env :=
  fun x => (((params.map Parameter.name).zip args).lookup x).map .signal

/-! ## Patterns -/

def Pattern.Sound.value? : Sound → Option Float
  | .number v => some v
  | .pitch note => some (Pitch.frequency note)
  | .sample _ => none

def Pattern.track (p : Pattern) : Track where
  cycleLength := cycleBeats
  times := p.events.map fun e => e.time * cycleBeats
  content :=
    if p.isSample then .samples p.sampleNames
    else .values (p.events.filterMap (·.sound.value?))
  velocities := p.events.map fun _ => 1

/-- A pattern of samples drives a player, at the original pitch. -/
def Pattern.term (p : Pattern) : Term :=
  if p.isSample then .op .samplePlay [.pattern p.track, .const (Decimal.narrow 1)]
  else .pattern p.track

/-! ## Calls -/

def supplied (params : Signature) (args : List (Arg (Option Value))) (p : Formal) (k : Nat) :
    Option Value :=
  match Binding.given params args k with
  | some a => a.value
  | none =>
    match p.fallback with
    | .required => none
    | .value v => some (.const v)
    | .sameAs j => (Binding.given params args j).bind Arg.value

def arguments (params : Signature) (args : List (Arg (Option Value))) : List (Option Value) :=
  params.zipIdx.map fun (p, k) => supplied params args p k

def signals (values : List (Option Value)) : Option (List Term) :=
  values.mapM fun v => v.bind Value.signal?

def HostParam.defaultIn (params : List HostParam) (name : String) : Option Float :=
  (params.find? (·.name == name)).map HostParam.default

/-- The meaning of a call of a built-in function; `declared` gives the default of a host
parameter. -/
def Builtin.denote (declared : String → Option Float) (f : Builtin) (values : List (Option Value)) :
    Option Value :=
  match f.kind, values with
  | .op opcode, values => (signals values).map fun ts => .signal (.op opcode ts)
  | .pattern, some (.text text) :: _ =>
    (Pattern.ofChars text.toList).toOption.map fun p => .signal p.term
  | .control _, some (.text name) :: _ =>
    (declared name).map fun v =>
      .signal (.hostParam (Text.fingerprint name) (.const (Decimal.narrow v)))
  | _, _ => none

/-! ## Expressions -/

def BinaryOp.opcode : BinaryOp → Opcode
  | .add => .add
  | .sub => .sub
  | .mul => .mul
  | .div => .div
  | .pow => .pow

mutual

/-- The meaning of an expression, when `call` gives that of calls, `env` that of names and `hole`
that of holes. -/
def Expr.denote (call : String → List (Arg (Option Value)) → Option Value) (env : Env)
    (hole : Option Value) : Expr → Option Value
  | .number v _ => some (.const v)
  | .bool b _ => some (.const (if b then 1 else 0))
  | .text t _ => some (.text t)
  | .ident x _ => env x
  | .hole _ => hole
  | .binary op lhs rhs _ =>
    (signals [lhs.denote call env hole, rhs.denote call env hole]).map fun ts =>
      .signal (.op op.opcode ts)
  | .call callee args _ => call callee (denoteArgs call env hole args)
  | .pipe source target _ => target.denote call env (source.denote call env hole)

def denoteArgs (call : String → List (Arg (Option Value)) → Option Value) (env : Env)
    (hole : Option Value) : List (Arg Expr) → List (Arg (Option Value))
  | [] => []
  | ⟨name, value, span⟩ :: args =>
    ⟨name, value.denote call env hole, span⟩ :: denoteArgs call env hole args

end

/-! ## Programs -/

def Statement.defines? : Statement → Option String
  | .define name _ _ _ => some name
  | _ => none

def function? (program : List Statement) (name : String) : Option (List Parameter × Expr) :=
  program.findSome? fun
    | .define n params body _ => if n = name then some (params, body) else none
    | _ => none

/-- The meaning of calls, with calls of functions nested at most `depth` deep. -/
def callIn (program : List Statement) (declared : String → Option Float) :
    (depth : Nat) → String → List (Arg (Option Value)) → Option Value
  | depth, callee, args =>
    match function? program callee, depth with
    | none, _ => (Builtin.find? callee).bind fun f => f.denote declared (arguments f.params args)
    | some _, 0 => none
    | some (params, body), depth + 1 =>
      (signals (arguments (params.map Resolving.formal) args)).bind fun ts =>
        body.denote (callIn program declared depth) (.ofParameters params ts) none

def denoteFrom (call : String → List (Arg (Option Value)) → Option Value) :
    Env → List Statement → List (Option Value)
  | _, [] => []
  | env, .define _ _ _ _ :: statements => none :: denoteFrom call env statements
  | env, .assign x e _ :: statements =>
    e.denote call env none :: denoteFrom call (env.assign x (e.denote call env none)) statements
  | env, .expr e :: statements => e.denote call env none :: denoteFrom call env statements

/-- The meanings of the statements of a program. No chain of calls enters a function twice, so none
is longer than the program. -/
def denotations (program : List Statement) (declared : String → Option Float) :
    List (Option Value) :=
  denoteFrom (callIn program declared program.length) .empty program

end SignalPatch
