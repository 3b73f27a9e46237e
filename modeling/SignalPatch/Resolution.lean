import SignalPatch.Binding
import SignalPatch.HostParam
import SignalPatch.Pattern
import SignalPatch.Symbol

/-!
# Resolving a patch

Resolution works on the arena of a patch in place. Pipes disappear: a hole becomes the very node
that flows into its pipe. Calls get one unnamed argument per parameter. Names are checked, patterns
read and host parameters collected. Function definitions come first, so that a function may be
called before it is defined; a variable must be assigned before it is used.
-/

namespace SignalPatch

structure Resolution where
  nodes : Arena
  symbols : SymbolTable := .standard
  hostParams : List HostParam := []
  patterns : List (NodeId × Pattern) := []
  findings : List Finding := []

abbrev Resolving := StateM Resolution

namespace Resolving

def report (issue : Issue) (span : Span) : Resolving Unit :=
  modify fun r => { r with findings := r.findings ++ [⟨issue, span⟩] }

def kindOf (id : NodeId) : Resolving NodeKind := return (← get).nodes.kind id

def spanOf (id : NodeId) : Resolving Span := return (← get).nodes.span id

def setKind (id : NodeId) (kind : NodeKind) : Resolving Unit :=
  modify fun r => { r with nodes := r.nodes.setKind id kind }

def setSymbols (f : SymbolTable → SymbolTable) : Resolving Unit :=
  modify fun r => { r with symbols := f r.symbols }

def lookup (name : String) : Resolving (Option Symbol) := return (← get).symbols.lookup name

def define (symbol : Symbol) (span : Span) : Resolving Unit := do
  match (← get).symbols.define? { symbol with definedAt := some span } with
  | some symbols => modify fun r => { r with symbols }
  | none =>
    let previous := (← lookup symbol.name).bind Symbol.definedAt
    report (.redefinition symbol.name previous) span

/-! ## Expressions -/

/-- Whether a hole below a node would be filled by a pipe around it. Holes on the right side of a
pipe belong to that pipe. Looks `depth` nodes deep. -/
def containsHole (nodes : Arena) : (depth : Nat) → NodeId → Bool
  | 0, _ => false
  | depth + 1, id =>
    match nodes.kind id with
    | .hole => true
    | .binary _ lhs rhs => containsHole nodes depth lhs || containsHole nodes depth rhs
    | .call _ args => args.any fun a => containsHole nodes depth a.value
    | .pipe source _ => containsHole nodes depth source
    | _ => false

def isCall : NodeKind → Bool
  | .call _ _ => true
  | _ => false

def checkValue (name : String) (span : Span) : Resolving Unit := do
  match ← lookup name with
  | none => report (.unknownIdentifier name) span
  | some symbol => if symbol.isValue then pure () else report (.functionAsValue name) span

def readPattern (id : NodeId) : Resolving Unit := do
  match ← kindOf id with
  | .text text =>
    match Pattern.parse text (← spanOf id) with
    | .ok pattern =>
      modify fun r => { r with patterns := r.patterns.filter (·.1 != id) ++ [(id, pattern)] }
    | .error finding => report finding.issue finding.span
  | _ => report .patternNotText (← spanOf id)

def numbers (nodes : Arena) : List NodeId → Except NodeId (List Float)
  | [] => .ok []
  | id :: ids =>
    match nodes.kind id with
    | .number v => (v :: ·) <$> numbers nodes ids
    | _ => .error id

def declareHostParam (callee : String) (kind : ControlKind) (args : List NodeId) (span : Span) :
    Resolving Unit := do
  let r ← get
  match args with
  | [] => pure ()
  | nameNode :: rest =>
    match r.nodes.kind nameNode with
    | .text name =>
      match numbers r.nodes rest with
      | .error id => report (.hostParamSetting callee) (r.nodes.span id)
      | .ok values =>
        let p := HostParam.make kind name values span
        let remarks := HostParam.remarks r.hostParams p (HostParam.isSwapped kind values)
        let findings := r.findings ++ remarks.map (Finding.mk · span)
        set { r with hostParams := HostParam.declare r.hostParams p, findings }
    | _ => report (.hostParamName callee) (r.nodes.span nameNode)

/-- What a call of a built-in function asks for besides its arguments. -/
def checkBuiltin (callee : String) (b : Builtin) (args : List NodeId) (span : Span) :
    Resolving Unit :=
  match b.kind with
  | .op _ => pure ()
  | .pattern => args.head?.forM readPattern
  | .control kind => declareHostParam callee kind args span

/-- Matches the arguments of a call to a signature and gives the call one argument per parameter. -/
def bindCall (id : NodeId) (callee : String) (params : Signature) (args : List (Arg NodeId))
    (span : Span) : Resolving (Option (List NodeId)) := do
  let r ← get
  let bound := Binding.bind callee params args span r.nodes
  set { r with nodes := bound.nodes, findings := r.findings ++ bound.findings }
  match bound.values with
  | none => return none
  | some values =>
    setKind id (.call callee (values.map fun v => ⟨none, v, bound.nodes.span v⟩))
    return some values

def resolveCall (id : NodeId) (callee : String) (args : List (Arg NodeId)) : Resolving Unit := do
  let span ← spanOf id
  setKind id (.call callee args)
  match (← lookup callee).map Symbol.meaning with
  | none => report (.unknownFunction callee) span
  | some .variable | some .parameter => report (.valueCalled callee) span
  | some (.function f) => discard (bindCall id callee f.params args span)
  | some (.builtin b) =>
    match ← bindCall id callee b.params args span with
    | none => pure ()
    | some values => checkBuiltin callee b values span

/-- Resolves the tree below a node, at most `depth` nodes deep, and gives the node that takes its
place. `hole` is the node that a hole stands for, inside the right side of a pipe. -/
def resolve : (depth : Nat) → (hole : Option NodeId) → NodeId → Resolving NodeId
  | 0, _, id => return id
  | depth + 1, hole, id => do
    match ← kindOf id with
    | .number _ | .bool _ | .text _ => return id
    | .hole =>
      match hole with
      | some source => return source
      | none =>
        report .holeOutsidePipe (← spanOf id)
        return id
    | .ident name =>
      checkValue name (← spanOf id)
      return id
    | .binary op lhs rhs =>
      let lhs ← resolve depth hole lhs
      let rhs ← resolve depth hole rhs
      setKind id (.binary op lhs rhs)
      return id
    | .pipe source target =>
      let source ← resolve depth hole source
      let nodes := (← get).nodes
      if isCall (nodes.kind target) && containsHole nodes depth target then
        resolve depth (some source) target
      else
        report .badPipeTarget (nodes.span target)
        return source
    | .call callee args =>
      let args ← args.mapM fun a => return { a with value := ← resolve depth hole a.value }
      resolveCall id callee args
      return id
    | .assign _ _ | .define _ _ _ =>
      report .misplacedDefinition (← spanOf id)
      return id

/-! ## Statements -/

def formal (p : Parameter) : Formal :=
  ⟨p.name, match p.default with
    | none => .required
    | some v => .value v⟩

def repeatedParameters (function : String) (seen : List String) : List Parameter → List Finding
  | [] => []
  | p :: ps =>
    (if seen.contains p.name then [⟨.duplicateParameter p.name function, p.span⟩] else []) ++
      repeatedParameters function (p.name :: seen) ps

def hoist (id : NodeId) : Resolving Unit := do
  match ← kindOf id with
  | .define name params _ =>
    modify fun r => { r with findings := r.findings ++ repeatedParameters name [] params }
    define (.of name (.function ⟨name, params.map formal, id⟩)) (← spanOf id)
  | _ => pure ()

def defineParameter (symbols : SymbolTable) (p : Parameter) : SymbolTable :=
  symbols.define { Symbol.of p.name .parameter with definedAt := some p.span }

/-- Resolves the body of a function definition. Its parameters and the functions are in scope. -/
def resolveFunction (depth : Nat) (id : NodeId) : Resolving Unit := do
  match ← kindOf id with
  | .define name params body =>
    setSymbols fun symbols => params.foldl defineParameter symbols.push
    let body ← resolve depth none body
    setSymbols .pop
    setKind id (.define name params body)
  | _ => pure ()

def resolveStatement (depth : Nat) (id : NodeId) : Resolving NodeId := do
  match ← kindOf id with
  | .define _ _ _ => return id
  | .assign name value =>
    let span ← spanOf id
    let value ← resolve depth none value
    setKind id (.assign name value)
    define (.of name .variable) span
    return id
  | _ => resolve depth none id

/-- Resolves a whole patch: the names of functions, their bodies, then the other statements. -/
def program (statements : List NodeId) (depth : Nat) : Resolving (List NodeId) := do
  statements.forM hoist
  statements.forM (resolveFunction depth)
  setSymbols .push
  let statements ← statements.mapM (resolveStatement depth)
  setSymbols .pop
  return statements

end Resolving

structure Resolved where
  patch : Patch
  symbols : SymbolTable
  hostParams : List HostParam
  patterns : List (NodeId × Pattern)
  findings : List Finding

def Resolved.success (r : Resolved) : Bool := !r.findings.any Finding.isError

/-- Resolves a patch. No path through it is longer than its arena and one fresh literal. -/
def Patch.resolve (p : Patch) : Resolved :=
  let resolving := Resolving.program p.statements (p.nodes.size + 2)
  let (statements, r) := resolving.run { nodes := p.nodes }
  { patch := ⟨r.nodes, statements⟩
    symbols := r.symbols
    hostParams := r.hostParams
    patterns := r.patterns
    findings := r.findings }

end SignalPatch
