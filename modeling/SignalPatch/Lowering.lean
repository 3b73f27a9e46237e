import SignalPatch.Decimal.Narrow
import SignalPatch.Resolution
import SignalPatch.SampleBank

/-!
# Lowering a resolved patch to instructions

One walk over the statements in order. Every value gets a buffer of its own, numbered as
instructions are made, so an instruction reads only what earlier ones wrote. A node that several
others share is lowered once. A call of a function is replaced by its body; the body sees its
parameters and the functions, never the caller's variables.

Stateful instructions carry an identity: the fingerprint of the path of names that leads to them,
with a running number among equal paths. It does not depend on unrelated parts of the patch.
-/

namespace SignalPatch

inductive SequenceKind where
  | values
  | samples
  deriving DecidableEq

structure SequenceInit where
  stateId : UInt32
  span : Span
  kind : SequenceKind
  cycleLength : Float
  times : List Float
  values : List Float
  velocities : List Float
  sampleNames : List String
  deriving DecidableEq

structure Lowered where
  instructions : List Instruction := []
  /-- The buffers of nodes already lowered in the current body. -/
  memo : List (NodeId × Buffer) := []
  /-- The paths that were numbered so far. -/
  issued : List String := []
  /-- The texts whose fingerprints became identities, in order. -/
  identified : List String := []
  sequences : List SequenceInit := []
  samples : List String := []
  findings : List Finding := []

/-- Steps of lowering. One that fails leaves what was made before it. -/
abbrev Lowering := OptionT (StateM Lowered)

/-- Where a piece of code stands: the names it sees, its path, and the functions it expands. -/
structure Site where
  symbols : SymbolTable
  path : List String
  expanding : List String := []

def numbered (leaf : String) (n : Nat) : String := leaf ++ "#" ++ toString n

def Site.expansion (site : Site) (globals : SymbolTable) (name : String) (n : Nat)
    (params : List Parameter) (inputs : List Buffer) : Site :=
  { symbols := (params.zip inputs).foldl
      (fun t (p, buffer) => t.define (.ofParameter p.name buffer)) globals.push
    path := site.path ++ [numbered name n]
    expanding := name :: site.expanding }

namespace Lowering

def bufferLimit : Nat := 256

def cycleBeats : Float := 4

def report (issue : Issue) (span : Span) : Lowering Unit :=
  modify fun l => { l with findings := l.findings ++ [⟨issue, span⟩] }

def fail {α : Type} (issue : Issue) (span : Span) : Lowering α := do
  report issue span
  failure

/-! ## Instructions -/

def append (span : Span) (make : Buffer → Instruction) : Lowering Buffer := do
  let next := (← get).instructions.length
  if next < bufferLimit then
    let out := next.toUInt16
    modify fun l => { l with instructions := l.instructions ++ [make out] }
    return out
  else fail .outOfBuffers span

def emit (opcode : Opcode) (inputs : List Buffer) (payload : UInt32) (span : Span) :
    Lowering Buffer :=
  append span fun out => { opcode, out, inputs := .ofList inputs, payload }

def emitConst (value : Float) (span : Span) : Lowering Buffer :=
  append span fun out => .constant out (Decimal.narrow value)

/-! ## Paths -/

def pathText (path : List String) : String := "/".intercalate path

/-- How often a name was numbered at a path before; counts this time. -/
def number (path : List String) (leaf : String) : Lowering Nat := do
  let key := pathText path ++ "/" ++ leaf
  let n := (← get).issued.count key
  modify fun l => { l with issued := l.issued ++ [key] }
  return n

def stateId (path : List String) (callee : String) : Lowering UInt32 := do
  let n ← number path callee
  let text := pathText path ++ "/" ++ numbered callee n
  modify fun l => { l with identified := l.identified ++ [text] }
  return Text.fingerprint text

/-! ## Patterns and host parameters -/

/-- The place of a sample among those needed, counted from one; it joins them on its first use. -/
def sampleSlot (name : String) : Lowering Nat := do
  let samples := (← get).samples
  match samples.findIdx? (· == name) with
  | some i => return i + 1
  | none =>
    modify fun l => { l with samples := samples ++ [name] }
    return samples.length + 1

def soundValue : Pattern.Sound → Lowering Float
  | .number v => return v
  | .pitch note => return Pitch.frequency note
  | .sample name => return Float.ofNat (← sampleSlot name)

def sequenceInit (stateId : UInt32) (p : Pattern) (span : Span) : Lowering SequenceInit := do
  let values ← p.events.mapM fun e => soundValue e.sound
  return {
    stateId
    span
    kind := if p.isSample then .samples else .values
    cycleLength := cycleBeats
    times := p.events.map fun e => e.time * cycleBeats
    values
    velocities := p.events.map fun _ => 1
    sampleNames := p.sampleNames }

/-- Lowers a pattern to a step of its sequence, and for samples to a player of what it gives. -/
def lowerPattern (r : Resolved) (bank : SampleRegistry) (path : List String) (text : NodeId)
    (span : Span) : Lowering Buffer := do
  let textSpan := r.patch.nodes.span text
  match r.patterns.lookup text with
  | none => fail .unresolvedPattern textSpan
  | some pattern =>
    let unknown := pattern.sampleNames.eraseDups.filter (!bank.contains ·)
    unknown.forM fun name => report (.unknownSample name) textSpan
    if !unknown.isEmpty then failure
    let id ← stateId path "pat"
    let init ← sequenceInit id pattern span
    let index := (← get).sequences.length
    modify fun l => { l with sequences := l.sequences ++ [init] }
    let step ← emit .seqStep [] index.toUInt32 span
    match init.kind with
    | .values => return step
    | .samples =>
      let pitch ← emitConst 1 span
      emit .samplePlay [step, pitch] id span

def lowerHostParam (r : Resolved) (nameNode : NodeId) (span : Span) : Lowering Buffer := do
  let declared : Option HostParam :=
    match r.patch.nodes.kind nameNode with
    | .text name => r.hostParams.find? (·.name == name)
    | _ => none
  match declared with
  | none => fail .unresolvedHostParam span
  | some param =>
    let fallback ← emitConst param.default span
    emit .envGet [fallback] param.hash span

/-! ## Expressions -/

def binaryOpcode : BinaryOp → Opcode
  | .add => .add
  | .sub => .sub
  | .mul => .mul
  | .div => .div
  | .pow => .pow

def lowerIdent (site : Site) (name : String) (span : Span) : Lowering Buffer :=
  match site.symbols.lookup name with
  | some symbol =>
    if symbol.isValue && symbol.buffer != .unused then return symbol.buffer
    else fail (.valueMissing name) span
  | none => fail (.valueMissing name) span

/-- Runs a step with nothing lowered yet, and forgets afterwards what it lowered. -/
def inOwnMemo {α : Type} (x : Lowering α) : Lowering α := OptionT.mk do
  let memo := (← get).memo
  modify fun l => { l with memo := [] }
  let result ← x.run
  modify fun l => { l with memo }
  return result

/-- Lowers the tree below a node, at most `depth` nodes and expansions deep, and gives the buffer of
its value. -/
def lower (r : Resolved) (bank : SampleRegistry) : (depth : Nat) → Site → NodeId → Lowering Buffer
  | 0, _, _ => failure
  | depth + 1, site, id => do
    match (← get).memo.lookup id with
    | some buffer => return buffer
    | none =>
      let span := r.patch.nodes.span id
      let buffer ← match r.patch.nodes.kind id with
        | .number v => emitConst v span
        | .bool b => emitConst (if b then 1 else 0) span
        | .text _ => fail .textAsSignal span
        | .ident name => lowerIdent site name span
        | .binary op lhs rhs => do
          let a ← lower r bank depth site lhs
          let b ← lower r bank depth site rhs
          emit (binaryOpcode op) [a, b] 0 span
        | .call callee args =>
          match (site.symbols.lookup callee).map Symbol.meaning with
          | some (.builtin b) =>
            match b.kind with
            | .op opcode => do
              let inputs ← args.mapM fun a => lower r bank depth site a.value
              let payload ← if b.stateful then stateId site.path b.name else pure 0
              emit opcode inputs payload span
            | .pattern =>
              match args with
              | [] => failure
              | text :: _ => lowerPattern r bank site.path text.value span
            | .control _ =>
              match args with
              | [] => failure
              | name :: _ => lowerHostParam r name.value span
          | some (.function f) => do
            if site.expanding.contains f.name then fail (.recursiveFunction f.name) span
            let inputs ← args.mapM fun a => lower r bank depth site a.value
            match r.patch.nodes.kind f.definition with
            | .define _ params body => do
              let n ← number site.path f.name
              inOwnMemo (lower r bank depth
                (site.expansion r.symbols f.name n params inputs) body)
            | _ => fail (.definitionMissing f.name) span
          | _ => fail (.unresolvedCall callee) span
        | .hole | .pipe _ _ | .assign _ _ | .define _ _ _ => fail .unresolvedExpression span
      modify fun l => { l with memo := (id, buffer) :: l.memo }
      return buffer

/-! ## Statements -/

def lowerStatement (r : Resolved) (bank : SampleRegistry) (depth : Nat) (symbols : SymbolTable)
    (id : NodeId) : StateM Lowered SymbolTable := do
  match r.patch.nodes.kind id with
  | .define _ _ _ => return symbols
  | .assign name value =>
    match ← (lower r bank depth ⟨symbols, ["main", name], []⟩ value).run with
    | some buffer => return symbols.define (.ofVariable name buffer)
    | none => return symbols
  | _ =>
    discard (lower r bank depth ⟨symbols, ["main"], []⟩ id).run
    return symbols

def hasErrors (l : Lowered) : Bool := l.findings.any Finding.isError

def lowerStatements (r : Resolved) (bank : SampleRegistry) (depth : Nat) (symbols : SymbolTable) :
    List NodeId → StateM Lowered Unit
  | [] => return ()
  | id :: ids => do
    let symbols ← lowerStatement r bank depth symbols id
    if hasErrors (← get) then return ()
    lowerStatements r bank depth symbols ids

end Lowering

structure Code where
  instructions : List Instruction
  sequences : List SequenceInit
  samples : List String
  hostParams : List HostParam
  findings : List Finding
  success : Bool

def SymbolTable.functionCount (t : SymbolTable) : Nat :=
  t.globals.countP fun s => s.meaning matches .function _

/-- Nodes and expansions that a path of the walk can pass: each function is expanded at most once
along it, and each body adds at most the whole arena. -/
def Resolved.depth (r : Resolved) : Nat :=
  (r.symbols.functionCount + 1) * (r.patch.nodes.size + 1)

def Resolved.lower (r : Resolved) (bank : SampleRegistry) : Code :=
  let (_, l) := (Lowering.lowerStatements r bank r.depth r.symbols.push r.patch.statements).run {}
  let success := !Lowering.hasErrors l
  { instructions := if success then l.instructions else []
    sequences := l.sequences
    samples := l.samples
    hostParams := r.hostParams
    findings := l.findings
    success }

end SignalPatch
