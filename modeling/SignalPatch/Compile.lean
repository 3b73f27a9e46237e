import SignalPatch.Lowering
import SignalPatch.Preamble
import SignalPatch.Token.Scan

/-!
# Compiling a program

The user's text is read behind the standard preamble, scanned, parsed, resolved and lowered. The
first stage that reports an error is the last; messages are in the coordinates of the user's file.
-/

namespace SignalPatch

/-- What a host needs to load a program. A failed compilation leaves only diagnostics. -/
structure Compiled where
  success : Bool
  diagnostics : List Diagnostic
  bytecode : List UInt8 := []
  sequences : List SequenceInit := []
  samples : List String := []
  hostParams : List HostParam := []
  deriving DecidableEq

namespace Compiled

def failed (diagnostics : List Diagnostic) : Compiled := { success := false, diagnostics }

def instructionCount (c : Compiled) : Nat := c.bytecode.length / Instruction.size

def errorCount (c : Compiled) : Nat := c.diagnostics.countP Diagnostic.isError

end Compiled

def relocated (boundary : Boundary) (filename : String) (fs : List Finding) : List Diagnostic :=
  fs.map fun f => boundary.relocateDiagnostic filename (f.diagnostic filename)

/-- The bytes before the user's text are taken off the offset of a sequence. -/
def SequenceInit.shift (boundary : Boundary) (s : SequenceInit) : SequenceInit :=
  { s with span := { s.span with offset := s.span.offset - boundary.bytes } }

def compileLinked (linked : LinkedSource) (filename : String) (bank : SampleRegistry) : Compiled :=
  let messages := relocated linked.boundary filename
  let scanned := scan linked.text
  let fromScan := messages scanned.findings
  if hasErrors fromScan then .failed fromScan
  else
    let parsed := parse scanned.tokens
    let fromParse := fromScan ++ messages parsed.findings
    if hasErrors fromParse then .failed fromParse
    else
      let resolved := parsed.patch.resolve
      let fromResolve := fromParse ++ messages resolved.findings
      if hasErrors fromResolve then .failed fromResolve
      else
        let code := resolved.lower bank
        let fromLower := fromResolve ++ messages code.findings
        if hasErrors fromLower then .failed fromLower
        else
          { success := true
            diagnostics := fromLower
            bytecode := Bytecode.encode code.instructions
            sequences := code.sequences.map (.shift linked.boundary)
            samples := code.samples
            hostParams := code.hostParams }

def compile (source filename : String) (bank : SampleRegistry) : Compiled :=
  if source.isEmpty then .failed [Finding.diagnostic filename ⟨.emptySource, .origin⟩]
  else compileLinked (.standard source) filename bank

/-- Compiles a file with the given contents; one without contents could not be read. -/
def compileFile (contents : Option String) (filename : String) (bank : SampleRegistry) : Compiled :=
  match contents with
  | some source => compile source filename bank
  | none => .failed [Finding.diagnostic filename ⟨.unreadableFile filename, .origin⟩]

def sourceOf (d : Diagnostic) (user : String) : String :=
  if d.filename = Preamble.filename then Preamble.standard else user

def rendered (d : Diagnostic) (user : String) : String := d.render (sourceOf d user)

end SignalPatch
