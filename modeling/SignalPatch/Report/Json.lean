import SignalPatch.Compile

/-!
# Reports as JSON

The whole result of a compilation as a JSON text on several lines.
-/

namespace SignalPatch.Report

inductive Value where
  | null
  | bool (b : Bool)
  | whole (n : Nat)
  | float (v : Float)
  | text (s : String)
  | list (items : List Value)
  | object (fields : List (String × Value))

def hexDigit (n : Nat) : Char := (Nat.toDigits 16 n).headD '0'

def escaped (c : Char) : List Char :=
  match c with
  | '"' => ['\\', '"']
  | '\\' => ['\\', '\\']
  | '\x08' => ['\\', 'b']
  | '\x0c' => ['\\', 'f']
  | '\n' => ['\\', 'n']
  | '\r' => ['\\', 'r']
  | '\t' => ['\\', 't']
  | c =>
    if c.toNat < 0x20 then ['\\', 'u', '0', '0', hexDigit (c.toNat / 16), hexDigit (c.toNat % 16)]
    else [c]

def quoted (s : String) : String := "\"" ++ String.ofList (s.toList.flatMap escaped) ++ "\""

def indentation (depth : Nat) : String := String.ofList (List.replicate (2 * depth) ' ')

mutual

/-- The pieces of the text of a value that starts on a line indented to `depth`. -/
def Value.pieces (depth : Nat) : Value → List String
  | .null => ["null"]
  | .bool b => [if b then "true" else "false"]
  | .whole n => [toString n]
  | .float v => [Decimal.json v]
  | .text s => [quoted s]
  | .list [] => ["[]"]
  | .list (item :: items) =>
    "[\n" :: indentation (depth + 1) :: (item.pieces (depth + 1) ++ itemPieces (depth + 1) items) ++
      ["\n", indentation depth, "]"]
  | .object [] => ["\x7b\x7d"]
  | .object ((name, value) :: fields) =>
    "\x7b\n" :: indentation (depth + 1) :: quoted name :: ": " ::
      (value.pieces (depth + 1) ++ fieldPieces (depth + 1) fields) ++
      ["\n", indentation depth, "\x7d"]

def itemPieces (depth : Nat) : List Value → List String
  | [] => []
  | item :: items =>
    ",\n" :: indentation depth :: (item.pieces depth ++ itemPieces depth items)

def fieldPieces (depth : Nat) : List (String × Value) → List String
  | [] => []
  | (name, value) :: fields =>
    ",\n" :: indentation depth :: quoted name :: ": " ::
      (value.pieces depth ++ fieldPieces depth fields)

end

def Value.pretty (v : Value) : String := String.join (v.pieces 0)

/-! ## The parts of a result -/

def ofSpan (s : Span) : Value :=
  .object [("line", .whole s.line), ("column", .whole s.column), ("offset", .whole s.offset),
    ("length", .whole s.length)]

def ofNote (n : Note) : Value :=
  .object [("message", .text n.message), ("filename", .text n.filename),
    ("location", ofSpan n.span)]

def ofFix (f : Fix) : Value :=
  .object [("description", .text f.description), ("new_text", .text f.newText),
    ("location", ofSpan f.span)]

/-- Notes and a fix are left out when there are none. -/
def ofDiagnostic (d : Diagnostic) : Value :=
  .object (
    [("severity", .text d.severity.name), ("code", .text d.code), ("message", .text d.message),
      ("filename", .text d.filename), ("location", ofSpan d.span)] ++
    (if d.related.isEmpty then [] else [("related", .list (d.related.map ofNote))]) ++
    (d.fix.map fun f => ("fix", ofFix f)).toList)

def floats (vs : List Float) : Value := .list (vs.map .float)

def sequenceKindName : SequenceKind → String
  | .values => "sequence"
  | .samples => "sample_sequence"

def ofSequence (s : SequenceInit) : Value :=
  .object (
    [("state_id", .whole s.stateId.toNat), ("location", ofSpan s.span),
      ("kind", .text (sequenceKindName s.kind)), ("cycle_length", .float s.cycleLength),
      ("times", floats s.times), ("values", floats s.values),
      ("velocities", floats s.velocities)] ++
    if s.sampleNames.isEmpty then [] else [("sample_names", .list (s.sampleNames.map .text))])

def controlKindName : ControlKind → String
  | .continuous => "continuous"
  | .button => "button"
  | .toggle => "toggle"

def ofHostParam (p : HostParam) : Value :=
  .object [("name", .text p.name), ("name_hash", .whole p.hash.toNat),
    ("kind", .text (controlKindName p.kind)), ("default", .float p.default), ("min", .float p.min),
    ("max", .float p.max), ("source_offset", .whole p.offset), ("source_length", .whole p.length)]

def ofCompiled (c : Compiled) : Value :=
  .object [("success", .bool c.success), ("diagnostics", .list (c.diagnostics.map ofDiagnostic)),
    ("bytecode", .list (c.bytecode.map fun b => .whole b.toNat)),
    ("state_inits", .list (c.sequences.map ofSequence)),
    ("required_samples", .list (c.samples.map .text)),
    ("param_decls", .list (c.hostParams.map ofHostParam))]

def json (c : Compiled) : String := (ofCompiled c).pretty ++ "\n"

end SignalPatch.Report
