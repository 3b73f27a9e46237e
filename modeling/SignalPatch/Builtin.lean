import SignalPatch.Opcode

/-!
# Signatures and built-in functions
-/

namespace SignalPatch

/-- What a parameter takes when a call gives it no argument. -/
inductive Fallback where
  | required
  | value (v : Float)
  | sameAs (index : Nat)
  deriving DecidableEq

structure Formal where
  name : String
  fallback : Fallback
  deriving DecidableEq

abbrev Signature := List Formal

namespace Signature

def requiredCount (s : Signature) : Nat := s.countP (·.fallback = .required)

def index? (s : Signature) (name : String) : Option Nat := s.findIdx? (·.name == name)

end Signature

inductive ControlKind where
  | continuous
  | button
  | toggle
  deriving DecidableEq

/-- What a call of a built-in function becomes: one instruction with an input per parameter, a
pattern, or a parameter of the host. -/
inductive BuiltinKind where
  | op (opcode : Opcode)
  | pattern
  | control (kind : ControlKind)
  deriving DecidableEq

structure Builtin where
  name : String
  kind : BuiltinKind
  params : Signature
  /-- Whether each call keeps a state of its own. -/
  stateful : Bool
  deriving DecidableEq

namespace Builtin

def required (name : String) : Formal := ⟨name, .required⟩

def optional (name : String) (v : Float) : Formal := ⟨name, .value v⟩

def op (name : String) (opcode : Opcode) (params : Signature) : Builtin :=
  ⟨name, .op opcode, params, false⟩

def stateOp (name : String) (opcode : Opcode) (params : Signature) : Builtin :=
  ⟨name, .op opcode, params, true⟩

def unary : Signature := [required "x"]

def binary : Signature := [required "a", required "b"]

def range : Signature := [required "x", required "lo", required "hi"]

def oscillator : Signature := [required "freq"]

def filter : Signature := [required "in", required "cut", optional "q" 0.707]

def table : List Builtin :=
  [ stateOp "sin" .oscSin oscillator,
    stateOp "tri" .oscTri oscillator,
    stateOp "saw" .oscSaw oscillator,
    stateOp "sqr" .oscSqr oscillator,
    stateOp "ramp" .oscRamp oscillator,
    stateOp "phasor" .oscPhasor oscillator,
    stateOp "lp" .filterLowPass filter,
    stateOp "hp" .filterHighPass filter,
    stateOp "bp" .filterBandPass filter,
    stateOp "moog" .filterMoog [required "in", required "cut", optional "res" 1.0],
    stateOp "adsr" .envAdsr
      [required "gate", optional "attack" 0.01, optional "decay" 0.1, optional "sustain" 0.7],
    stateOp "ar" .envAr [required "trig", optional "attack" 0.01, optional "release" 0.3],
    stateOp "delay" .delay [required "in", required "time", required "fb"],
    op "add" .add binary,
    op "sub" .sub binary,
    op "mul" .mul binary,
    op "div" .div binary,
    op "pow" .pow binary,
    op "neg" .neg unary,
    op "abs" .abs unary,
    op "sqrt" .sqrt unary,
    op "log" .log unary,
    op "exp" .exp unary,
    op "floor" .floor unary,
    op "ceil" .ceil unary,
    op "min" .min binary,
    op "max" .max binary,
    op "clamp" .clamp range,
    op "wrap" .wrap range,
    stateOp "noise" .noise [],
    op "mtof" .noteToFrequency [required "note"],
    op "dc" .dc [required "offset"],
    stateOp "slew" .slew [required "target", required "rate"],
    stateOp "sah" .sampleAndHold [required "in", required "trig"],
    op "out" .output [required "left", ⟨"right", .sameAs 0⟩],
    op "clock" .clock [],
    stateOp "lfo" .lfo [required "rate", optional "duty" 0.5],
    stateOp "trigger" .trigger [required "div"],
    stateOp "euclid" .euclid [required "hits", required "steps", optional "rot" 0.0],
    ⟨"pat", .pattern, [required "pattern"], true⟩,
    ⟨"param", .control .continuous,
      [required "name", optional "default" 0.0, optional "min" 0.0, optional "max" 1.0], false⟩,
    ⟨"button", .control .button, [required "name"], false⟩,
    ⟨"toggle", .control .toggle, [required "name", optional "default" 0.0], false⟩ ]

def aliases : List (String × String) :=
  [ ("sine", "sin"),
    ("triangle", "tri"),
    ("sawtooth", "saw"),
    ("square", "sqr"),
    ("lowpass", "lp"),
    ("highpass", "hp"),
    ("bandpass", "bp"),
    ("svflp", "lp"),
    ("svfhp", "hp"),
    ("svfbp", "bp"),
    ("moogladder", "moog"),
    ("envelope", "adsr"),
    ("output", "out") ]

/-- The name in the table that a name stands for. -/
def canonicalName (name : String) : String := (aliases.lookup name).getD name

def find? (name : String) : Option Builtin := table.find? (·.name == canonicalName name)

end Builtin

end SignalPatch
