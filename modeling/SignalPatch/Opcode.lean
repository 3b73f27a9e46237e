/-!
# Operation codes of the signal machine
-/

namespace SignalPatch

inductive Opcode where
  | nop
  | pushConst
  | copy
  | add
  | sub
  | mul
  | div
  | pow
  | neg
  | oscSin
  | oscTri
  | oscSaw
  | oscSqr
  | oscRamp
  | oscPhasor
  | filterLowPass
  | filterHighPass
  | filterBandPass
  | filterMoog
  | abs
  | sqrt
  | log
  | exp
  | min
  | max
  | clamp
  | wrap
  | floor
  | ceil
  | output
  | noise
  | noteToFrequency
  | dc
  | slew
  | sampleAndHold
  | envGet
  | envAdsr
  | envAr
  | delay
  | clock
  | lfo
  | seqStep
  | euclid
  | trigger
  | timeline
  | samplePlay
  deriving DecidableEq

namespace Opcode

def all : List Opcode :=
  [.nop, .pushConst, .copy, .add, .sub, .mul, .div, .pow, .neg, .oscSin, .oscTri, .oscSaw,
    .oscSqr, .oscRamp, .oscPhasor, .filterLowPass, .filterHighPass, .filterBandPass, .filterMoog,
    .abs, .sqrt, .log, .exp, .min, .max, .clamp, .wrap, .floor, .ceil, .output, .noise,
    .noteToFrequency, .dc, .slew, .sampleAndHold, .envGet, .envAdsr, .envAr, .delay, .clock,
    .lfo, .seqStep, .euclid, .trigger, .timeline, .samplePlay]

/-- The byte that stands for an operation in a program. -/
def code : Opcode → UInt8
  | .nop => 0
  | .pushConst => 1
  | .copy => 2
  | .add => 10
  | .sub => 11
  | .mul => 12
  | .div => 13
  | .pow => 14
  | .neg => 15
  | .oscSin => 20
  | .oscTri => 21
  | .oscSaw => 22
  | .oscSqr => 23
  | .oscRamp => 24
  | .oscPhasor => 25
  | .filterLowPass => 33
  | .filterHighPass => 34
  | .filterBandPass => 35
  | .filterMoog => 36
  | .abs => 40
  | .sqrt => 41
  | .log => 42
  | .exp => 43
  | .min => 44
  | .max => 45
  | .clamp => 46
  | .wrap => 47
  | .floor => 48
  | .ceil => 49
  | .output => 50
  | .noise => 51
  | .noteToFrequency => 52
  | .dc => 53
  | .slew => 54
  | .sampleAndHold => 55
  | .envGet => 56
  | .envAdsr => 60
  | .envAr => 61
  | .delay => 70
  | .clock => 90
  | .lfo => 91
  | .seqStep => 92
  | .euclid => 93
  | .trigger => 94
  | .timeline => 95
  | .samplePlay => 100

def ofCode? (byte : UInt8) : Option Opcode := all.find? (·.code == byte)

def mnemonic : Opcode → String
  | .nop => "NOP"
  | .pushConst => "PUSH_CONST"
  | .copy => "COPY"
  | .add => "ADD"
  | .sub => "SUB"
  | .mul => "MUL"
  | .div => "DIV"
  | .pow => "POW"
  | .neg => "NEG"
  | .oscSin => "OSC_SIN"
  | .oscTri => "OSC_TRI"
  | .oscSaw => "OSC_SAW"
  | .oscSqr => "OSC_SQR"
  | .oscRamp => "OSC_RAMP"
  | .oscPhasor => "OSC_PHASOR"
  | .filterLowPass => "FILTER_SVF_LP"
  | .filterHighPass => "FILTER_SVF_HP"
  | .filterBandPass => "FILTER_SVF_BP"
  | .filterMoog => "FILTER_MOOG"
  | .abs => "ABS"
  | .sqrt => "SQRT"
  | .log => "LOG"
  | .exp => "EXP"
  | .min => "MIN"
  | .max => "MAX"
  | .clamp => "CLAMP"
  | .wrap => "WRAP"
  | .floor => "FLOOR"
  | .ceil => "CEIL"
  | .output => "OUTPUT"
  | .noise => "NOISE"
  | .noteToFrequency => "MTOF"
  | .dc => "DC"
  | .slew => "SLEW"
  | .sampleAndHold => "SAH"
  | .envGet => "ENV_GET"
  | .envAdsr => "ENV_ADSR"
  | .envAr => "ENV_AR"
  | .delay => "DELAY"
  | .clock => "CLOCK"
  | .lfo => "LFO"
  | .seqStep => "SEQ_STEP"
  | .euclid => "EUCLID"
  | .trigger => "TRIGGER"
  | .timeline => "TIMELINE"
  | .samplePlay => "SAMPLE_PLAY"

end Opcode

end SignalPatch
