import SignalPatch.Opcode

/-!
# Instructions of the signal machine

An instruction reads up to four buffers and writes one. Programs are stored as records of sixteen
bytes, lower bytes first:

    operation (1) rate (1) output (2) inputs (4 * 2) payload (4)
-/

namespace SignalPatch

abbrev Buffer := UInt16

/-- Stands where an instruction has no input, and for a value that has no buffer yet. -/
def Buffer.unused : Buffer := 0xFFFF

structure Operands where
  first : Buffer
  second : Buffer
  third : Buffer
  fourth : Buffer
  deriving DecidableEq

namespace Operands

def toList (o : Operands) : List Buffer := [o.first, o.second, o.third, o.fourth]

def ofList (buffers : List Buffer) : Operands :=
  let slot (i : Nat) : Buffer := buffers.getD i .unused
  ⟨slot 0, slot 1, slot 2, slot 3⟩

/-- The inputs that are there. -/
def used (o : Operands) : List Buffer := o.toList.filter (· != .unused)

end Operands

/-- One instruction. The payload of a constant is its single-precision bits, that of a sequence step
the number of its sequence, that of a host parameter the fingerprint of its name, and that of any
other stateful operation its state identity. -/
structure Instruction where
  opcode : Opcode
  rate : UInt8 := 0
  out : Buffer
  inputs : Operands
  payload : UInt32 := 0
  deriving DecidableEq

namespace Instruction

def constant (out : Buffer) (bits : UInt32) : Instruction :=
  { opcode := .pushConst, out, inputs := .ofList [], payload := bits }

def size : Nat := 16

end Instruction

namespace Bytecode

def bytes16 (w : UInt16) : List UInt8 := [w.toUInt8, (w >>> 8).toUInt8]

def bytes32 (w : UInt32) : List UInt8 :=
  [w.toUInt8, (w >>> 8).toUInt8, (w >>> 16).toUInt8, (w >>> 24).toUInt8]

def word16 (a b : UInt8) : UInt16 := a.toUInt16 ||| (b.toUInt16 <<< 8)

def word32 (a b c d : UInt8) : UInt32 :=
  a.toUInt32 ||| (b.toUInt32 <<< 8) ||| (c.toUInt32 <<< 16) ||| (d.toUInt32 <<< 24)

def record (i : Instruction) : List UInt8 :=
  [i.opcode.code, i.rate] ++ bytes16 i.out ++ i.inputs.toList.flatMap bytes16 ++ bytes32 i.payload

def encode (is : List Instruction) : List UInt8 := is.flatMap record

inductive DecodeError where
  | truncated (length : Nat)
  | unknownOpcode (byte : UInt8)
  deriving DecidableEq

def DecodeError.message : DecodeError → String
  | .truncated length =>
    "bytecode length " ++ toString length ++ " is not a multiple of " ++ toString Instruction.size
  | .unknownOpcode byte => "unknown opcode " ++ toString byte.toNat

def records : List UInt8 → Except DecodeError (List Instruction)
  | o :: rate :: o₀ :: o₁ :: a₀ :: a₁ :: b₀ :: b₁ :: c₀ :: c₁ :: d₀ :: d₁ ::
      p₀ :: p₁ :: p₂ :: p₃ :: rest => do
    match Opcode.ofCode? o with
    | none => throw (.unknownOpcode o)
    | some opcode =>
      let inputs := ⟨word16 a₀ a₁, word16 b₀ b₁, word16 c₀ c₁, word16 d₀ d₁⟩
      let is ← records rest
      return { opcode, rate, out := word16 o₀ o₁, inputs, payload := word32 p₀ p₁ p₂ p₃ } :: is
  | _ => return []

def decode (bytes : List UInt8) : Except DecodeError (List Instruction) :=
  if bytes.length % Instruction.size ≠ 0 then throw (.truncated bytes.length) else records bytes

end Bytecode

end SignalPatch
