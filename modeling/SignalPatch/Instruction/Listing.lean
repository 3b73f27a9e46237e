import SignalPatch.Decimal.Layout
import SignalPatch.Instruction

/-!
# Listings

A program as text, one numbered instruction a line.
-/

namespace SignalPatch.Listing

def padRight (width : Nat) (s : String) : String :=
  s ++ String.ofList (List.replicate (width - s.length) ' ')

def padLeft (width : Nat) (fill : Char) (s : String) : String :=
  String.ofList (List.replicate (width - s.length) fill) ++ s

def buffer (b : Buffer) : String := "b" ++ toString b.toNat

def hex (w : UInt32) : String := "0x" ++ padLeft 8 '0' (String.ofList (Nat.toDigits 16 w.toNat))

def constant (bits : UInt32) : String := Decimal.single.plain bits.toNat

def inputs (o : Operands) : String :=
  if o.used.isEmpty then "" else " <- " ++ ", ".intercalate (o.used.map buffer)

/-- What the payload says, behind a semicolon. -/
def comment (i : Instruction) : String :=
  match i.opcode with
  | .pushConst => " ; " ++ constant i.payload
  | .seqStep => " ; state_init #" ++ toString i.payload.toNat
  | _ => if i.payload = 0 then "" else " ; " ++ hex i.payload

def instruction (i : Instruction) : String :=
  padRight 14 i.opcode.mnemonic ++ " b" ++ padRight 3 (toString i.out.toNat) ++ inputs i.inputs ++
    comment i

def line (number : Nat) (i : Instruction) : String :=
  padLeft 4 '0' (toString number) ++ "  " ++ instruction i ++ "\n"

def program (is : List Instruction) : String :=
  String.join (is.mapIdx line)

end SignalPatch.Listing
