import SignalPatch.Decimal.Shortest

/-!
# Narrowing to single precision

Constants of a program are stored in single precision. A double is rounded to the nearest single,
ties to even; what is too large becomes infinite.
-/

namespace SignalPatch.Decimal

def shiftRounded (n k : Nat) : Nat :=
  let unit := Nat.pow 2 k
  let below := n / unit
  let twice := 2 * (n % unit)
  if twice < unit then below
  else if unit < twice then below + 1
  else if below % 2 = 0 then below else below + 1

/-- The bits of the single nearest to a positive number. The grid of singles around it has step
`2 ^ grid`; rounding up to the next power of two carries into the exponent bits by itself. -/
def Dyadic.toSingle (d : Dyadic) : Nat :=
  let top : Int := Nat.log2 d.mantissa + d.exponent
  let grid : Int := max (top - 23) (-149)
  let steps :=
    if d.exponent ≤ grid then shiftRounded d.mantissa (grid - d.exponent).toNat
    else d.mantissa * Nat.pow 2 (d.exponent - grid).toNat
  let bits := steps + (grid + 149).toNat * Nat.pow 2 23
  min bits 0x7f800000

def narrow (v : Float) : UInt32 :=
  let sign (negative : Bool) : Nat := if negative then Nat.pow 2 31 else 0
  match double.read v.toBits.toNat with
  | .nan => 0x7fc00000
  | .infinite negative => (sign negative + 0x7f800000).toUInt32
  | .zero negative => (sign negative).toUInt32
  | .finite negative d => (sign negative + d.toSingle).toUInt32

end SignalPatch.Decimal
