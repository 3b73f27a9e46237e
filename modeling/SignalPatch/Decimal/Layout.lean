import SignalPatch.Decimal.Shortest

/-!
# Number texts

Two ways to lay out the shortest decimal of a binary number: in plain positional notation, as in
messages and listings, and as a JSON number, which goes over to an exponent for very large and very
small values.
-/

namespace SignalPatch.Decimal

def zeros (n : Nat) : String := String.ofList (List.replicate n '0')

def signed (negative : Bool) (text : String) : String :=
  if negative then "-" ++ text else text

/-- Positional notation of a decimal that is not zero; a point only before a fraction. -/
def Numeral.plain (n : Numeral) : String :=
  let digits := Nat.toDigits 10 n.digits
  if 0 ≤ n.exponent then String.ofList digits ++ zeros n.exponent.toNat
  else
    let places := (-n.exponent).toNat
    if places < digits.length then
      String.ofList (digits.take (digits.length - places)) ++ "." ++
        String.ofList (digits.drop (digits.length - places))
    else "0." ++ zeros (places - digits.length) ++ String.ofList digits

def BinaryFormat.plain (f : BinaryFormat) (bits : Nat) : String :=
  match f.read bits with
  | .nan => "NaN"
  | .infinite negative => signed negative "inf"
  | .zero negative => signed negative "0"
  | .finite negative d => signed negative (d.shortest .up).plain

def plain (v : Float) : String := double.plain v.toBits.toNat

def Numeral.scientific (n : Numeral) : String :=
  let digits := Nat.toDigits 10 n.digits
  let exponent := n.exponent + (digits.length - 1 : Nat)
  let fraction := String.ofList (digits.drop 1)
  String.ofList (digits.take 1) ++ (if fraction.isEmpty then "" else "." ++ fraction) ++ "e" ++
    (if exponent < 0 then "-" else "+") ++ toString exponent.natAbs

/-- A JSON number: positional with at least one decimal place while the leading digit stands for a
power of ten in `-5 .. 15`, else scientific. -/
def Numeral.json (n : Numeral) : String :=
  let leading := n.exponent + (digitCount n.digits - 1 : Nat)
  if -5 ≤ leading ∧ leading ≤ 15 then
    if 0 ≤ n.exponent then n.plain ++ ".0" else n.plain
  else n.scientific

def json (v : Float) : String :=
  match double.read v.toBits.toNat with
  | .nan => "null"
  | .infinite _ => "null"
  | .zero negative => signed negative "0.0"
  | .finite negative d => signed negative (d.shortest .even).json

end SignalPatch.Decimal
