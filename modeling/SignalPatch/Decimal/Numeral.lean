/-!
# Reading decimal numerals

A numeral is digits, perhaps a point and more digits, perhaps an exponent. It denotes the double
nearest to its exact value, ties to even; a value too large denotes infinity.
-/

namespace SignalPatch.Decimal

/-- The exact value `digits * 10 ^ exponent`. -/
structure Numeral where
  digits : Nat
  exponent : Int
  deriving DecidableEq

def wholeNumber (cs : List Char) : Nat :=
  cs.foldl (fun n c => 10 * n + (c.toNat - '0'.toNat)) 0

def digitCount (n : Nat) : Nat := (Nat.toDigits 10 n).length

def infinity : Float := Float.ofBits 0x7ff0000000000000

def notANumber : Float := Float.ofBits 0x7ff8000000000000

namespace Numeral

/-- The nearest double. The powers of ten outside `-330 .. 310` are decided without writing the
number out: there the value exceeds every finite double, or is below half the least one. -/
def toFloat (n : Numeral) : Float :=
  let magnitude : Int := digitCount n.digits + n.exponent
  if n.digits = 0 then 0
  else if 310 < magnitude then infinity
  else if magnitude < -330 then 0
  else Float.ofScientific n.digits (n.exponent < 0) n.exponent.natAbs

def exponent? (cs : List Char) : Option Int :=
  let whole (ds : List Char) : Option Int :=
    if ds.isEmpty || !ds.all Char.isDigit then none else some (wholeNumber ds)
  match cs with
  | '+' :: ds => whole ds
  | '-' :: ds => (whole ds).map (- ·)
  | ds => whole ds

/-- Reads a whole text as a numeral without a sign. A digit is needed before the exponent, on
either side of the point. -/
def ofChars? (cs : List Char) : Option Numeral :=
  let whole := cs.takeWhile Char.isDigit
  let (fraction, rest) :=
    match cs.dropWhile Char.isDigit with
    | '.' :: r => (r.takeWhile Char.isDigit, r.dropWhile Char.isDigit)
    | r => ([], r)
  let digits := wholeNumber (whole ++ fraction)
  if whole.isEmpty && fraction.isEmpty then none
  else match rest with
    | [] => some ⟨digits, -fraction.length⟩
    | e :: ds =>
      if e = 'e' ∨ e = 'E' then (exponent? ds).map fun x => ⟨digits, x - fraction.length⟩
      else none

end Numeral

def special? : List Char → Option Float
  | ['i', 'n', 'f'] => some infinity
  | ['i', 'n', 'f', 'i', 'n', 'i', 't', 'y'] => some infinity
  | ['n', 'a', 'n'] => some notANumber
  | _ => none

def unsigned? (cs : List Char) : Option Float :=
  match Numeral.ofChars? cs with
  | some n => some n.toFloat
  | none => special? (cs.map Char.toLower)

def read? : List Char → Option Float
  | '-' :: cs => (unsigned? cs).map (- ·)
  | '+' :: cs => unsigned? cs
  | cs => unsigned? cs

end SignalPatch.Decimal
