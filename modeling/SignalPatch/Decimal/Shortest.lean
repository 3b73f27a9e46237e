import SignalPatch.Decimal.Numeral

/-!
# The fewest digits that read back

A finite binary number is printed with the fewest decimal digits that still round to it, and among
those with the closest ones. The search goes from coarse decimal grids to fine ones and tests the
two neighbours of the number on each, in exact arithmetic.
-/

namespace SignalPatch.Decimal

/-- The positive number `mantissa * 2 ^ exponent`. Its neighbour below is only half as far away as
the one above when `narrow` holds. -/
structure Dyadic where
  mantissa : Nat
  exponent : Int
  narrow : Bool

inductive Tie where
  | up
  | even
  deriving DecidableEq

structure BinaryFormat where
  fractionBits : Nat
  exponentBits : Nat
  leastExponent : Int

def double : BinaryFormat := ⟨52, 11, -1074⟩

def single : BinaryFormat := ⟨23, 8, -149⟩

inductive Reading where
  | nan
  | infinite (negative : Bool)
  | zero (negative : Bool)
  | finite (negative : Bool) (value : Dyadic)

def BinaryFormat.read (f : BinaryFormat) (bits : Nat) : Reading :=
  let fraction := bits % Nat.pow 2 f.fractionBits
  let exponent := bits / Nat.pow 2 f.fractionBits % Nat.pow 2 f.exponentBits
  let negative := bits / Nat.pow 2 (f.fractionBits + f.exponentBits) % 2 == 1
  if exponent = Nat.pow 2 f.exponentBits - 1 then
    if fraction = 0 then .infinite negative else .nan
  else if exponent = 0 then
    if fraction = 0 then .zero negative
    else .finite negative ⟨fraction, f.leastExponent, false⟩
  else
    .finite negative ⟨fraction + Nat.pow 2 f.fractionBits, f.leastExponent + (exponent - 1 : Nat),
      fraction == 0 && 1 < exponent⟩

/-- The reals that round to a number, as numerators over one denominator: the ends of the interval,
whether they belong to it, and the number itself. -/
structure Interval where
  low : Nat
  value : Nat
  high : Nat
  denominator : Nat
  closed : Bool

def Dyadic.interval (d : Dyadic) : Interval :=
  let e := d.exponent - 2
  let up := Nat.pow 2 e.toNat
  { low := (4 * d.mantissa - if d.narrow then 1 else 2) * up
    value := 4 * d.mantissa * up
    high := (4 * d.mantissa + 2) * up
    denominator := Nat.pow 2 (-e).toNat
    closed := d.mantissa % 2 == 0 }

/-- The neighbour of the value among the multiples of `10 ^ s` that lies in the interval, as a
multiple; of two the closer. -/
def Interval.onGrid? (i : Interval) (tie : Tie) (s : Int) : Option Nat :=
  let scale := Nat.pow 10 (-s).toNat
  let unit := i.denominator * Nat.pow 10 s.toNat
  let low := i.low * scale
  let value := i.value * scale
  let high := i.high * scale
  let below := value / unit
  let above := below + 1
  let belowIn := if i.closed then low ≤ below * unit else low < below * unit
  let aboveIn := if i.closed then above * unit ≤ high else above * unit < high
  if belowIn then
    if aboveIn then
      let twice := 2 * (value % unit)
      if twice < unit then some below
      else if unit < twice then some above
      else match tie with
        | .up => some above
        | .even => some (if below % 2 = 0 then below else above)
    else some below
  else if aboveIn then some above
  else none

def Interval.search (i : Interval) (tie : Tie) (s : Int) : Nat → Numeral
  | 0 => ⟨i.value / i.denominator, 0⟩
  | steps + 1 =>
    match i.onGrid? tie s with
    | some digits => ⟨digits, s⟩
    | none => i.search tie (s - 1) steps

def Interval.leading (i : Interval) : Int :=
  let bits : Int := Nat.log2 i.value - Nat.log2 i.denominator
  (bits + 1) * 30103 / 100000 + 1

/-- The shortest decimal that rounds to a positive number. It has at most
seventeen digits, so that the grids tried are more than enough. -/
def Dyadic.shortest (d : Dyadic) (tie : Tie) : Numeral :=
  let i := d.interval
  i.search tie i.leading 22

end SignalPatch.Decimal
