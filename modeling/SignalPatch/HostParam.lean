import SignalPatch.Builtin
import SignalPatch.Issue
import SignalPatch.Text.Fingerprint

/-!
# Parameters of the host

A patch may ask its host for a value within a range. The first declaration of a name holds; a later
one with another range is remarked on.
-/

namespace SignalPatch

structure HostParam where
  name : String
  hash : UInt32
  kind : ControlKind
  default : Float
  min : Float
  max : Float
  /-- The byte offset and the length of the declaring call. -/
  offset : Nat
  length : Nat
  deriving DecidableEq

namespace HostParam

def clamp (v lo hi : Float) : Float :=
  let v := if v < lo then lo else v
  if hi < v then hi else v

def settings : ControlKind → List Float → Float × Float × Float
  | .continuous, [default, lo, hi] => (default, lo, hi)
  | .toggle, [default] => (default, 0, 1)
  | _, _ => (0, 0, 1)

/-- The declaration a call makes, with the ends of its range put in order. -/
def make (kind : ControlKind) (name : String) (values : List Float) (span : Span) : HostParam :=
  let (default, lo, hi) := settings kind values
  let (lo, hi) := if hi < lo then (hi, lo) else (lo, hi)
  { name, hash := Text.fingerprint name, kind, default := clamp default lo hi, min := lo, max := hi,
    offset := span.offset, length := span.length }

def isSwapped (kind : ControlKind) (values : List Float) : Bool :=
  let (_, lo, hi) := settings kind values
  hi < lo

def agrees (a b : HostParam) : Bool := a.kind = b.kind && a.min == b.min && a.max == b.max

def declare (params : List HostParam) (p : HostParam) : List HostParam :=
  if params.any (·.name == p.name) then params else params ++ [p]

def remarks (params : List HostParam) (p : HostParam) (swapped : Bool) : List Issue :=
  (if swapped then [.rangeSwapped p.name] else []) ++
    match params.find? (·.name == p.name) with
    | some previous => if previous.agrees p then [] else [.rangeRedeclared p.name]
    | none => []

end HostParam

end SignalPatch
