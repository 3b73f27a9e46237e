import SignalPatch.Diagnostic

/-!
# The standard preamble

Every program is read behind a preamble that defines a few functions. Spans in the joined text are
brought back to the file that the user wrote, or attributed to the preamble.
-/

namespace SignalPatch

namespace Preamble

def filename : String := "<stdlib>"

def standard : String :=
  "// Akkado standard library\n" ++
  "// Prepended to every program; user code cannot redefine these names.\n" ++
  "\n" ++
  "fn detune(freq, amt = 0.01) -> saw(freq) + saw(freq * (1 + amt))\n" ++
  "fn pluck(freq, cut = 2400) -> saw(freq) |> lp(%, cut, 0.8)\n" ++
  "fn gain(sig, amt) -> sig * amt\n" ++
  "fn stereo(sig) -> out(sig, sig)\n"

end Preamble

/-- Where the user's text starts in a joined text: the bytes and the lines before it. -/
structure Boundary where
  bytes : Nat
  lines : Nat
  deriving DecidableEq

namespace Boundary

def behind (preamble : String) : Boundary :=
  ⟨preamble.utf8ByteSize + 1, preamble.toList.count '\n' + 1⟩

def contains (b : Boundary) (offset : Nat) : Bool := offset < b.bytes

/-- A span of the joined text in the coordinates of its own file. -/
def relocate (b : Boundary) (s : Span) : Span :=
  if b.contains s.offset then s
  else { s with line := s.line - b.lines, offset := s.offset - b.bytes }

def filename (b : Boundary) (user : String) (offset : Nat) : String :=
  if b.contains offset then Preamble.filename else user

def relocateNote (b : Boundary) (user : String) (n : Note) : Note :=
  { n with filename := b.filename user n.span.offset, span := b.relocate n.span }

def relocateFix (b : Boundary) (fix : Fix) : Fix := { fix with span := b.relocate fix.span }

def relocateDiagnostic (b : Boundary) (user : String) (d : Diagnostic) : Diagnostic :=
  { d with
    filename := b.filename user d.span.offset
    span := b.relocate d.span
    related := d.related.map (b.relocateNote user)
    fix := d.fix.map b.relocateFix }

end Boundary

structure LinkedSource where
  preamble : String
  user : String

namespace LinkedSource

def text (s : LinkedSource) : String := s.preamble ++ "\n" ++ s.user

def boundary (s : LinkedSource) : Boundary := .behind s.preamble

def standard (user : String) : LinkedSource := ⟨Preamble.standard, user⟩

end LinkedSource

end SignalPatch
