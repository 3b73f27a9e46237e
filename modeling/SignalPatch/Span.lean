/-!
# Places in a source text

Lines and columns count from one, and columns count characters; offsets and lengths count bytes.
They are natural numbers, as the numbers of nodes are: texts are taken to be shorter than 4 GiB, and
their patches to have fewer than `2 ^ 32` nodes, so that 32 bits would hold each of them.
-/

namespace SignalPatch

/-- A stretch of source text. -/
structure Span where
  line : Nat
  column : Nat
  offset : Nat
  length : Nat
  deriving DecidableEq

namespace Span

def origin : Span := ⟨1, 1, 0, 0⟩

instance : Inhabited Span := ⟨origin⟩

def stop (s : Span) : Nat := s.offset + s.length

/-- The smallest span over both. Line and column are those of the one that starts first. -/
def cover (a b : Span) : Span :=
  let first := if a.offset ≤ b.offset then a else b
  { first with length := max a.stop b.stop - first.offset }

@[simp] theorem cover_self (a : Span) : a.cover a = a := by
  simp [cover, stop]

end Span

structure Position where
  line : Nat
  column : Nat
  offset : Nat
  deriving DecidableEq

namespace Position

def origin : Position := ⟨1, 1, 0⟩

def advance (p : Position) (c : Char) : Position :=
  if c = '\n' then ⟨p.line + 1, 1, p.offset + c.utf8Size⟩
  else ⟨p.line, p.column + 1, p.offset + c.utf8Size⟩

def after (p : Position) (cs : List Char) : Position := cs.foldl advance p

@[simp] theorem after_nil (p : Position) : p.after [] = p := rfl

@[simp] theorem after_cons (p : Position) (c : Char) (cs : List Char) :
    p.after (c :: cs) = (p.advance c).after cs := rfl

theorem after_append (p : Position) (cs ds : List Char) :
    p.after (cs ++ ds) = (p.after cs).after ds := by
  simp [after]

def spanTo (p q : Position) : Span := ⟨p.line, p.column, p.offset, q.offset - p.offset⟩

end Position

end SignalPatch
