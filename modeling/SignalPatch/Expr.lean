import SignalPatch.Span

/-!
# Expressions and statements, as written

Trees of a patch before anything is resolved: a pipe still stands as a pipe and a hole as a hole.
-/

namespace SignalPatch

inductive BinaryOp where
  | add
  | sub
  | mul
  | div
  | pow
  deriving DecidableEq

/-- The function that an operator stands for. -/
def BinaryOp.functionName : BinaryOp → String
  | .add => "add"
  | .sub => "sub"
  | .mul => "mul"
  | .div => "div"
  | .pow => "pow"

structure Arg (α : Type) where
  name : Option String
  value : α
  span : Span
  deriving DecidableEq

structure Parameter where
  name : String
  default : Option Float
  span : Span
  deriving DecidableEq

inductive Expr where
  | number (value : Float) (span : Span)
  | bool (value : Bool) (span : Span)
  | text (value : String) (span : Span)
  | ident (name : String) (span : Span)
  | hole (span : Span)
  | binary (op : BinaryOp) (lhs rhs : Expr) (span : Span)
  | call (callee : String) (args : List (Arg Expr)) (span : Span)
  | pipe (source target : Expr) (span : Span)

def Expr.span : Expr → Span
  | .number _ span | .bool _ span | .text _ span | .ident _ span | .hole span
  | .binary _ _ _ span | .call _ _ span | .pipe _ _ span => span

def Expr.operation (op : BinaryOp) (lhs rhs : Expr) : Expr :=
  .binary op lhs rhs (lhs.span.cover rhs.span)

/-- A sign in front of anything but a numeral calls the function `neg`. -/
def Expr.negated (sign : Span) (operand : Expr) : Expr :=
  .call "neg" [⟨none, operand, operand.span⟩] (sign.cover operand.span)

inductive Statement where
  | define (name : String) (params : List Parameter) (body : Expr) (span : Span)
  | assign (name : String) (value : Expr) (span : Span)
  | expr (value : Expr)

end SignalPatch
