import SignalPatch.Span
import SignalPatch.Text.Lines

/-!
# Messages to the user

A diagnostic names a file and a span in it. Rendered against the text of that file it shows the
line, with a caret under the span.
-/

namespace SignalPatch

inductive Severity where
  | error
  | warning
  | info
  | hint
  deriving DecidableEq

def Severity.name : Severity → String
  | .error => "error"
  | .warning => "warning"
  | .info => "info"
  | .hint => "hint"

/-- A second place that a diagnostic points to. -/
structure Note where
  message : String
  filename : String
  span : Span
  deriving DecidableEq

structure Fix where
  description : String
  newText : String
  span : Span
  deriving DecidableEq

structure Diagnostic where
  severity : Severity
  code : String
  message : String
  filename : String
  span : Span
  related : List Note := []
  fix : Option Fix := none
  deriving DecidableEq

namespace Diagnostic

def isError (d : Diagnostic) : Bool := d.severity == .error

def place (filename : String) (span : Span) : String :=
  filename ++ ":" ++ toString span.line ++ ":" ++ toString span.column

def headline (d : Diagnostic) : String :=
  place d.filename d.span ++ ": " ++ d.severity.name ++ "[" ++ d.code ++ "]: " ++ d.message

def blanks (n : Nat) : String := String.ofList (List.replicate n ' ')

def underlineLimit : Nat := 80

def underline (span : Span) : String :=
  "^" ++ String.ofList (List.replicate (min (max span.length 1) underlineLimit - 1) '~')

/-- The line of `source` that a span starts on; lines count from one. -/
def sourceLine? (source : String) (line : Nat) : Option String :=
  if line = 0 then none else (Text.lines source)[line - 1]?

def excerpt (source : String) (span : Span) : String :=
  match sourceLine? source span.line with
  | none => ""
  | some text =>
    let gutter := toString span.line
    "  " ++ gutter ++ " | " ++ text ++ "\n" ++
      "  " ++ blanks gutter.length ++ " | " ++ blanks (span.column - 1) ++ underline span ++ "\n"

/-- The whole message, with the source line, the notes and the suggestion below it. `source` is the
text that the span refers to. -/
def render (d : Diagnostic) (source : String) : String :=
  d.headline ++ "\n" ++ excerpt source d.span ++
    String.join (d.related.map fun n =>
      place n.filename n.span ++ ": note: " ++ n.message ++ "\n") ++
    match d.fix with
    | none => ""
    | some fix => "  = help: " ++ fix.description ++ "\n"

end Diagnostic

def hasErrors (ds : List Diagnostic) : Bool := ds.any Diagnostic.isError

end SignalPatch
