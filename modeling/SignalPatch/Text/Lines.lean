/-!
# Lines of a text

A line ends at a line feed, which may follow a carriage return; neither belongs to the line. The
last line need not be ended, and nothing follows a final line feed.
-/

namespace SignalPatch.Text

def dropReturn (line : List Char) : List Char :=
  if line.getLast? = some '\r' then line.dropLast else line

/-- The lines of `cs`, where `line` holds the characters of the current one, last first. -/
def linesFrom (line : List Char) : List Char → List (List Char)
  | [] => if line.isEmpty then [] else [line.reverse]
  | c :: cs =>
    if c = '\n' then dropReturn line.reverse :: linesFrom [] cs else linesFrom (c :: line) cs

def lines (s : String) : List String := (linesFrom [] s.toList).map String.ofList

end SignalPatch.Text
