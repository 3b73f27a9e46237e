import SignalPatch.Decimal.Numeral
import SignalPatch.Issue

/-!
# From characters to tokens

A source text is cut into lexemes: blanks, tokens, and stretches that are no token. What a lexeme is
and how far it reaches depends on the characters alone; spans are computed beside it. Scanning goes
on after a fault, so that one pass reports them all.
-/

namespace SignalPatch

inductive Lexeme where
  | blank
  | token (kind : TokenKind)
  | fault (issue : Issue)

namespace Lexeme

def isLetter (c : Char) : Bool := c.isAlpha || c == '_'

def isWordChar (c : Char) : Bool := c.isAlphanum || c == '_'

def digitNext (cs : List Char) : Bool := cs.head?.any Char.isDigit

def symbol? : Char → Option TokenKind
  | '\n' => some .newline
  | ';' => some .semicolon
  | '(' => some .openParen
  | ')' => some .closeParen
  | ',' => some .comma
  | ':' => some .colon
  | '+' => some .plus
  | '*' => some .star
  | '/' => some .slash
  | '^' => some .caret
  | '=' => some .equals
  | '%' => some .hole
  | _ => none

def fractionPart : List Char → List Char
  | '.' :: cs => if digitNext cs then '.' :: cs.takeWhile Char.isDigit else []
  | _ => []

def exponentPart : List Char → List Char
  | [] => []
  | e :: cs =>
    if e = 'e' ∨ e = 'E' then
      if digitNext cs then e :: cs.takeWhile Char.isDigit
      else match cs with
        | s :: ds =>
          if (s = '+' ∨ s = '-') ∧ digitNext ds then e :: s :: ds.takeWhile Char.isDigit else []
        | [] => []
    else []

/-- The characters after `c` that go on with the numeral `c` starts. A numeral that starts with its
point has no second one. -/
def numeralTail (c : Char) (cs : List Char) : List Char :=
  let whole := cs.takeWhile Char.isDigit
  let rest := cs.drop whole.length
  let fraction := if c = '.' then [] else fractionPart rest
  whole ++ fraction ++ exponentPart (rest.drop fraction.length)

def numeral (c : Char) (cs : List Char) : Lexeme × Nat :=
  let tail := numeralTail c cs
  let glued := cs.drop tail.length
  if glued.head?.any isLetter then
    let word := tail ++ glued.takeWhile isWordChar
    (.fault (.badNumeral (String.ofList (c :: word))), word.length)
  else match Decimal.Numeral.ofChars? (c :: tail) with
    | some n => (.token (.number n.toFloat), tail.length)
    | none => (.fault (.badNumeral (String.ofList (c :: tail))), tail.length)

/-- A text literal, without escapes, that ends on the line it starts on. -/
def quoted (cs : List Char) : Lexeme × Nat :=
  let body := cs.takeWhile fun c => c != '"' && c != '\n'
  if (cs.drop body.length).head? = some '"' then
    (.token (.text (String.ofList body)), body.length + 1)
  else (.fault .unterminatedText, body.length)

def keywordOrName : String → TokenKind
  | "fn" => .keywordFn
  | "true" => .keywordTrue
  | "false" => .keywordFalse
  | name => .ident name

def word (c : Char) (cs : List Char) : Lexeme × Nat :=
  let tail := cs.takeWhile isWordChar
  (.token (keywordOrName (String.ofList (c :: tail))), tail.length)

/-- The first lexeme of `c :: cs` and how many characters of `cs` belong to it. -/
def first (c : Char) (cs : List Char) : Lexeme × Nat :=
  if c = ' ' ∨ c = '\t' ∨ c = '\r' then (.blank, 0)
  else if c = '/' ∧ cs.head? = some '/' then (.blank, (cs.takeWhile (· != '\n')).length)
  else if let some kind := symbol? c then (.token kind, 0)
  else if c = '-' then
    if cs.head? = some '>' then (.token .arrow, 1) else (.token .minus, 0)
  else if c = '|' then
    if cs.head? = some '>' then (.token .pipe, 1) else (.fault .halfPipe, 0)
  else if c = '"' then quoted cs
  else if c.isDigit ∨ (c = '.' ∧ digitNext cs) then numeral c cs
  else if isLetter c then word c cs
  else (.fault (.unexpectedCharacter c), 0)

end Lexeme

structure Piece where
  lexeme : Lexeme
  span : Span

/-- The lexemes of a text that starts at `p`. They tile it. -/
def pieces (p : Position) (cs : List Char) : List Piece :=
  match cs with
  | [] => []
  | c :: cs =>
    let (lexeme, more) := Lexeme.first c cs
    let q := p.after (c :: cs.take more)
    ⟨lexeme, p.spanTo q⟩ :: pieces q (cs.drop more)
termination_by cs.length

def Piece.token? (piece : Piece) : Option Token :=
  match piece.lexeme with
  | .token kind => some ⟨kind, piece.span⟩
  | _ => none

def Piece.finding? (piece : Piece) : Option Finding :=
  match piece.lexeme with
  | .fault issue => some ⟨issue, piece.span⟩
  | _ => none

structure Scan where
  tokens : List Token
  findings : List Finding

def Scan.ofChars (cs : List Char) : Scan :=
  let found := pieces .origin cs
  let stop := Position.origin.after cs
  { tokens := found.filterMap Piece.token? ++ [⟨.finish, stop.spanTo stop⟩]
    findings := found.filterMap Piece.finding? }

def scan (source : String) : Scan := .ofChars source.toList

end SignalPatch
