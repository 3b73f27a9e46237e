import SignalPatch.Decimal.Layout
import SignalPatch.Span

/-!
# Tokens
-/

namespace SignalPatch

/-- What a token is, with the value of a literal or a name. -/
inductive TokenKind where
  | keywordFn
  | keywordTrue
  | keywordFalse
  | ident (name : String)
  | number (value : Float)
  | text (value : String)
  | plus
  | minus
  | star
  | slash
  | caret
  | equals
  | pipe
  | arrow
  | hole
  | openParen
  | closeParen
  | comma
  | colon
  | newline
  | semicolon
  | finish
  deriving DecidableEq

def TokenKind.describe : TokenKind → String
  | .keywordFn => "'fn'"
  | .keywordTrue => "'true'"
  | .keywordFalse => "'false'"
  | .ident name => "identifier '" ++ name ++ "'"
  | .number value => "number " ++ Decimal.plain value
  | .text _ => "string literal"
  | .plus => "'+'"
  | .minus => "'-'"
  | .star => "'*'"
  | .slash => "'/'"
  | .caret => "'^'"
  | .equals => "'='"
  | .pipe => "'|>'"
  | .arrow => "'->'"
  | .hole => "'%'"
  | .openParen => "'('"
  | .closeParen => "')'"
  | .comma => "','"
  | .colon => "':'"
  | .newline => "end of line"
  | .semicolon => "';'"
  | .finish => "end of input"

structure Token where
  kind : TokenKind
  span : Span
  deriving DecidableEq

end SignalPatch
