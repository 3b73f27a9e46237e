import SignalPatch.Diagnostic
import SignalPatch.Pattern.Fault
import SignalPatch.Token

/-!
# What can be wrong with a patch

Every stage reports causes. Their codes and wording are given here, once; the file name is added
when a cause becomes a diagnostic.
-/

namespace SignalPatch

/-- What the grammar asks for at a place where something else stands. -/
inductive Expectation where
  | functionName
  | openAfterFunctionName
  | parameterName
  | defaultValue
  | closeAfterParameters
  | arrowBeforeBody
  | closeParen
  | closeAfterArguments
  deriving DecidableEq

def Expectation.describe : Expectation → String
  | .functionName => "function name"
  | .openAfterFunctionName => "'(' after function name"
  | .parameterName => "parameter name"
  | .defaultValue => "number as default value"
  | .closeAfterParameters => "')' after parameters"
  | .arrowBeforeBody => "'->' before function body"
  | .closeParen => "')'"
  | .closeAfterArguments => "')' after arguments"

inductive Issue where
  -- files
  | unreadableFile (filename : String)
  | emptySource
  -- characters
  | unexpectedCharacter (c : Char)
  | halfPipe
  | unterminatedText
  | badNumeral (text : String)
  -- tokens
  | unexpected (found : TokenKind)
  | unexpectedAfterStatement (found : TokenKind)
  | expected (what : Expectation) (found : TokenKind)
  | nestedFunction
  -- names and calls
  | unknownIdentifier (name : String)
  | unknownFunction (name : String)
  | valueCalled (name : String)
  | redefinition (name : String) (previous : Option Span)
  | holeOutsidePipe
  | badPipeTarget
  | tooFewArguments (callee : String) (least given : Nat)
  | tooManyArguments (callee : String) (most given : Nat)
  | unknownParameter (callee parameter : String)
  | duplicateArgument (parameter : String)
  | positionalAfterNamed
  | missingArgument (parameter callee : String)
  | functionAsValue (name : String)
  | duplicateParameter (parameter function : String)
  | misplacedDefinition
  -- patterns and host parameters
  | patternNotText
  | badPattern (fault : PatternFault)
  | hostParamName (callee : String)
  | hostParamSetting (callee : String)
  | rangeSwapped (name : String)
  | rangeRedeclared (name : String)
  -- lowering
  | outOfBuffers
  | unknownSample (name : String)
  | recursiveFunction (name : String)
  | textAsSignal
  | valueMissing (name : String)
  | unresolvedExpression
  | unresolvedCall (name : String)
  | definitionMissing (name : String)
  | unresolvedPattern
  | unresolvedHostParam
  deriving DecidableEq

namespace Issue

def code : Issue → String
  | .unreadableFile _ => "E000"
  | .emptySource => "E001"
  | .unexpectedCharacter _ | .halfPipe => "E010"
  | .unterminatedText => "E011"
  | .badNumeral _ => "E012"
  | .unexpected _ | .unexpectedAfterStatement _ => "E020"
  | .expected _ _ => "E021"
  | .unknownIdentifier _ => "E101"
  | .unknownFunction _ | .valueCalled _ => "E102"
  | .redefinition _ _ => "E103"
  | .holeOutsidePipe => "E104"
  | .badPipeTarget => "E105"
  | .tooFewArguments _ _ _ => "E106"
  | .tooManyArguments _ _ _ => "E107"
  | .unknownParameter _ _ => "E108"
  | .duplicateArgument _ => "E109"
  | .positionalAfterNamed => "E110"
  | .missingArgument _ _ => "E111"
  | .hostParamName _ | .hostParamSetting _ => "E112"
  | .functionAsValue _ => "E113"
  | .duplicateParameter _ _ => "E114"
  | .patternNotText => "E115"
  | .badPattern _ => "E116"
  | .nestedFunction | .misplacedDefinition => "E117"
  | .outOfBuffers => "E201"
  | .unknownSample _ => "E202"
  | .recursiveFunction _ => "E203"
  | .textAsSignal => "E204"
  | .valueMissing _ | .unresolvedExpression | .unresolvedCall _ | .definitionMissing _
  | .unresolvedPattern | .unresolvedHostParam => "E205"
  | .rangeSwapped _ => "W001"
  | .rangeRedeclared _ => "W002"

/-- Only the two remarks on ranges let compilation go on. -/
def severity : Issue → Severity
  | .rangeSwapped _ | .rangeRedeclared _ => .warning
  | _ => .error

def quoted (s : String) : String := "'" ++ s ++ "'"

def message : Issue → String
  | .unreadableFile filename => "Could not open file: " ++ filename
  | .emptySource => "Empty source file"
  | .unexpectedCharacter c => "unexpected character: '" ++ c.toString ++ "'"
  | .halfPipe => "expected '>' after '|'"
  | .unterminatedText => "unterminated string literal"
  | .badNumeral text => "invalid number: " ++ text
  | .unexpected found => "unexpected " ++ found.describe
  | .unexpectedAfterStatement found => "unexpected " ++ found.describe ++ " after statement"
  | .expected what found => "expected " ++ what.describe ++ ", found " ++ found.describe
  | .nestedFunction => "function definitions are only allowed at the top level"
  | .unknownIdentifier name => "unknown identifier " ++ quoted name
  | .unknownFunction name => "unknown function " ++ quoted name
  | .valueCalled name => quoted name ++ " is a value, not a function"
  | .redefinition name _ => "cannot redefine " ++ quoted name
  | .holeOutsidePipe => "'%' can only be used on the right side of '|>'"
  | .badPipeTarget => "right side of '|>' must be a call that uses '%'"
  | .tooFewArguments callee least given =>
    "too few arguments to " ++ quoted callee ++ ": expected at least " ++ toString least ++
      ", got " ++ toString given
  | .tooManyArguments callee most given =>
    "too many arguments to " ++ quoted callee ++ ": expected at most " ++ toString most ++
      ", got " ++ toString given
  | .unknownParameter callee parameter =>
    quoted callee ++ " has no parameter named " ++ quoted parameter
  | .duplicateArgument parameter => "argument " ++ quoted parameter ++ " is given more than once"
  | .positionalAfterNamed => "positional argument cannot follow a named argument"
  | .missingArgument parameter callee =>
    "missing argument " ++ quoted parameter ++ " for " ++ quoted callee
  | .functionAsValue name => quoted name ++ " is a function and cannot be used as a value"
  | .duplicateParameter parameter function =>
    "duplicate parameter " ++ quoted parameter ++ " in function " ++ quoted function
  | .misplacedDefinition => "definitions are only allowed at the top level"
  | .patternNotText => "pat() expects a string literal"
  | .badPattern fault => fault.message
  | .hostParamName callee => callee ++ "() name must be a string literal"
  | .hostParamSetting callee => callee ++ "() settings must be number literals"
  | .rangeSwapped name =>
    "parameter " ++ quoted name ++ " has min greater than max; swapping them"
  | .rangeRedeclared name =>
    "parameter " ++ quoted name ++
      " redeclared with a different range; the first declaration is used"
  | .outOfBuffers => "program needs more than 256 buffers"
  | .unknownSample name => "unknown sample " ++ quoted name
  | .recursiveFunction name => "function " ++ quoted name ++ " calls itself and cannot be expanded"
  | .textAsSignal => "a string cannot be used as a signal"
  | .valueMissing name => quoted name ++ " has no value at this point"
  | .unresolvedExpression => "expression was not resolved by analysis"
  | .unresolvedCall name => "call to " ++ quoted name ++ " was not resolved by analysis"
  | .definitionMissing name => "definition of " ++ quoted name ++ " is missing"
  | .unresolvedPattern => "pattern was not resolved by analysis"
  | .unresolvedHostParam => "parameter declaration was not resolved by analysis"

/-- A redefinition also points to the definition before it. -/
def notes (filename : String) : Issue → List Note
  | .redefinition name (some span) =>
    [⟨"previous definition of " ++ quoted name ++ " is here", filename, span⟩]
  | _ => []

end Issue

structure Finding where
  issue : Issue
  span : Span
  deriving DecidableEq

namespace Finding

def isError (f : Finding) : Bool := f.issue.severity == .error

def diagnostic (filename : String) (f : Finding) : Diagnostic :=
  { severity := f.issue.severity
    code := f.issue.code
    message := f.issue.message
    filename := filename
    span := f.span
    related := f.issue.notes filename }

@[simp] theorem isError_diagnostic (filename : String) (f : Finding) :
    (f.diagnostic filename).isError = f.isError := rfl

end Finding

end SignalPatch
