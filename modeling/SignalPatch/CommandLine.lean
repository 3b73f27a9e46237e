import SignalPatch.FileTree
import SignalPatch.Instruction.Listing
import SignalPatch.Report.Json
import SignalPatch.Report.Summary
import SignalPatch.Settings

/-!
# The command line

A call names one file to compile, with options before or behind it. What the program does is
written over a host that can read and write files, so that it runs on a disk or in memory alike.
-/

namespace SignalPatch.CommandLine

structure Request where
  file : String
  format : Option ReportFormat
  output : Option String
  dump : Bool
  samples : List String
  noDrums : Bool
  settings : Option String

inductive Invocation where
  | compile (request : Request)
  | version
  | help

inductive UsageError where
  | noFile
  | unexpected (argument : String)
  | noValue (option : String)
  | badValue (option value : String)
  | repeated (option : String)

def UsageError.message : UsageError → String
  | .noFile => "a file to compile is required"
  | .unexpected argument => "unexpected argument '" ++ argument ++ "'"
  | .noValue option => "a value is required for '" ++ option ++ "'"
  | .badValue option value => "invalid value '" ++ value ++ "' for '" ++ option ++ "'"
  | .repeated option => "'" ++ option ++ "' cannot be used more than once"

/-! ## Arguments -/

inductive Setting where
  | format
  | output
  | sample
  | settings

def Setting.name : Setting → String
  | .format => "--format"
  | .output => "--output"
  | .sample => "--sample"
  | .settings => "--config"

structure Draft where
  file : Option String := none
  format : Option ReportFormat := none
  output : Option String := none
  dump : Bool := false
  samples : List String := []
  noDrums : Bool := false
  settings : Option String := none

namespace Draft

def once {α : Type} (option : String) (before : Option α) (value : α) :
    Except UsageError (Option α) :=
  match before with
  | some _ => throw (.repeated option)
  | none => return some value

def path (option : String) (before : Option String) (value : String) :
    Except UsageError (Option String) := do
  if value.isEmpty then throw (.badValue option value)
  once option before value

def set (d : Draft) (setting : Setting) (value : String) : Except UsageError Draft :=
  match setting with
  | .format =>
    match ReportFormat.ofName? value with
    | none => throw (.badValue setting.name value)
    | some format => return { d with format := ← once setting.name d.format format }
  | .output => return { d with output := ← path setting.name d.output value }
  | .sample => return { d with samples := d.samples ++ [value] }
  | .settings => return { d with settings := ← path setting.name d.settings value }

def setFile (d : Draft) (value : String) : Except UsageError Draft := do
  if value.isEmpty then throw (.badValue "FILE" value)
  match d.file with
  | some _ => throw (.unexpected value)
  | none => return { d with file := some value }

def finish (d : Draft) : Except UsageError Invocation :=
  match d.file with
  | none => throw .noFile
  | some file =>
    return .compile
      { file, format := d.format, output := d.output, dump := d.dump, samples := d.samples,
        noDrums := d.noDrums, settings := d.settings }

end Draft

/-- What one argument says by itself. -/
inductive Argument where
  | file (value : String)
  | setting (setting : Setting) (value : Option String)
  | dump
  | noDrums
  | version
  | help
  | endOfOptions
  | unknown

def longSetting? : String → Option Setting
  | "format" => some .format
  | "output" => some .output
  | "sample" => some .sample
  | "config" => some .settings
  | _ => none

def longFlag : String → Argument
  | "dump" => .dump
  | "no-default-samples" => .noDrums
  | "version" => .version
  | "help" => .help
  | _ => .unknown

def longArgument (cs : List Char) : Argument :=
  let name := String.ofList (cs.takeWhile (· != '='))
  match longSetting? name, cs.dropWhile (· != '=') with
  | some setting, [] => .setting setting none
  | some setting, _ :: value => .setting setting (some (String.ofList value))
  | none, [] => longFlag name
  | none, _ :: _ => .unknown

def attached : List Char → Option String
  | [] => none
  | '=' :: value => some (String.ofList value)
  | value => some (String.ofList value)

def shortArgument (c : Char) (rest : List Char) : Argument :=
  match c with
  | 'f' => .setting .format (attached rest)
  | 'o' => .setting .output (attached rest)
  | 'V' => .version
  | 'h' => .help
  | _ => .unknown

def Argument.ofString (s : String) : Argument :=
  match s.toList with
  | ['-', '-'] => .endOfOptions
  | '-' :: '-' :: cs => longArgument cs
  | '-' :: c :: cs => shortArgument c cs
  | _ => .file s

/-- Whether an argument can be the value of the option before it. -/
def isValue (s : String) : Bool := s == "-" || !s.startsWith "-"

/-- Reads the arguments in order; the first one at fault decides. -/
def read (d : Draft) : List String → Except UsageError Invocation
  | [] => d.finish
  | argument :: rest =>
    match Argument.ofString argument with
    | .file value => do read (← d.setFile value) rest
    | .setting setting (some value) => do read (← d.set setting value) rest
    | .setting setting none =>
      match rest with
      | [] => throw (.noValue setting.name)
      | value :: rest =>
        if isValue value then do read (← d.set setting value) rest
        else throw (.noValue setting.name)
    | .dump => if d.dump then throw (.repeated argument) else read { d with dump := true } rest
    | .noDrums =>
      if d.noDrums then throw (.repeated argument) else read { d with noDrums := true } rest
    | .version => return .version
    | .help => return .help
    | .endOfOptions => do (← rest.foldlM Draft.setFile d).finish
    | .unknown => throw (.unexpected argument)

/-! ## Running -/

structure Host (m : Type → Type) where
  readText : String → m (Except FileError String)
  write : String → List UInt8 → m (Except FileError Unit)
  settingsFile : Option String

/-- What a run leaves: an exit status and two texts. -/
structure Outcome where
  status : Nat
  stdout : String := ""
  stderr : String := ""

def standardSettingsPath : String := ".akkado/config.yaml"

def versionText : String := "akkado 0.1.0\n"

def usageText : String :=
  "Usage: akkado [--format text|json] [--output FILE] [--dump] [--sample NAME]... " ++
    "[--no-default-samples] [--config FILE] FILE\n"

/-- The outcome of a run that then fails for a reason outside the program. -/
def Outcome.failing (o : Outcome) (reason : String) : Outcome :=
  { o with status := 2, stderr := o.stderr ++ "akkado: " ++ reason ++ "\n" }

section

variable {m : Type → Type} [Monad m] (host : Host m)

def namedSettings (path : String) : m (Except Settings.Fault Settings) := do
  return Settings.ofFile path (← host.readText path)

/-- The settings in the standard file; the defaults if it gives none. -/
def standardSettings : m Settings := do
  match host.settingsFile with
  | none => return {}
  | some path =>
    match Settings.ofFile path (← host.readText path) with
    | .error _ => return {}
    | .ok settings => return settings

def Request.adjust (r : Request) (s : Settings) : Settings :=
  { samples := s.samples ++ r.samples
    drums := s.drums && !r.noDrums
    format := r.format.getD s.format }

def settingsOf (r : Request) : m (Except Settings.Fault Settings) := do
  let found ← match r.settings with
    | some path => namedSettings host path
    | none => .ok <$> standardSettings host
  return found.map r.adjust

def listing (r : Request) (c : Compiled) : String :=
  if r.dump && c.success then
    match Bytecode.decode c.bytecode with
    | .ok is => Listing.program is
    | .error _ => ""
  else ""

def report (r : Request) (format : ReportFormat) (c : Compiled) (source : String) : Outcome :=
  let status := if c.success then 0 else 1
  match format with
  | .text =>
    { status, stdout := Report.summary c ++ listing r c, stderr := Report.messages c source }
  | .json => { status, stdout := Report.json c ++ listing r c }

/-- Compiles, reports, and writes the program if it was asked for. -/
def compileRequest (r : Request) : m Outcome := do
  match ← settingsOf host r with
  | .error fault => return Outcome.failing { status := 0 } fault.message
  | .ok settings =>
    let contents := (← host.readText r.file).toOption
    let compiled := compileFile contents r.file settings.bank
    let outcome := report r settings.format compiled (contents.getD "")
    match r.output, compiled.success with
    | some path, true =>
      match ← host.write path compiled.bytecode with
      | .ok () => return outcome
      | .error e =>
        return outcome.failing ("failed to write " ++ path ++ ": " ++ e.message)
    | _, _ => return outcome

def run (arguments : List String) : m Outcome :=
  match read {} arguments with
  | .error e => return { status := 2, stderr := "error: " ++ e.message ++ "\n\n" ++ usageText }
  | .ok .version => return { status := 0, stdout := versionText }
  | .ok .help => return { status := 0, stdout := usageText }
  | .ok (.compile request) => compileRequest host request

end

end SignalPatch.CommandLine
