import SignalPatch.FileTree
import SignalPatch.SampleBank
import SignalPatch.Settings.Outline

/-!
# Settings

Which samples there are, and how results are reported. A settings file may leave anything out.
-/

namespace SignalPatch

inductive ReportFormat where
  | text
  | json
  deriving DecidableEq

def ReportFormat.ofName? : String → Option ReportFormat
  | "text" => some .text
  | "json" => some .json
  | _ => none

structure Settings where
  /-- Sample names besides the drums. -/
  samples : List String := []
  drums : Bool := true
  format : ReportFormat := .text

namespace Settings

def bank (s : Settings) : SampleBank :=
  (if s.drums then SampleBank.drums else SampleBank.empty).insertAll s.samples

def textOf? : Outline → Option String
  | .scalar text _ => some text
  | _ => none

def textsOf? : Outline → Option (List String)
  | .list items => items.mapM textOf?
  | .scalar "" true => some []
  | _ => none

def boolOf? : Outline → Option Bool
  | .scalar "true" true | .scalar "True" true | .scalar "TRUE" true => some true
  | .scalar "false" true | .scalar "False" true | .scalar "FALSE" true => some false
  | _ => none

def valuesOf (entries : List (String × Outline)) (key : String) : List Outline :=
  (entries.filter (·.1 == key)).map Prod.snd

/-- Reads a key that may be left out but not repeated. -/
def single? {α : Type} (entries : List (String × Outline)) (key : String)
    (read : Outline → Option α) (fallback : α) : Option α :=
  match valuesOf entries key with
  | [] => some fallback
  | [value] => read value
  | _ => none

/-- Reads settings. Keys without a meaning are passed over. -/
def ofOutline? : Outline → Option Settings
  | .mapping entries => do
    let entries ← entries.mapM fun (key, value) => return (← textOf? key, value)
    let samples ← single? entries "samples" textsOf? []
    let drums ← single? entries "default_samples" boolOf? true
    let format ← single? entries "format" (fun o => textOf? o >>= ReportFormat.ofName?) .text
    return { samples, drums, format }
  | .scalar "" true => some {}
  | _ => none

def ofString? (source : String) : Option Settings := Outline.ofString? source >>= ofOutline?

inductive Fault where
  | unreadable (path : String) (reason : FileError)
  | invalid (path : String)

def Fault.message : Fault → String
  | .unreadable path reason => "failed to read " ++ path ++ ": " ++ reason.message
  | .invalid path => "invalid config " ++ path

def ofFile (path : String) : Except FileError String → Except Fault Settings
  | .error reason => .error (.unreadable path reason)
  | .ok text =>
    match ofString? text with
    | none => .error (.invalid path)
    | some settings => .ok settings

end Settings

end SignalPatch
