import SignalPatch.CommandLine

/-!
# The program

Runs the command line on the files of the system.
-/

namespace SignalPatch.Program

def fileError : IO.Error → FileError
  | .noFileOrDirectory .. => .notFound
  | .permissionDenied _ code details | .resourceExhausted _ code details
  | .inappropriateType _ code details | .invalidArgument _ code details
  | .noSuchThing _ code details | .alreadyExists _ code details =>
    .other (details ++ " (os error " ++ toString code.toNat ++ ")")
  | e => .other (toString e)

def readText (path : String) : IO (Except FileError String) := do
  try
    let bytes ← IO.FS.readBinFile path
    return FileTree.decodeText bytes.toList
  catch e => return .error (fileError e)

def write (path : String) (bytes : List UInt8) : IO (Except FileError Unit) := do
  try
    IO.FS.writeBinFile path ⟨bytes.toArray⟩
    return .ok ()
  catch e => return .error (fileError e)

/-- The files of the system; the standard settings file is below the home directory. -/
def host : IO (CommandLine.Host IO) := do
  let home ← IO.getEnv "HOME"
  let settingsFile := home.map (· ++ "/" ++ CommandLine.standardSettingsPath)
  return { readText, write, settingsFile }

end SignalPatch.Program

def main (arguments : List String) : IO UInt32 := do
  let outcome ← SignalPatch.CommandLine.run (← SignalPatch.Program.host) arguments
  IO.print outcome.stdout
  IO.eprint outcome.stderr
  return outcome.status.toUInt32
