import SignalPatch.Compile

/-!
# Reports in words

What a reader at a terminal sees: messages on one stream, a summary of the program on the other.
-/

namespace SignalPatch.Report

/-- The messages of a compilation of `source`, and how it failed if it did. -/
def messages (c : Compiled) (source : String) : String :=
  String.join (c.diagnostics.map fun d => rendered d source) ++
    if c.success then ""
    else "compilation failed with " ++ toString c.errorCount ++ " error(s)\n"

def controlTitle : ControlKind → String
  | .continuous => "Continuous"
  | .button => "Button"
  | .toggle => "Toggle"

def hostParamLine (p : HostParam) : String :=
  "param " ++ p.name ++ " (" ++ controlTitle p.kind ++ ") default " ++ Decimal.plain p.default ++
    " range [" ++ Decimal.plain p.min ++ ", " ++ Decimal.plain p.max ++ "]\n"

def summary (c : Compiled) : String :=
  if c.success then
    toString c.instructionCount ++ " instruction(s), " ++ toString c.bytecode.length ++
      " bytes\n" ++
      (if c.sequences.isEmpty then ""
        else toString c.sequences.length ++ " sequence state(s)\n") ++
      (if c.samples.isEmpty then "" else "samples: " ++ ", ".intercalate c.samples ++ "\n") ++
      String.join (c.hostParams.map hostParamLine)
  else ""

end SignalPatch.Report
