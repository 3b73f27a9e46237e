/-!
# Sample banks

The names of the samples a program may play. A sample keeps the number under which it first came.
A program only ever asks whether there is a sample of a name, and any answers will do.
-/

namespace SignalPatch

/-- Which samples there are. -/
structure SampleRegistry where
  contains : String → Bool

/-- Sample names in the order of their numbers, each once. -/
structure SampleBank where
  names : List String

namespace SampleBank

def empty : SampleBank := ⟨[]⟩

def contains (bank : SampleBank) (name : String) : Bool := bank.names.contains name

def id? (bank : SampleBank) (name : String) : Option Nat := bank.names.findIdx? (· == name)

def registry (bank : SampleBank) : SampleRegistry := ⟨bank.contains⟩

instance : Coe SampleBank SampleRegistry := ⟨registry⟩

def insert (bank : SampleBank) (name : String) : SampleBank :=
  if bank.contains name then bank else ⟨bank.names ++ [name]⟩

def size (bank : SampleBank) : Nat := bank.names.length

def isEmpty (bank : SampleBank) : Bool := bank.names.isEmpty

def sortedNames (bank : SampleBank) : List String :=
  bank.names.mergeSort fun a b => !decide (b < a)

def drumNames : List String :=
  ["bd", "kick", "sd", "snare", "hh", "hihat", "oh", "cp", "clap", "rim", "tom", "perc", "cymbal",
    "crash", "cowbell", "shaker", "tambourine", "conga", "bongo"]

def insertAll (bank : SampleBank) (names : List String) : SampleBank := names.foldl insert bank

def drums : SampleBank := empty.insertAll drumNames

end SampleBank

def SampleRegistry.drums : SampleRegistry := SampleBank.drums

end SignalPatch
