/-!
# Files in memory

A tree of files below one directory, enough to run the command line without a disk.
-/

namespace SignalPatch

inductive FileError where
  | notFound
  | notDirectory
  | isDirectory
  | notText
  | other (text : String)
  deriving DecidableEq

def FileError.message : FileError → String
  | .notFound => "No such file or directory (os error 2)"
  | .notDirectory => "Not a directory (os error 20)"
  | .isDirectory => "Is a directory (os error 21)"
  | .notText => "stream did not contain valid UTF-8"
  | .other text => text

/-- Files by the names of the directories that lead to them and their own name. -/
structure FileTree where
  files : List (List String × List UInt8)

namespace FileTree

def empty : FileTree := ⟨[]⟩

def names? (path : String) : Option (List String) :=
  if path.startsWith "/" then none else some (path.splitOn "/")

def isDirectory (t : FileTree) (place : List String) : Bool :=
  place.isEmpty || t.files.any fun (path, _) => place.isPrefixOf path && path != place

def contents? (t : FileTree) (place : List String) : Option (List UInt8) := t.files.lookup place

/-- Goes from a directory along the names of a path to the place that it names. Each name but the
last leads to a directory; so does a last one that is empty. -/
def walk (t : FileTree) (place : List String) : List String → Except FileError (List String)
  | [] => .ok place
  | name :: rest =>
    if name = "" ∨ name = "." then walk t place rest
    else if name = ".." then walk t place.dropLast rest
    else
      let next := place ++ [name]
      if rest.isEmpty then .ok next
      else if (t.contents? next).isSome then .error .notDirectory
      else if t.isDirectory next then walk t next rest
      else .error .notFound

def locate (t : FileTree) (path : String) : Except FileError (List String) :=
  match names? path with
  | none => .error .notFound
  | some names => if path.isEmpty then .error .notFound else t.walk [] names

def read (t : FileTree) (path : String) : Except FileError (List UInt8) := do
  let place ← t.locate path
  match t.contents? place with
  | some bytes => return bytes
  | none => throw (if t.isDirectory place then .isDirectory else .notFound)

def decodeText (bytes : List UInt8) : Except FileError String :=
  match String.fromUTF8? ⟨bytes.toArray⟩ with
  | some text => .ok text
  | none => .error .notText

def readText (t : FileTree) (path : String) : Except FileError String := do
  decodeText (← t.read path)

def insert (t : FileTree) (place : List String) (bytes : List UInt8) : FileTree :=
  ⟨t.files.filter (·.1 != place) ++ [(place, bytes)]⟩

def write (t : FileTree) (path : String) (bytes : List UInt8) : Except FileError FileTree := do
  let place ← t.locate path
  if t.isDirectory place then throw .isDirectory
  return t.insert place bytes

end FileTree

end SignalPatch
