import SignalPatch.Builtin
import SignalPatch.Instruction
import SignalPatch.Patch
import SignalPatch.Text.Fingerprint

/-!
# Symbols and scopes

A symbol table is a stack of scopes over a global one, which holds the built-in functions and is
never closed. Within a scope, symbols are told apart by the fingerprint of their name; a look-up
also compares the name itself, so that two names with one fingerprint are never confused.
-/

namespace SignalPatch

structure Function where
  name : String
  params : Signature
  definition : NodeId
  deriving DecidableEq

inductive Meaning where
  | variable
  | parameter
  | builtin (b : Builtin)
  | function (f : Function)
  deriving DecidableEq

structure Symbol where
  name : String
  hash : UInt32
  meaning : Meaning
  /-- Where the value is, once it has been computed. -/
  buffer : Buffer := .unused
  definedAt : Option Span := none
  deriving DecidableEq

namespace Symbol

def of (name : String) (meaning : Meaning) : Symbol :=
  { name, hash := Text.fingerprint name, meaning }

def ofVariable (name : String) (buffer : Buffer) : Symbol := { of name .variable with buffer }

def ofParameter (name : String) (buffer : Buffer) : Symbol := { of name .parameter with buffer }

def ofFunction (f : Function) (span : Span) : Symbol :=
  { of f.name (.function f) with definedAt := some span }

def isValue (s : Symbol) : Bool :=
  match s.meaning with
  | .variable | .parameter => true
  | .builtin _ | .function _ => false

end Symbol

/-- Symbols with different fingerprints, latest first. -/
abbrev Scope := List Symbol

namespace Scope

def find? (scope : Scope) (hash : UInt32) : Option Symbol := List.find? (·.hash == hash) scope

/-- The symbol under a name, if the one with its fingerprint bears that name. -/
def named? (scope : Scope) (name : String) : Option Symbol :=
  (scope.find? (Text.fingerprint name)).filter (·.name == name)

def modify (scope : Scope) (hash : UInt32) (f : Symbol → Symbol) : Scope :=
  scope.map fun s => if s.hash == hash then f s else s

end Scope

/-- Open scopes, innermost first, over the global one. -/
structure SymbolTable where
  inner : List Scope
  globals : Scope
  deriving DecidableEq

namespace SymbolTable

def scopes (t : SymbolTable) : List Scope := t.inner ++ [t.globals]

def depth (t : SymbolTable) : Nat := t.inner.length + 1

def current (t : SymbolTable) : Scope := t.inner.headD t.globals

def push (t : SymbolTable) : SymbolTable := { t with inner := [] :: t.inner }

def pop (t : SymbolTable) : SymbolTable := { t with inner := t.inner.tail }

def insert (t : SymbolTable) (s : Symbol) : SymbolTable :=
  match t.inner with
  | [] => { t with globals := s :: t.globals }
  | scope :: outer => { t with inner := (s :: scope) :: outer }

def define? (t : SymbolTable) (s : Symbol) : Option SymbolTable :=
  if (t.current.find? s.hash).isSome then none else some (t.insert s)

def define (t : SymbolTable) (s : Symbol) : SymbolTable := (t.define? s).getD t

def lookup (t : SymbolTable) (name : String) : Option Symbol := t.scopes.findSome? (·.named? name)

/-- The innermost symbol with a fingerprint, whatever its name. -/
def lookupHash (t : SymbolTable) (hash : UInt32) : Option Symbol :=
  t.scopes.findSome? (·.find? hash)

def isDefinedHere (t : SymbolTable) (name : String) : Bool := (t.current.named? name).isSome

def modifyIn (name : String) (f : Symbol → Symbol) : List Scope → List Scope
  | [] => []
  | scope :: outer =>
    if (scope.named? name).isSome then scope.modify (Text.fingerprint name) f :: outer
    else scope :: modifyIn name f outer

def modify (t : SymbolTable) (name : String) (f : Symbol → Symbol) : SymbolTable :=
  if t.inner.any fun scope => (scope.named? name).isSome then
    { t with inner := modifyIn name f t.inner }
  else if (t.globals.named? name).isSome then
    { t with globals := t.globals.modify (Text.fingerprint name) f }
  else t

def setBuffer (t : SymbolTable) (name : String) (buffer : Buffer) : SymbolTable :=
  t.modify name fun s => { s with buffer }

def builtinSymbols : List Symbol := Builtin.table.map fun b => .of b.name (.builtin b)

def aliasSymbols : List Symbol :=
  Builtin.aliases.filterMap fun (name, _) =>
    (Builtin.find? name).map fun b => .of name (.builtin b)

/-- The table that every patch starts from: the built-in functions under all their names. -/
def standard : SymbolTable := (builtinSymbols ++ aliasSymbols).foldl define ⟨[], []⟩

end SymbolTable

end SignalPatch
