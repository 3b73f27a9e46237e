import SignalPatch.Grammar

/-!
# Patches

A patch is an arena of nodes that refer to each other by number, and its statements in order. While
it is only read, each node has one parent and refers to earlier nodes; resolution lets several
parents share a node.
-/

namespace SignalPatch

abbrev NodeId := Nat

inductive NodeKind where
  | number (value : Float)
  | bool (value : Bool)
  | text (value : String)
  | ident (name : String)
  | hole
  | binary (op : BinaryOp) (lhs rhs : NodeId)
  | call (callee : String) (args : List (Arg NodeId))
  | pipe (source target : NodeId)
  | assign (name : String) (value : NodeId)
  | define (name : String) (params : List Parameter) (body : NodeId)
  deriving DecidableEq

structure Node where
  kind : NodeKind
  span : Span
  deriving DecidableEq

instance : Inhabited Node := ⟨⟨.hole, .origin⟩⟩

/-- The nodes of a patch, in the order they were made. -/
abbrev Arena := Array Node

namespace Arena

def add (nodes : Arena) (node : Node) : Arena × NodeId := (nodes.push node, nodes.size)

def node (nodes : Arena) (id : NodeId) : Node := nodes.getD id default

def kind (nodes : Arena) (id : NodeId) : NodeKind := (nodes.node id).kind

def span (nodes : Arena) (id : NodeId) : Span := (nodes.node id).span

def setKind (nodes : Arena) (id : NodeId) (kind : NodeKind) : Arena :=
  nodes.modify id fun node => { node with kind }

end Arena

mutual

/-- Stores a tree, children first, and gives the number of its root. -/
def Expr.store (nodes : Arena) : Expr → Arena × NodeId
  | .number value span => nodes.add ⟨.number value, span⟩
  | .bool value span => nodes.add ⟨.bool value, span⟩
  | .text value span => nodes.add ⟨.text value, span⟩
  | .ident name span => nodes.add ⟨.ident name, span⟩
  | .hole span => nodes.add ⟨.hole, span⟩
  | .binary op lhs rhs span =>
    let (nodes, lhs) := lhs.store nodes
    let (nodes, rhs) := rhs.store nodes
    nodes.add ⟨.binary op lhs rhs, span⟩
  | .call callee args span =>
    let (nodes, args) := storeArgs nodes args
    nodes.add ⟨.call callee args, span⟩
  | .pipe source target span =>
    let (nodes, source) := source.store nodes
    let (nodes, target) := target.store nodes
    nodes.add ⟨.pipe source target, span⟩

def storeArgs (nodes : Arena) : List (Arg Expr) → Arena × List (Arg NodeId)
  | [] => (nodes, [])
  | ⟨name, value, span⟩ :: args =>
    let (nodes, value) := value.store nodes
    let (nodes, args) := storeArgs nodes args
    (nodes, ⟨name, value, span⟩ :: args)

end

def Statement.store (nodes : Arena) : Statement → Arena × NodeId
  | .define name params body span =>
    let (nodes, body) := body.store nodes
    nodes.add ⟨.define name params body, span⟩
  | .assign name value span =>
    let (nodes, value) := value.store nodes
    nodes.add ⟨.assign name value, span⟩
  | .expr value => value.store nodes

structure Patch where
  nodes : Arena
  statements : List NodeId
  deriving DecidableEq

namespace Patch

def empty : Patch := ⟨#[], []⟩

def isEmpty (p : Patch) : Bool := p.statements.isEmpty

def addStatement (p : Patch) (s : Statement) : Patch :=
  let (nodes, id) := s.store p.nodes
  ⟨nodes, p.statements ++ [id]⟩

/-- Keeps what was read of a statement that was given up; no statement refers to it. -/
def addFragments (p : Patch) (es : List Expr) : Patch :=
  { p with nodes := es.foldl (fun nodes e => (e.store nodes).1) p.nodes }

def addTurn (p : Patch) : Grammar.Turn → Patch
  | .complete s => p.addStatement s
  | .trailing s _ => p.addStatement s
  | .abandoned fault => p.addFragments fault.built

end Patch

namespace Grammar

/-- What to report at the token at fault, which is an end mark at `stop` if there is none. -/
def Fault.finding (stop : Span) (fault : Fault) : Finding :=
  let found := fault.found.getD ⟨.finish, stop⟩
  let issue : Issue :=
    match fault.reason with
    | .unexpected => .unexpected found.kind
    | .expected what => .expected what found.kind
    | .nestedFunction => .nestedFunction
  ⟨issue, found.span⟩

def Turn.finding? (stop : Span) : Turn → Option Finding
  | .complete _ => none
  | .trailing _ next => some ⟨.unexpectedAfterStatement next.kind, next.span⟩
  | .abandoned fault => some (fault.finding stop)

/-- Where the input ends: at the first end mark, else at the last token. -/
def stopSpan (tokens : List Token) : Span :=
  match tokens.find? (·.kind == .finish) with
  | some mark => mark.span
  | none => (tokens.getLast?.map Token.span).getD .origin

def beforeFinish (tokens : List Token) : List Token := tokens.takeWhile (·.kind != .finish)

end Grammar

structure Parsed where
  patch : Patch
  findings : List Finding

def parse (tokens : List Token) : Parsed :=
  let read := Grammar.turns (Grammar.beforeFinish tokens)
  { patch := read.foldl Patch.addTurn .empty
    findings := read.filterMap (Grammar.Turn.finding? (Grammar.stopSpan tokens)) }

end SignalPatch
