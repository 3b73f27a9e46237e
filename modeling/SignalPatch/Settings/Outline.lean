/-!
# Outlines

Settings files are written in a small part of YAML: mappings and lists by indentation or in
brackets, plain and quoted texts, and comments. Anything else is refused.
-/

namespace SignalPatch.Settings

inductive Outline where
  | scalar (text : String) (plain : Bool)
  | list (items : List Outline)
  | mapping (entries : List (Outline × Outline))

def Outline.missing : Outline := .scalar "" true

namespace Outline

def isGap (c : Char) : Bool := c == ' ' || c == '\t' || c == '\n'

/-- Skips blanks and comments. A comment starts the text or follows a blank, and ends the line. -/
def skipGaps : (fuel : Nat) → List Char → List Char
  | 0, cs => cs
  | fuel + 1, cs =>
    match cs.dropWhile isGap with
    | '#' :: rest => skipGaps fuel (rest.dropWhile (· != '\n'))
    | rest => rest

def endsLine (cs : List Char) : Bool :=
  match cs.dropWhile (fun c => c == ' ' || c == '\t') with
  | [] => true
  | '\n' :: _ => true
  | '#' :: _ => cs.head? != some '#'
  | _ => false

/-- Characters other than blanks that a plain text cannot start with. -/
def isIndicator (c : Char) : Bool := "[]\x7b\x7d,#&*!|>'\"%@".toList.contains c || c.toNat == 96

def trimEnd (cs : List Char) : List Char := (cs.reverse.dropWhile isGap).reverse

def hexValue? (cs : List Char) : Option Nat :=
  cs.foldlM (fun n c =>
    if c.isDigit then some (16 * n + (c.toNat - '0'.toNat))
    else if 'a' ≤ c ∧ c ≤ 'f' then some (16 * n + (c.toNat - 'a'.toNat + 10))
    else if 'A' ≤ c ∧ c ≤ 'F' then some (16 * n + (c.toNat - 'A'.toNat + 10))
    else none) 0

def coded? (width : Nat) (cs : List Char) : Option (Char × List Char) :=
  if cs.length < width then none
  else (hexValue? (cs.take width)).map fun n => (Char.ofNat n, cs.drop width)

def escape? : List Char → Option (Char × List Char)
  | 'n' :: cs => some ('\n', cs)
  | 't' :: cs => some ('\t', cs)
  | 'r' :: cs => some ('\r', cs)
  | '0' :: cs => some ('\x00', cs)
  | '"' :: cs => some ('"', cs)
  | '\\' :: cs => some ('\\', cs)
  | '/' :: cs => some ('/', cs)
  | ' ' :: cs => some (' ', cs)
  | 'x' :: cs => coded? 2 cs
  | 'u' :: cs => coded? 4 cs
  | _ => none

def doubleQuoted : (fuel : Nat) → List Char → Option (List Char × List Char)
  | 0, _ => none
  | _, [] => none
  | _, '"' :: rest => some ([], rest)
  | fuel + 1, '\\' :: rest => do
    let (c, rest) ← escape? rest
    let (text, rest) ← doubleQuoted fuel rest
    return (c :: text, rest)
  | fuel + 1, c :: rest => do
    let (text, rest) ← doubleQuoted fuel rest
    return (c :: text, rest)

def singleQuoted : List Char → Option (List Char × List Char)
  | [] => none
  | '\'' :: '\'' :: rest => do
    let (text, rest) ← singleQuoted rest
    return ('\'' :: text, rest)
  | '\'' :: rest => some ([], rest)
  | c :: rest => do
    let (text, rest) ← singleQuoted rest
    return (c :: text, rest)

def quoted? (cs : List Char) : Option (List Char × List Char) :=
  match cs with
  | '"' :: rest => doubleQuoted (rest.length + 1) rest
  | '\'' :: rest => singleQuoted rest
  | _ => none

def endsKey (inBrackets : Bool) (cs : List Char) : Bool :=
  match cs with
  | [] => true
  | c :: _ => isGap c || (inBrackets && ",[]\x7b\x7d".toList.contains c)

/-- The characters of a plain text: up to a comment, a line end, the colon of a key, and in brackets
up to a comma or bracket. -/
def plainText (inBrackets : Bool) (last : Char) : List Char → List Char
  | [] => []
  | c :: cs =>
    if c = '\n' ∨ (c = '#' ∧ isGap last) ∨ (c = ':' ∧ endsKey inBrackets cs) ∨
        (inBrackets ∧ ",[]\x7b\x7d".toList.contains c) then []
    else c :: plainText inBrackets c cs

def plain? (inBrackets : Bool) (cs : List Char) : Option (List Char × List Char) :=
  match cs with
  | [] => none
  | c :: rest =>
    if isIndicator c || isGap c then none
    else if (c = '-' ∨ c = '?' ∨ c = ':') ∧ endsKey inBrackets rest then none
    else
      let text := trimEnd (plainText inBrackets ' ' cs)
      some (text, cs.drop text.length)

def scalar? (inBrackets : Bool) (cs : List Char) : Option (Outline × List Char) :=
  match quoted? cs with
  | some (text, rest) => some (.scalar (String.ofList text) false, rest)
  | none => (plain? inBrackets cs).map fun (text, rest) => (.scalar (String.ofList text) true, rest)

mutual

def bracketed : (fuel : Nat) → List Char → Option (Outline × List Char)
  | 0, _ => none
  | fuel + 1, cs =>
    match cs with
    | '[' :: rest => do
      let (items, rest) ← bracketedItems fuel (skipGaps rest.length rest)
      return (.list items, rest)
    | '\x7b' :: rest => do
      let (entries, rest) ← bracketedEntries fuel (skipGaps rest.length rest)
      return (.mapping entries, rest)
    | cs => scalar? true cs

def bracketedItems : (fuel : Nat) → List Char → Option (List Outline × List Char)
  | 0, _ => none
  | fuel + 1, cs =>
    match cs with
    | ']' :: rest => some ([], rest)
    | cs => do
      let (item, rest) ← bracketed fuel cs
      match skipGaps rest.length rest with
      | ',' :: rest => do
        let (items, rest) ← bracketedItems fuel (skipGaps rest.length rest)
        return (item :: items, rest)
      | ']' :: rest => return ([item], rest)
      | _ => none

/-- The entries of a mapping up to its closing brace. A key without a colon has no value. -/
def bracketedEntries : (fuel : Nat) → List Char → Option (List (Outline × Outline) × List Char)
  | 0, _ => none
  | fuel + 1, cs =>
    match cs with
    | '\x7d' :: rest => some ([], rest)
    | cs => do
      let (key, rest) ← scalar? true cs
      let (value, rest) ← match skipGaps rest.length rest with
        | ':' :: rest =>
          match skipGaps rest.length rest with
          | ',' :: rest => some (missing, ',' :: rest)
          | '\x7d' :: rest => some (missing, '\x7d' :: rest)
          | rest => bracketed fuel rest
        | rest => some (missing, rest)
      match skipGaps rest.length rest with
      | ',' :: rest => do
        let (entries, rest) ← bracketedEntries fuel (skipGaps rest.length rest)
        return ((key, value) :: entries, rest)
      | '\x7d' :: rest => return ([(key, value)], rest)
      | _ => none

end

/-! ## Lines -/

structure Line where
  indent : Nat
  text : List Char

def line? (cs : List Char) : Option Line :=
  let text := cs.dropWhile (· == ' ')
  if endsLine (' ' :: text) then none else some ⟨cs.length - text.length, text⟩

def withoutReturn (cs : List Char) : List Char :=
  if cs.getLast? = some '\r' then cs.dropLast else cs

def lines (source : String) : List Line :=
  (source.splitOn "\n").filterMap fun l => line? (withoutReturn l.toList)

def key? (cs : List Char) : Option (Outline × List Char) := do
  let (key, rest) ← scalar? false cs
  match rest.dropWhile (fun c => c == ' ' || c == '\t') with
  | ':' :: rest => if endsKey false rest then some (key, rest) else none
  | _ => none

def item? : List Char → Option (List Char)
  | ['-'] => some []
  | '-' :: c :: cs => if c = ' ' ∨ c = '\t' then some (c :: cs) else none
  | _ => none

/-- A value that starts within a line, with the lines after it. A plain text goes on in lines that
are indented deeper than `indent`, none of which may have a key. -/
def inline (indent : Nat) (cs : List Char) (rest : List Line) : Option (Outline × List Line) :=
  match cs with
  | '[' :: _ | '\x7b' :: _ =>
    let text := cs ++ rest.flatMap fun l => '\n' :: l.text
    match bracketed (text.length + 1) text with
    | none => none
    | some (value, after) =>
      if endsLine after then
        let used := (text.count '\n') - (after.count '\n')
        some (value, rest.drop used)
      else none
  | cs =>
    match scalar? false cs with
    | none => none
    | some (.scalar text true, after) =>
      if endsLine after then
        let more := rest.takeWhile (indent < ·.indent)
        if more.any fun l => (key? l.text).isSome then none
        else
          let words := more.map fun l => String.ofList (trimEnd l.text)
          some (.scalar (" ".intercalate (text :: words)) true, rest.drop more.length)
      else none
    | some (value, after) => if endsLine after then some (value, rest) else none

mutual

/-- The value that starts with the first of the lines, which is indented to at least `least`. -/
def block : (fuel least : Nat) → List Line → Option (Outline × List Line)
  | 0, _, _ => none
  | _, _, [] => some (missing, [])
  | fuel + 1, least, l :: rest =>
    if l.indent < least then some (missing, l :: rest)
    else if (item? l.text).isSome then do
      let (items, rest) ← blockItems fuel l.indent (l :: rest)
      return (.list items, rest)
    else if (key? l.text).isSome then do
      let (entries, rest) ← blockEntries fuel l.indent (l :: rest)
      return (.mapping entries, rest)
    else inline (least - 1) l.text rest

def blockItems : (fuel indent : Nat) → List Line → Option (List Outline × List Line)
  | 0, _, _ => none
  | _, _, [] => some ([], [])
  | fuel + 1, indent, l :: rest =>
    if l.indent = indent then
      match item? l.text with
      | none => some ([], l :: rest)
      | some text => do
        let body := text.dropWhile (· == ' ')
        let inner : List Line :=
          if endsLine text then rest
          else ⟨indent + 1 + (text.length - body.length), body⟩ :: rest
        let (item, rest) ← block fuel (indent + 1) inner
        let (items, rest) ← blockItems fuel indent rest
        return (item :: items, rest)
    else if indent < l.indent then none
    else some ([], l :: rest)

/-- The entries of a mapping whose keys are indented to `indent`. The value of a key is on its line,
or on the deeper lines below; a list may also stand at the indentation of the key. -/
def blockEntries : (fuel indent : Nat) → List Line → Option (List (Outline × Outline) × List Line)
  | 0, _, _ => none
  | _, _, [] => some ([], [])
  | fuel + 1, indent, l :: rest =>
    if l.indent = indent then
      match key? l.text with
      | none => if (item? l.text).isSome then some ([], l :: rest) else none
      | some (key, text) => do
        let (value, rest) ←
          if endsLine text then
            match rest with
            | next :: _ =>
              if next.indent = indent ∧ (item? next.text).isSome then
                (blockItems fuel indent rest).map fun (items, rest) => (Outline.list items, rest)
              else block fuel (indent + 1) rest
            | [] => some (missing, [])
          else inline indent (text.dropWhile (fun c => c == ' ' || c == '\t')) rest
        let (entries, rest) ← blockEntries fuel indent rest
        return ((key, value) :: entries, rest)
    else if indent < l.indent then none
    else some ([], l :: rest)

end

def isStartMark (l : Line) : Bool := l.indent == 0 && trimEnd l.text == ['-', '-', '-']

def ofString? (source : String) : Option Outline :=
  let all := lines source
  let body := if all.head?.any isStartMark then all.drop 1 else all
  match block (source.length + body.length + 2) 0 body with
  | some (value, []) => some value
  | _ => none

end Outline

end SignalPatch.Settings
