import SignalPatch.Issue
import SignalPatch.Pattern.Step
import SignalPatch.Pitch
import SignalPatch.Text.Blank

/-!
# Reading patterns

    pattern := step*
    step    := (word | '[' step* ']') ['*' DIGIT*]

Words end at a blank, a bracket or a star. A word is a rest, a number, the name of a pitch or the
name of a sample, tried in this order.
-/

namespace SignalPatch.Pattern

/-- Why a text is no pattern, how many of its characters were left at the fault, and how many bytes
are at fault. -/
structure Misread where
  fault : PatternFault
  left : Nat
  length : Nat

def isWordChar (c : Char) : Bool := !(Text.isBlank c || c == '[' || c == ']' || c == '*')

def byteLength (cs : List Char) : Nat := cs.foldl (fun n c => n + c.utf8Size) 0

def startsNumber (c : Char) : Bool := c.isDigit || c == '-' || c == '.'

def isSampleName : List Char → Bool
  | [] => false
  | c :: cs => c.isAlpha && cs.all fun d => d.isAlphanum || d == '_'

inductive Atom where
  | rest
  | sound (sound : Sound)

def Atom.repeated (n : Nat) : Atom → Step
  | .rest => .rest n
  | .sound s => .sound s n

def atom (word : List Char) : Except PatternFault Atom :=
  if word = ['~'] ∨ word = ['_'] then .ok .rest
  else if word.head?.any startsNumber then
    match Decimal.read? word with
    | some value => .ok (.sound (.number value))
    | none => .error (.badNumber (String.ofList word))
  else match Pitch.ofName? word with
    | some note => .ok (.sound (.pitch note))
    | none =>
      if isSampleName word then .ok (.sound (.sample (String.ofList word)))
      else .error (.badStep (String.ofList word))

structure Reading (α : Type) (cs : List Char) where
  value : α
  rest : List Char
  le : rest.length ≤ cs.length

def repeats (cs : List Char) : Except Misread (Reading Nat cs) :=
  match cs with
  | '*' :: rest =>
    let digits := rest.takeWhile Char.isDigit
    let n := Decimal.wholeNumber digits
    if 0 < n ∧ n ≤ countLimit then
      .ok ⟨n, rest.drop digits.length, by simp; omega⟩
    else .error ⟨.badRepeat, rest.length + 1, digits.length + 1⟩
  | cs => .ok ⟨1, cs, Nat.le_refl _⟩

theorem dropBlanks_length_le (cs : List Char) : (cs.dropWhile Text.isBlank).length ≤ cs.length :=
  (List.dropWhile_sublist _).length_le

/-- The steps up to the end of the text, or of the group when `nested`. -/
def steps (nested : Bool) (cs : List Char) : Except Misread (Reading (List Step) cs) :=
  have h₀ := dropBlanks_length_le cs
  match hc : cs.dropWhile Text.isBlank with
  | [] => if nested then .error ⟨.unclosedGroup, 0, 0⟩ else .ok ⟨[], [], by simp⟩
  | '[' :: rest => do
    have h₁ : rest.length < cs.length := by simp [hc] at h₀; omega
    let ⟨inner, r₁, _⟩ ← steps true rest
    if inner.isEmpty then throw ⟨.emptyGroup, rest.length + 1, 1⟩
    let ⟨n, r₂, _⟩ ← repeats r₁
    let ⟨more, r₃, _⟩ ← steps nested r₂
    return ⟨.group inner n :: more, r₃, by omega⟩
  | ']' :: rest =>
    if nested then .ok ⟨[], rest, by simp [hc] at h₀; omega⟩
    else .error ⟨.strayClose, rest.length + 1, 1⟩
  | '*' :: rest => .error ⟨.strayRepeat, rest.length + 1, 1⟩
  | c :: rest => do
    let tail := rest.takeWhile isWordChar
    have h₁ : (rest.drop tail.length).length < cs.length := by simp [hc] at h₀ ⊢; omega
    let atom ← (atom (c :: tail)).mapError fun fault =>
      (⟨fault, rest.length + 1, byteLength (c :: tail)⟩ : Misread)
    let ⟨n, r₂, _⟩ ← repeats (rest.drop tail.length)
    let ⟨more, r₃, _⟩ ← steps nested r₂
    return ⟨atom.repeated n :: more, r₃, by omega⟩
termination_by cs.length

end SignalPatch.Pattern
