import CwlService.Text.CharClass

/-! # The parts of a text with expressions

The body of a parameter reference or a script ends where the next one opens, and within that
stretch its last closing bracket ends it, so brackets inside a body need no balance. The text is
searched once for each of the two, and what is found is put in the order in which it begins. -/
namespace CwlService.Expression

inductive FragmentKind where
  | plain
  | reference
  | script
  deriving DecidableEq, Repr

/-- A part of a text with the places of its first character and of the one after it. The
text of a reference or script is its body, without the brackets. -/
structure Fragment where
  kind : FragmentKind
  text : String
  start : Nat
  stop : Nat
  deriving DecidableEq, Repr

/-- What opens at the front of a text, with the text after the opening. -/
def opening? : List Char → Option (FragmentKind × List Char)
  | '$' :: '(' :: rest => some (.reference, rest)
  | '$' :: '\x7b' :: rest => some (.script, rest)
  | _ => none

def closing : FragmentKind → Char
  | .script => '\x7d'
  | _ => ')'

/-- The characters before the bracket of the next opening, or all of them. -/
def stretch (dollar : Bool) : List Char → List Char
  | [] => []
  | c :: rest =>
    if dollar && (c == '(' || c == '\x7b') then []
    else c :: stretch (c == '$') rest

/-- What stands before the last of the given characters, if there is one. -/
def beforeLast? (c : Char) (cs : List Char) : Option (List Char) :=
  match cs.reverse.dropWhile (· != c) with
  | [] => none
  | _ :: before => some before.reverse

/-- The body of a kind of expression at the front of a text. -/
def bodyOf? (kind : FragmentKind) (cs : List Char) : Option (List Char) := do
  let (opened, rest) ← opening? cs
  if opened = kind then beforeLast? (closing kind) (stretch false rest) else none

/-- All expressions of a kind in a text that begins at `place`, from left to right; the first
`skip` characters belong to the one that was found last. -/
def scan (kind : FragmentKind) (place : Nat) : Nat → List Char → List Fragment
  | _, [] => []
  | skip + 1, _ :: rest => scan kind (place + 1) skip rest
  | 0, c :: rest =>
    match bodyOf? kind (c :: rest) with
    | some body =>
      ⟨kind, String.ofList body, place, place + body.length + 3⟩ :: scan kind (place + 1) (body.length + 2) rest
    | none => scan kind (place + 1) 0 rest

def plainPart (text : List Char) (start stop : Nat) : Fragment :=
  ⟨.plain, String.ofList ((text.take stop).drop start), start, stop⟩

/-- Expressions with plain parts around them, from the cursor on. -/
def withPlain (text : List Char) (cursor : Nat) : List Fragment → List Fragment
  | [] => [plainPart text cursor text.length]
  | f :: rest => plainPart text cursor f.start :: f :: withPlain text f.stop rest

/-- The expressions of a text that begins at `place`, by their starts. -/
def expressions (place : Nat) (cs : List Char) : List Fragment :=
  (scan .reference place 0 cs).merge (scan .script place 0 cs) fun r e => r.start < e.start

/-- All parts of a text: a plain one first and last and between any two others. -/
def fragments (text : String) : List Fragment := withPlain text.toList 0 (expressions 0 text.toList)

/-! ## The inputs that a text names -/

def inputsWord : List Char := "inputs.".toList

/-- The names after each `inputs.`, from left to right; `skip` characters were taken. -/
def namesFrom : Nat → List Char → List String
  | _, [] => []
  | skip + 1, _ :: rest => namesFrom skip rest
  | 0, c :: rest =>
    if inputsWord.isPrefixOf (c :: rest) then
      let name := ((c :: rest).drop inputsWord.length).takeWhile Text.isWordChar
      String.ofList name :: namesFrom (inputsWord.length + name.length - 1) rest
    else namesFrom 0 rest

def inputNames (text : String) : List String := namesFrom 0 text.toList

end CwlService.Expression
