import CwlService.Node.Basic
import CwlService.Number.Reading
import CwlService.Number.Shortest
import CwlService.Text.Quoted

/-! # Writing messages

Writes a value in JSON without white space, in ASCII: characters beyond it are escaped, those
outside the first plane as two surrogates. -/
namespace CwlService.Json

def numbers : DecimalFormat := ⟨-4, 16, true, 2, "Infinity", "NaN"⟩

def unicode (n : Nat) : List Char := '\\' :: 'u' :: Text.hexDigits 4 n

/-- The characters that are escaped by a letter, each with its letter. -/
def letters : List (Char × Char) :=
  [('\x22', '\x22'), ('\\', '\\'), ('\n', 'n'), ('\r', 'r'), ('\t', 't'), ('\x08', 'b'), ('\x0c', 'f')]

def escape (c : Char) : List Char :=
  match letters.lookup c with
  | some e => ['\\', e]
  | none =>
    let n := Text.codeOf c
    if 32 ≤ n && n < 127 then [c]
    else if n < 0x10000 then unicode n
    else unicode (0xD800 + (n - 0x10000) / 0x400) ++ unicode (0xDC00 + (n - 0x10000) % 0x400)

def quoted (s : String) : String :=
  String.ofList ('\x22' :: s.toList.flatMap escape ++ ['\x22'])

def integer? (n : Int) : Option String :=
  if (toString n.natAbs).length ≤ Number.maxDigits then some (toString n) else none

/-- The text of a key; keys that are no texts are written as one. -/
def keyText? : Node → Option String
  | .text s _ => some s
  | .bool b => some (if b then "true" else "false")
  | .null => some "null"
  | .int n _ => integer? n
  | .float x _ => some (numbers.text x)
  | _ => none

structure Layout where
  comma : String
  colon : String
  /-- Blanks per level, if every part has a line of its own. -/
  indent : Option Nat

namespace Layout

def compact : Layout := ⟨",", ":", none⟩

def wide : Layout := ⟨",", ": ", some 2⟩

def newline (l : Layout) (level : Nat) : String :=
  match l.indent with
  | none => ""
  | some n => "\n" ++ String.ofList (List.replicate (n * level) ' ')

end Layout

mutual
def write? (l : Layout) (level : Nat) : Node → Option String
  | .null => some "null"
  | .bool b => some (if b then "true" else "false")
  | .int n _ => integer? n
  | .float x _ => some (numbers.text x)
  | .text s _ => some (quoted s)
  | .seq _ [] => some "[]"
  | .seq _ items => do
    let parts ← writeItems? l (level + 1) items
    let lead := l.newline (level + 1)
    some ("[" ++ lead ++ (l.comma ++ lead).intercalate parts ++ l.newline level ++ "]")
  | .map _ [] => some "\x7b\x7d"
  | .map _ entries => do
    let parts ← writeEntries? l (level + 1) entries
    let lead := l.newline (level + 1)
    some ("\x7b" ++ lead ++ (l.comma ++ lead).intercalate parts ++ l.newline level ++ "\x7d")
  | _ => none

def writeItems? (l : Layout) (level : Nat) : Node.Items → Option (List String)
  | [] => some []
  | (_, n) :: rest => do
    let s ← write? l level n
    let tail ← writeItems? l level rest
    some (s :: tail)

def writeEntries? (l : Layout) (level : Nat) : Node.Entries → Option (List String)
  | [] => some []
  | (k, _, v) :: rest => do
    let key ← keyText? k
    let s ← write? l level v
    let tail ← writeEntries? l level rest
    some ((quoted key ++ l.colon ++ s) :: tail)
end

def text? (n : Node) : Option String := write? .compact 0 n

end CwlService.Json
