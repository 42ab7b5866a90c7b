import CwlService.Text.Quoted
import CwlService.Text.Basic

/-! # Paths

Reading a path drops empty names and the name of the current directory; a parent directory
stays until the path is resolved. Two slashes at the start are a root of their own. -/
namespace CwlService

structure Path where
  /-- Empty for a relative path. -/
  root : String
  names : List String
deriving DecidableEq, Repr, Inhabited

namespace Path

def ofText (s : String) : Path :=
  let slashes := (s.toList.takeWhile (· == '/')).length
  ⟨if slashes = 0 then "" else if slashes = 2 then "//" else "/",
    (Text.parts '/' s).filter fun n => n != "" && n != "."⟩

def text (p : Path) : String :=
  if p.root == "" && p.names.isEmpty then "." else p.root ++ "/".intercalate p.names

def isAbsolute (p : Path) : Bool := p.root != ""

def parent (p : Path) : Path := { p with names := p.names.dropLast }

def join (base p : Path) : Path := if p.isAbsolute then p else ⟨base.root, base.names ++ p.names⟩

/-- Goes into a directory by name; the parent of the root is the root. -/
def step (names : List String) (name : String) : List String :=
  if name == ".." then names.dropLast else names ++ [name]

/-- The names that a path leads to from the root, with every parent directory gone to. -/
def flat (p : Path) : List String := p.names.foldl step []

/-- The absolute path without parent directories, for a working directory. -/
def resolve (p cwd : Path) : Path := ⟨"/", (cwd.join p).flat⟩

def name (p : Path) : String := p.names.getLast?.getD ""

/-- A name without its last suffix. A suffix has a point with characters on both sides. -/
def stem (name : String) : String :=
  let tail := name.toList.reverse.takeWhile (· != '.')
  let keep := name.length - tail.length - 1
  if tail.isEmpty || keep = 0 || tail.length = name.length then name
  else String.ofList (name.toList.take keep)

def withSuffix? (p : Path) (suffix : String) : Option Path :=
  match p.names.getLast? with
  | none => none
  | some n => some { p with names := p.names.dropLast ++ [stem n ++ suffix] }

def isUnreserved (c : Char) : Bool :=
  c.toNat < 128 && (c.isAlphanum || c == '_' || c == '.' || c == '-' || c == '~' || c == '/')

/-- A character in an address: itself, or its bytes in the name of a file after percent signs. -/
def percent (halves : Text.Halves) (c : Char) : List Char :=
  if isUnreserved c then [c]
  else (Text.fileBytes halves c.toString).flatMap fun b => '%' :: (Text.hexDigits 2 b.toNat).map Char.toUpper

def uri (p : Path) (halves : Text.Halves) : String :=
  "file://" ++ String.ofList (p.text.toList.flatMap (percent halves))

end Path
end CwlService
