import CwlService.Number.Reading
import CwlService.Path
import CwlService.Uri.Host

/-! # Addresses

A scheme starts with a letter and ends at the first colon; a host stands between two slashes
and the next slash, question mark or number sign. -/
namespace CwlService

structure Uri where
  scheme : String
  path : String
deriving DecidableEq, Repr

namespace Uri

def isSchemeChar (c : Char) : Bool :=
  c.toNat < 128 && (c.isAlphanum || c == '+' || c == '-' || c == '.')

def splitScheme (cs : List Char) : List Char × List Char :=
  let head := cs.takeWhile (· != ':')
  let rest := cs.drop head.length
  match head with
  | c :: _ =>
    if !rest.isEmpty && c.isAlpha && head.all isSchemeChar then
      (head.map Char.toLower, rest.drop 1)
    else ([], cs)
  | [] => ([], cs)

def splitHost : List Char → List Char × List Char
  | '/' :: '/' :: rest =>
    rest.span fun c => c != '/' && c != '?' && c != '#'
  | cs => ([], cs)

/-- The schemes whose last name may have parameters after a semicolon. -/
def parametric : List String :=
  ["", "ftp", "hdl", "prospero", "http", "https", "shttp", "rtsp", "rtspu", "sip", "sips", "mms",
   "sftp", "tel"]

def dropParameters (cs : List Char) : List Char :=
  let last := (cs.reverse.takeWhile (· != '/')).reverse
  if last.contains ';' then
    cs.take (cs.length - last.length) ++ last.takeWhile (· != ';')
  else cs

/-- Drops what addresses may not hold: controls and blanks in front, tabs and line ends. -/
def clean (cs : List Char) : List Char :=
  (cs.dropWhile fun c => c.toNat ≤ 32).filter fun c => c != '\t' && c != '\r' && c != '\n'

/-- The parts of an address; one without a valid host has none. -/
def split? (s : String) : Option Uri :=
  let (scheme, rest) := splitScheme (clean s.toList)
  let (host, rest) := splitHost rest
  if !Host.isValid host then none
  else
    let path := (rest.takeWhile (· != '#')).takeWhile (· != '?')
    let scheme := String.ofList scheme
    some ⟨scheme, String.ofList (if parametric.contains scheme then dropParameters path else path)⟩

/-! ## Percent signs -/

/-- The bytes of characters below 128, with those after percent signs read as hexadecimal. -/
def unescape : List Char → List UInt8
  | [] => []
  | '%' :: a :: b :: rest =>
    match Number.natural? 16 [a, b] with
    | some n => n.toUInt8 :: unescape rest
    | none => '%'.toNat.toUInt8 :: unescape (a :: b :: rest)
  | c :: rest => c.toNat.toUInt8 :: unescape rest

/-- Reads runs of characters below 128 through their bytes and leaves the others; `run` is
the current run, backwards. -/
def decodeRuns (run : List Char) : List Char → List Char
  | [] => (Text.ofBytes (unescape run.reverse)).toList
  | c :: rest =>
    if c.toNat < 128 then decodeRuns (c :: run) rest
    else (Text.ofBytes (unescape run.reverse)).toList ++ c :: decodeRuns [] rest

def decode (s : String) : String := String.ofList (decodeRuns [] s.toList)

def path? (s : String) : Option Path := (split? s).map fun u => Path.ofText (decode u.path)

def hasScheme? (s : String) : Option Bool := (split? s).map fun u => u.scheme != ""

end Uri
end CwlService
