/-! # Hosts of addresses

A numeric host in brackets is eight groups of hexadecimal digits, where one run of zero groups
may be left out and the last two groups may be written as four bytes, or an address of a later
kind. A name may not hold characters that stand for a separator of addresses. -/
namespace CwlService.Host

/-! ## Numeric hosts -/

def isHexDigit (c : Char) : Bool :=
  c.isDigit || ('a' ≤ c && c ≤ 'f') || ('A' ≤ c && c ≤ 'F')

def isGroup (s : String) : Bool :=
  !s.isEmpty && s.length ≤ 4 && s.all isHexDigit

def isByte (s : String) : Bool :=
  !s.isEmpty && s.length ≤ 3 && s.all Char.isDigit && (s == "0" || !s.startsWith "0") &&
    s.toNat?.any (· ≤ 255)

def isDotted (s : String) : Bool :=
  let bytes := s.splitOn "."
  bytes.length == 4 && bytes.all isByte

/-- How many groups there are with colons between them; `ends` tells that the last may be
dotted, which counts for two. -/
def groups? (ends : Bool) (s : String) : Option Nat :=
  if s.isEmpty then some 0 else
  match (s.splitOn ":").reverse with
  | last :: before =>
    if !before.all isGroup then none
    else if isGroup last then some (before.length + 1)
    else if ends && isDotted last then some (before.length + 2)
    else none
  | [] => some 0

def isNumeric (s : String) : Bool :=
  match s.splitOn "::" with
  | [whole] => groups? true whole == some 8
  | [before, behind] =>
    match groups? false before, groups? true behind with
    | some m, some n => m + n < 8
    | _, _ => false
  | _ => false

/-- A numeric host, with a zone behind a percent sign or without one. -/
def isZoned (s : String) : Bool :=
  match s.splitOn "%" with
  | [address] => isNumeric address
  | [address, zone] => isNumeric address && !zone.isEmpty
  | _ => false

/-- A host of a later kind: its version and a point, then anything. -/
def isLater (s : String) : Bool :=
  match s.splitOn "." with
  | version :: rest =>
    version.length > 1 && (version.drop 1).all isHexDigit && !(".".intercalate rest).isEmpty
  | [] => false

def isBracketed (s : String) : Bool := if s.startsWith "v" then isLater s else isZoned s

/-! ## Names -/

/-- The characters that are another way to write text with a slash, a question mark, a number
sign, an at sign or a colon in it. -/
def hidesSeparator (c : Char) : Bool :=
  ['\u2047', '\u2048', '\u2049', '\u2100', '\u2101', '\u2105', '\u2106', '\u2a74', '\ufe13',
   '\ufe16', '\ufe55', '\ufe56', '\ufe5f', '\ufe6b', '\uff03', '\uff0f', '\uff1a', '\uff1f',
   '\uff20'].contains c

def inBrackets (host : List Char) : String :=
  String.ofList (((host.dropWhile (· != '[')).drop 1).takeWhile (· != ']'))

def isValid (host : List Char) : Bool :=
  host.contains '[' == host.contains ']' &&
    (!host.contains '[' || isBracketed (inBrackets host)) && !host.any hidesSeparator

end CwlService.Host
