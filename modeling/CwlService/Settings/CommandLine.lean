import CwlService.Number.Reading

/-! # The command line

A name may be cut short as long as it fits one option only. A word that looks like an option
is no value, but a negative number is, and so is a word with a blank that is no option. -/
namespace CwlService.Settings

structure CommandLine where
  mode : String := "stdio"
  port : Int := 4389
  debug : Bool := false
  deriving DecidableEq, Repr

namespace CommandLine

inductive Flag where
  | mode
  | port
  | debug
  | help
  deriving DecidableEq, Repr

def names : List (String × Flag) :=
  [("-h", .help), ("--help", .help), ("--mode", .mode), ("--addr", .port), ("--debug", .debug)]

inductive Word where
  | flag (f : Flag) (value : Option String)
  | value (text : String)
  | refused
  deriving DecidableEq, Repr

def splitValue (s : String) : String × Option String :=
  let cs := s.toList
  match cs.dropWhile (· != '=') with
  | [] => (s, none)
  | _ :: value => (String.ofList (cs.takeWhile (· != '=')), some (String.ofList value))

def isNegative (cs : List Char) : Bool :=
  match cs with
  | '-' :: rest =>
    let digit (c : Char) := (Text.plainDigit c).isDigit
    match rest.takeWhile digit, rest.dropWhile digit with
    | [], [] => false
    | _ :: _, [] => true
    | _, '.' :: places => !places.isEmpty && places.all digit
    | _, _ => false
  | _ => false

def candidates (s : String) : List (Flag × Option String) :=
  if s.startsWith "--" then
    let (name, value) := splitValue s
    names.filterMap fun n => if n.1.startsWith name then some (n.2, value) else none
  else
    names.filterMap fun n =>
      if n.1.toList == s.toList.take 2 then some (n.2, some (s.drop 2).toString)
      else if n.1.startsWith s then some (n.2, none)
      else none

def wordOf (s : String) : Word :=
  if !s.startsWith "-" || s == "-" then .value s
  else if s == "--" then .refused
  else
    match names.lookup s, splitValue s with
    | some f, _ => .flag f none
    | none, (name, value) =>
      match (if value.isSome then names.lookup name else none), candidates s with
      | some f, _ => .flag f value
      | none, [(f, value)] => .flag f value
      | none, _ :: _ => .refused
      | none, [] =>
        if isNegative s.toList || s.toList.contains ' ' then .value s else .refused

def put (c : CommandLine) (f : Flag) (value : String) : Option CommandLine :=
  match f with
  | .mode => some { c with mode := value }
  | .port => (Number.integer? value).map fun n => { c with port := n }
  | _ => none

/-- Reads words; there is no result if one is refused or help is asked for. -/
def readWords (c : CommandLine) : List String → Option CommandLine
  | [] => some c
  | s :: rest =>
    match wordOf s with
    | .flag .debug none => readWords { c with debug := true } rest
    | .flag f (some v) => (c.put f v).bind fun c => readWords c rest
    | .flag f none =>
      match rest with
      | [] => none
      | next :: rest =>
        match wordOf next with
        | .value v => (c.put f v).bind fun c => readWords c rest
        | _ => none
    | _ => none

def read? (words : List String) : Option CommandLine := readWords {} words

end CommandLine
end CwlService.Settings
