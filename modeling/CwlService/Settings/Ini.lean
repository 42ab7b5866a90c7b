import CwlService.Text.Basic

/-! # Settings in sections

A line that is further in than the option above goes on with its value. Options of the section
`DEFAULT` count in every section.

A section or an option must not stand twice, and nothing stands before the first header;
reading stops there. A line that is no option is passed over and makes the file malformed
in the end. What was read before counts in any case. -/
namespace CwlService.Settings

/-- Why a settings file is not right, or has no value for an option. -/
inductive IniFault where
  | duplicateSection
  | duplicateOption
  | noHeader
  | malformed
  | noSection
  | noOption
  | badReference
  | missingReference
  | tooDeep
  deriving DecidableEq, Repr

abbrev Options := List (String × String)

structure Ini where
  defaults : Options := []
  sections : List (String × Options) := []
  deriving Repr

namespace Ini

def defaultSection : String := "DEFAULT"

/-! ## Reading -/

abbrev Lines := List (String × List String)

structure Reading where
  defaults : Lines := []
  sections : List (String × Lines) := []
  current : Option String := none
  option : Option String := none
  /-- How far in the last line was that did not go on with a value. -/
  indent : Nat := 0
  malformed : Bool := false

namespace Reading

def linesOf (r : Reading) (name : String) : Lines :=
  if name == defaultSection then r.defaults else (r.sections.lookup name).getD []

def change (r : Reading) (name : String) (f : Lines → Lines) : Reading :=
  if name == defaultSection then { r with defaults := f r.defaults }
  else { r with sections := r.sections.map fun s => if s.1 == name then (s.1, f s.2) else s }

def goOn (r : Reading) (line : String) : Reading :=
  match r.current, r.option with
  | some name, some option =>
    r.change name fun ls => ls.map fun l => if l.1 == option then (l.1, l.2 ++ [line]) else l
  | _, _ => r

def enter (r : Reading) (name : String) : Except IniFault Reading :=
  let here := { r with current := some name, option := none }
  if name == defaultSection then pure here
  else if r.sections.any (·.1 == name) then throw .duplicateSection
  else pure { here with sections := r.sections ++ [(name, [])] }

/-- Adds an option. An option without a name is taken but does not go on. -/
def add (r : Reading) (name option value : String) : Except IniFault Reading :=
  if (r.linesOf name).any (·.1 == option) then throw .duplicateOption
  else
    let r := r.change name fun ls => ls ++ [(option, [value])]
    if option == "" then pure { r with option := none, malformed := true }
    else pure { r with option := some option }

end Reading

def header? : List Char → Option String
  | '[' :: rest =>
    match (rest.reverse.dropWhile (· != ']')).drop 1 with
    | [] => none
    | name => some (String.ofList name.reverse)
  | _ => none

def option? (line : List Char) : Option (String × String) :=
  let name := line.takeWhile fun c => c != '=' && c != ':'
  match line.dropWhile fun c => c != '=' && c != ':' with
  | [] => none
  | _ :: value => some (Text.stripText (String.ofList name), Text.stripText (String.ofList value))

def isComment (line : List Char) : Bool := line.head? == some '#' || line.head? == some ';'

def readLine (r : Reading) (line : List Char) : Except IniFault Reading :=
  let value := Text.strip line
  let indent := (line.takeWhile Text.isBlank).length
  if isComment value then pure r
  else if value.isEmpty then pure (r.goOn "")
  else if r.option.isSome && indent > r.indent then pure (r.goOn (String.ofList value))
  else
    let r := { r with indent }
    match header? value, r.current, option? value with
    | some name, _, _ => r.enter name
    | none, none, _ => throw .noHeader
    | none, some name, some (option, value) => r.add name option value
    | none, some _, none => pure { r with malformed := true }

def readLines : Reading → List String → Reading × Option IniFault
  | r, [] => (r, if r.malformed then some .malformed else none)
  | r, line :: rest =>
    match readLine r line.toList with
    | .ok r => readLines r rest
    | .error f => (r, some f)

def join (ls : Lines) : Options :=
  ls.map fun l => (l.1, String.ofList (Text.stripRight ("\n".intercalate l.2).toList))

def read (text : String) : Ini × Option IniFault :=
  let (r, fault) := readLines {} (text.splitOn "\n")
  (⟨join r.defaults, r.sections.map fun s => (s.1, join s.2)⟩, fault)

/-! ## Values -/

/-- The names of the options of a section: its own and then the others that count in it. -/
def optionNames (i : Ini) (own : Options) : List String :=
  let names := own.map (·.1)
  names ++ (i.defaults.map (·.1)).filter fun n => !names.contains n

inductive Piece where
  | plain (c : Char)
  | reference (name : String)
  | malformed

/-- The parts of a value: `%%` is a percent sign and `%(name)s` the value of an option. The
number bounds how many there are. -/
def pieces : Nat → List Char → List Piece
  | 0, _ => []
  | _, [] => []
  | n + 1, '%' :: '%' :: rest => .plain '%' :: pieces n rest
  | n + 1, '%' :: '(' :: rest =>
    match rest.takeWhile (· != ')'), rest.dropWhile (· != ')') with
    | c :: name, ')' :: 's' :: rest => .reference (String.ofList (c :: name)) :: pieces n rest
    | _, _ => [.malformed]
  | _, '%' :: _ => [.malformed]
  | n + 1, c :: rest => .plain c :: pieces n rest

/-- A value with the values of the options that it refers to, these up to a depth. -/
def expand (value? : String → Option String) : Nat → String → Except IniFault String
  | 0, _ => throw .tooDeep
  | depth + 1, value => do
    let parts ← (pieces value.length value.toList).mapM fun
      | .plain c => pure (String.singleton c)
      | .malformed => throw .badReference
      | .reference name =>
        match value? name with
        | none => throw .missingReference
        | some v => if v.toList.contains '%' then expand value? depth v else pure v
    pure (String.join parts)

def referenceDepth : Nat := 10

def get (i : Ini) (name option : String) : Except IniFault String := do
  let own ← match i.sections.lookup name with
    | some own => pure own
    | none => if name == defaultSection then pure [] else throw .noSection
  let value? (o : String) : Option String := (own.lookup o).or (i.defaults.lookup o)
  match value? option with
  | none => throw .noOption
  | some v => expand value? referenceDepth v

end Ini
end CwlService.Settings
