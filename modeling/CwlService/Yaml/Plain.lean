import CwlService.Yaml.Problem

/-! # What a plain scalar means

The older version of the language has more truth values and more ways to write numbers. -/
namespace CwlService.Yaml

inductive Tag where
  | null
  | bool
  | int
  | float
  | binary
  | timestamp
  | omap
  | pairs
  | set
  | str
  | seq
  | map
  | merge
  | value
  | custom (uri : String)
deriving DecidableEq, Repr, Inhabited

namespace Tag

def named : List (String × Tag) :=
  [("null", .null), ("bool", .bool), ("int", .int), ("float", .float), ("binary", .binary),
   ("timestamp", .timestamp), ("omap", .omap), ("pairs", .pairs), ("set", .set), ("str", .str),
   ("seq", .seq), ("map", .map)]

def home : String := "tag:yaml.org,2002:"

def ofUri (uri : String) : Tag :=
  if uri.startsWith home then
    match named.lookup (uri.drop home.length).toString with
    | some t => t
    | none =>
      if uri == home ++ "merge" then .merge
      else if uri == home ++ "value" then .value
      else .custom uri
  else .custom uri

def uri : Tag → String
  | .merge => home ++ "merge"
  | .value => home ++ "value"
  | .custom uri => uri
  | t => home ++ ((named.find? fun e => e.2 == t).map (·.1)).getD ""

end Tag

namespace Plain

def isDigits (cs : List Char) : Bool := !cs.isEmpty && cs.all Char.isDigit

def isDigitOrBar (c : Char) : Bool := c.isDigit || c == '_'

def unsigned : List Char → List Char
  | '-' :: rest => rest
  | '+' :: rest => rest
  | cs => cs

def isWhole : List Char → Bool
  | [] => false
  | c :: rest => c.isDigit && rest.all isDigitOrBar

def isExponent (signNeeded optional : Bool) : List Char → Bool
  | [] => optional
  | e :: rest =>
    (e == 'e' || e == 'E') &&
      match rest with
      | s :: digits => if s == '-' || s == '+' then isDigits digits else !signNeeded && isDigits rest
      | [] => false

def isInfinity (cs : List Char) : Bool :=
  cs == ".inf".toList || cs == ".Inf".toList || cs == ".INF".toList

def isNaN (cs : List Char) : Bool :=
  cs == ".nan".toList || cs == ".NaN".toList || cs == ".NAN".toList

/-- Groups of sixty after the first number: `:` and one or two digits, the first below six. -/
def isSixties : List Char → Bool
  | [] => true
  | ':' :: a :: b :: rest =>
    if b.isDigit then '0' ≤ a && a ≤ '5' && isSixties rest
    else a.isDigit && isSixties (b :: rest)
  | [':', a] => a.isDigit
  | _ => false

def isFloat (old : Bool) (cs : List Char) : Bool :=
  let body := unsigned cs
  let whole := body.takeWhile isDigitOrBar
  let rest := body.dropWhile isDigitOrBar
  let fraction := match rest with
    | '.' :: f => isExponent false true (f.dropWhile isDigitOrBar)
    | _ => false
  (isWhole whole && (fraction || (!rest.isEmpty && isExponent false false rest))) ||
    (match (if old then cs else body) with
      | '.' :: f =>
        !(f.takeWhile isDigitOrBar).isEmpty && isExponent true true (f.dropWhile isDigitOrBar)
      | _ => false) ||
    (old && isWhole whole && rest.head? == some ':' &&
      (let groups := rest.takeWhile (· != '.')
       isSixties groups &&
        match rest.dropWhile (· != '.') with
        | '.' :: f => f.all isDigitOrBar
        | _ => false)) ||
    isInfinity body || isNaN cs

def isHexOrBar (c : Char) : Bool :=
  c.isDigit || c == '_' || ('a' ≤ c && c ≤ 'f') || ('A' ≤ c && c ≤ 'F')

def isOctalOrBar (c : Char) : Bool := ('0' ≤ c && c ≤ '7') || c == '_'

def someAll (p : Char → Bool) (cs : List Char) : Bool := !cs.isEmpty && cs.all p

/-- A whole number, in base ten or with a base mark. A bar cannot stand first. -/
def isInt (old : Bool) (cs : List Char) : Bool :=
  let body := unsigned cs
  cs.head? != some '_' &&
  ((match body with
    | '0' :: 'b' :: rest => someAll (fun c => c == '0' || c == '1' || c == '_') rest
    | _ => false) ||
  (match body with
    | '0' :: 'x' :: rest => someAll isHexOrBar rest
    | _ => false) ||
  (if old then
    someAll isOctalOrBar body ||
    (match body with
      | ['0'] => true
      | c :: rest =>
        c.isDigit && c != '0' &&
          (rest.all isDigitOrBar ||
            (let tail := rest.dropWhile isDigitOrBar
             tail.head? == some ':' && isSixties tail))
      | [] => false)
  else
    (match body with
      | '0' :: 'o' :: rest => someAll isOctalOrBar rest
      | _ => false) ||
    someAll isDigitOrBar body))

def isBool (old : Bool) (s : String) : Bool :=
  ["true", "True", "TRUE", "false", "False", "FALSE"].contains s ||
    (old && ["y", "Y", "yes", "Yes", "YES", "n", "N", "no", "No", "NO",
      "on", "On", "ON", "off", "Off", "OFF"].contains s)

def isNull (s : String) : Bool := ["", "~", "null", "Null", "NULL"].contains s

structure TimeParts where
  year : String
  month : String
  day : String
  letter : Bool := false
  hour : String := ""
  minute : String := ""
  second : String := ""
  fraction : String := ""
  zone : String := ""
  zoneSign : Option Char := none
  zoneHour : String := ""
  zoneMinute : String := ""

def upToTwo (cs : List Char) : List Char × List Char :=
  let run := (cs.take 2).takeWhile Char.isDigit
  (run, cs.drop run.length)

def zone? (t : TimeParts) (cs : List Char) : Option TimeParts :=
  match cs with
  | [] => some t
  | _ =>
    match cs.dropWhile fun c => c == ' ' || c == '\t' with
    | ['Z'] => some { t with zone := "Z" }
    | sign :: rest =>
      if sign == '-' || sign == '+' then
        let (h, rest) := upToTwo rest
        if h.isEmpty then none
        else
          let t := { t with zoneSign := some sign, zoneHour := String.ofList h }
          match rest with
          | [] => some { t with zone := String.ofList (sign :: h) }
          | [':', a, b] =>
            if a.isDigit && b.isDigit then
              some { t with zone := String.ofList (sign :: h ++ [':', a, b]),
                            zoneMinute := String.ofList [a, b] }
            else none
          | _ => none
      else none
    | [] => none

def timeOfDay? (t : TimeParts) (cs : List Char) : Option TimeParts :=
  let (h, rest) := upToTwo cs
  if h.isEmpty then none
  else
    match rest with
    | ':' :: a :: b :: ':' :: c :: d :: rest =>
      if a.isDigit && b.isDigit && c.isDigit && d.isDigit then
        let t := { t with hour := String.ofList h, minute := String.ofList [a, b],
                          second := String.ofList [c, d] }
        match rest with
        | '.' :: f =>
          zone? { t with fraction := String.ofList (f.takeWhile Char.isDigit) } (f.dropWhile Char.isDigit)
        | _ => zone? t rest
      else none
    | _ => none

/-- Reads a date or a moment. `loose` allows a date with single digits. -/
def timeParts? (loose : Bool) (cs : List Char) : Option TimeParts :=
  match cs with
  | a :: b :: c :: d :: '-' :: rest =>
    if a.isDigit && b.isDigit && c.isDigit && d.isDigit then
      let (m, rest) := upToTwo rest
      match rest with
      | '-' :: rest =>
        let (dd, rest) := upToTwo rest
        if m.isEmpty || dd.isEmpty then none
        else
          let t : TimeParts :=
            { year := String.ofList [a, b, c, d], month := String.ofList m, day := String.ofList dd }
          match rest with
          | [] => if loose || (m.length == 2 && dd.length == 2) then some t else none
          | c :: rest =>
            if c == 'T' || c == 't' then timeOfDay? { t with letter := true } rest
            else if c == ' ' || c == '\t' then
              timeOfDay? t (rest.dropWhile fun c => c == ' ' || c == '\t')
            else none
      | _ => none
    else none
  | _ => none

def withoutLastBreak (s : String) : String :=
  if s.endsWith "\n" then (s.dropEnd 1).toString else s

/-- The tag of a plain scalar. A line break at the end does not count, unless there is
nothing else. -/
def resolve (old : Bool) (s : String) : Tag :=
  let word := withoutLastBreak s
  let cs := word.toList
  if word.isEmpty && !s.isEmpty then .str
  else if isNull word then .null
  else if isBool old word then .bool
  else if word == "<<" then .merge
  else if word == "=" then .value
  else if word == "!" || word == "&" || word == "*" then .custom (Tag.home ++ "yaml")
  else if isFloat old cs then .float
  else if isInt old cs then .int
  else if (timeParts? false cs).isSome then .timestamp
  else .str

end Plain
end CwlService.Yaml
