import CwlService.Node.Basic
import CwlService.Number.Reading
import CwlService.Text.Base64
import CwlService.Yaml.Plain
import CwlService.Yaml.Scalars

/-! # The data of scalars

Scalars of *marked* data remember that they were written in a way of their own. -/
namespace CwlService.Yaml

/-- How scalars are read: with places and ways of writing or without, and in which version. -/
structure Mode where
  marked : Bool
  version : Version
deriving Repr, Inhabited

namespace ScalarData

def truthWords : List (String × Bool) :=
  [("yes", true), ("no", false), ("y", true), ("n", false), ("true", true), ("false", false),
   ("on", true), ("off", false)]

def orBad : Option α → Except Failure α
  | some a => .ok a
  | none => .error .badScalar

/-! ## Whole numbers -/

def sixties? (s : String) : Option Int :=
  (s.splitOn ":").foldl (fun acc part => do
    let n ← acc
    let d ← Number.integer? part
    pure (n * 60 + d)) (some 0)

def markedBase? : List Char → Option (Nat × List Char)
  | '0' :: 'b' :: digits => some (2, digits)
  | '0' :: 'x' :: digits => some (16, digits)
  | '0' :: 'o' :: digits => some (8, digits)
  | _ => none

/-- A whole number without its sign: its value, and whether its writing is of its own.
`barred` says that bars stand between its digits. -/
def unsignedWhole (mode : Mode) (anchored barred : Bool) (body : List Char) :
    Except Failure (Int × Bool) := do
  let sixty := mode.version != .latest
  if body == ['0'] then return (0, false)
  match markedBase? body with
  | some (base, digits) =>
    if mode.marked && mode.version.isAfterOlder && digits.isEmpty then throw .emptyScalar
    return (← orBad (Number.integerIn? base (String.ofList digits)), true)
  | none =>
    let text := String.ofList body
    if body.isEmpty && (sixty || mode.marked) then throw .emptyScalar
    if sixty && body.head? == some '0' then return (← orBad (Number.integerIn? 8 text), false)
    if sixty && body.contains ':' then return (← orBad (sixties? text), false)
    return (← orBad (Number.integer? text), body.head? == some '0' || barred || anchored)

def wholeNumber (mode : Mode) (anchored : Bool) (text : String) : Except Failure (Int × Bool) := do
  let cs := text.toList.filter (· != '_')
  let barred := (text.toList.reverse.dropWhile (· == '_')).contains '_'
  if cs.isEmpty then throw .emptyScalar
  let (negative, body) := Number.sign cs
  let (n, styled) ← unsignedWhole mode anchored barred body
  return (if negative then -n else n, mode.marked && styled)

/-! ## Numbers with a fraction -/

def fractionSixties? (s : String) : Option Binary64 := do
  let parts ← (s.splitOn ":").mapM Number.float?
  let (sum, _) := parts.reverse.foldl (fun (sum, base) part =>
    (sum + part.toFloat * base, base * 60)) ((0.0 : Float), (1.0 : Float))
  pure (.ofFloat sum)

/-- Why the writing of a number with a fraction is not one that can be remembered. -/
def fractionProblem? (text : String) (lower : List Char) : Option Failure :=
  if lower.contains 'e' then
    let split (letter : String) : Option String := match text.splitOn letter with
      | [_, exponent] => some exponent
      | _ => none
    match (split "e").orElse fun _ => split "E" with
    | none => some .badScalar
    | some exponent => if exponent.isEmpty then some .emptyScalar else none
  else if text.toList.contains '.' then none else some .badScalar

def fractionNumber (mode : Mode) (text : String) : Except Failure (Binary64 × Bool) := do
  let cs := (text.toList.filter (· != '_')).map Char.toLower
  if cs.isEmpty then throw .emptyScalar
  let (negative, body) := Number.sign cs
  let signed := fun (x : Binary64) => if negative then x.neg else x
  if body == ".inf".toList then return (signed .infinity, false)
  if body == ".nan".toList then return (.nan, false)
  if mode.version != .latest && body.contains ':' then
    return (signed (← orBad (fractionSixties? (String.ofList body))), false)
  if mode.marked then
    if let some failure := fractionProblem? text body then throw failure
  return (signed (← orBad (Number.float? (String.ofList body))), mode.marked)

/-! ## Dates and moments -/

/-- The fraction of a second in microseconds; a million stands for the next second. -/
def micros (fraction : List Char) : Nat :=
  let six := fraction.take 6
  let padded := six ++ List.replicate (6 - six.length) '0'
  let n := (Number.natural? 10 padded).getD 0
  match fraction[6]? with
  | some c => if c ≥ '5' then n + 1 else n
  | none => n

def natOf (s : String) : Nat := (Number.natural? 10 s.toList).getD 0

/-- By how many seconds the written time is ahead of universal time. -/
def zoneShift (t : Plain.TimeParts) (carried : Bool) : Int :=
  match t.zoneSign with
  | none => if carried then -1 else 0
  | some sign =>
    let s : Int := natOf t.zoneHour * 3600 + natOf t.zoneMinute * 60 + (if carried then 1 else 0)
    if sign == '-' then -s else s

/-- A date or a moment. A zone is applied, so that the moment is in universal time. -/
def moment (marked : Bool) (text : String) : Except Failure Node := do
  let some t := Plain.timeParts? true (Plain.withoutLastBreak text).toList | throw .wrongShape
  let d ← orBad (Date.make? (natOf t.year) (natOf t.month) (natOf t.day))
  if t.hour.isEmpty then return .date d none
  let frac := if t.fraction.isEmpty then 0 else micros t.fraction.toList
  let carried := frac > 999999
  let m ← orBad (Moment.make? d (natOf t.hour) (natOf t.minute) (natOf t.second)
    (if carried then 0 else frac))
  match m.addSeconds? (-zoneShift t carried) with
  | none => throw .outOfRange
  | some m => return .moment m (marked && (t.letter || t.zoneSign.isSome)) none

/-! ## Scalars -/

def binary (text : String) : Except Failure Node :=
  if text.toList.any fun c => c.toNat ≥ 128 then .error .wrongShape
  else
    match Text.base64? text with
    | some bs => .ok (.bytes bs)
    | none => .error .wrongShape

/-- A truth value; an anchored one of marked data is a number. -/
def truth (mode : Mode) (anchored : Bool) (text : String) : Except Failure Node :=
  let word := Text.lower text
  match truthWords.lookup word with
  | some b => .ok (if mode.marked && anchored then .int (if b then 1 else 0) true else .bool b)
  | none => .error (.unknownWord word)

/-- The data of a scalar. `raw` has the marks of folded lines, if there are any. -/
def ofText (mode : Mode) (anchored : Bool) (tag : Tag) (style : ScalarStyle) (raw : String) :
    Except Failure Node :=
  let text := if mode.marked && style == .folded then withoutFolds raw else raw
  match tag with
  | .null => .ok .null
  | .bool => truth mode anchored text
  | .int => (wholeNumber mode anchored text).map fun (n, styled) => .int n styled
  | .float => (fractionNumber mode text).map fun (x, styled) => .float x styled
  | .binary => binary text
  | .timestamp => moment mode.marked raw
  | .str => .ok (.text text (mode.marked && (anchored || style == .literal || style == .folded)))
  | _ => if mode.marked then .ok (.tagged text) else .error .wrongShape

end ScalarData
end CwlService.Yaml
