import CwlService.Number.Binary64
import CwlService.Text.Basic
import CwlService.Text.CharClass

/-! # Reading numbers from texts -/
namespace CwlService.Number

def digitValue (c : Char) : Option Nat :=
  if '0' ≤ c && c ≤ '9' then some (c.toNat - 48)
  else if 'a' ≤ c && c ≤ 'f' then some (c.toNat - 87)
  else if 'A' ≤ c && c ≤ 'F' then some (c.toNat - 55)
  else none

/-- The number that digits write in a base, if there is a digit and all fit. -/
def natural? (base : Nat) (cs : List Char) : Option Nat :=
  match cs with
  | [] => none
  | _ => cs.foldl (fun acc c => do
      let n ← acc
      let d ← digitValue c
      if d < base then some (n * base + d) else none) (some 0)

def sign : List Char → Bool × List Char
  | '-' :: rest => (true, rest)
  | '+' :: rest => (false, rest)
  | cs => (false, cs)

/-- Characters without the single bars that stand between two digits; no other bar may. -/
def dropBars : List Char → Option (List Char)
  | [] => some []
  | ['_'] => none
  | c :: '_' :: d :: rest => if c.isDigit && d.isDigit then (dropBars (d :: rest)).map (c :: ·) else none
  | c :: rest => if c == '_' then none else (dropBars rest).map (c :: ·)

/-- The number of digits beyond which a text in base ten is not read as a number. -/
def maxDigits : Nat := 4300

/-- A whole number in base ten, with blanks around it, a sign, and bars between digits,
which may be of any script. -/
def integer? (s : String) : Option Int := do
  let (negative, digits) := sign ((Text.strip s.toList).map Text.plainDigit)
  let digits ← dropBars digits
  if digits.length > maxDigits then none
  else
    let n ← natural? 10 digits
    pure (if negative then -(n : Int) else n)

def baseMark : Nat → Option Char
  | 2 => some 'b'
  | 8 => some 'o'
  | 16 => some 'x'
  | _ => none

/-- A whole number in base two, eight or sixteen, with blanks around it, a sign and the mark
of its base, which it may have. -/
def integerIn? (base : Nat) (s : String) : Option Int := do
  let (negative, digits) := sign ((Text.strip s.toList).map Text.plainDigit)
  let digits := match digits with
    | '0' :: c :: rest => if baseMark base == some c.toLower then rest else digits
    | _ => digits
  let n ← natural? base digits
  pure (if negative then -(n : Int) else n)

def unsigned? (cs : List Char) : Option Binary64 :=
  let whole := cs.takeWhile Char.isDigit
  let rest := cs.dropWhile Char.isDigit
  let (fraction, rest) := match rest with
    | '.' :: f => (f.takeWhile Char.isDigit, f.dropWhile Char.isDigit)
    | _ => ([], rest)
  if whole.isEmpty && fraction.isEmpty then none
  else
    let exponent? : Option Int := match rest with
      | [] => some 0
      | e :: tail =>
        if e == 'e' || e == 'E' then
          let (negative, digits) := sign tail
          if digits.all Char.isDigit then
            (natural? 10 digits).map fun n => if negative then -(n : Int) else n
          else none
        else none
    exponent?.bind fun e =>
      (natural? 10 (whole ++ fraction)).map fun n => Binary64.ofDecimal n (e - fraction.length)

/-- A number in decimal writing with an optional sign, or a word for a number that has none. -/
def float? (s : String) : Option Binary64 :=
  let (negative, body) := sign ((Text.strip s.toList).map Text.plainDigit)
  let word := (String.ofList body).toLower
  let x? :=
    if word == "inf" || word == "infinity" then some Binary64.infinity
    else if word == "nan" then some Binary64.nan
    else (dropBars body).bind unsigned?
  x?.map fun x => if negative then x.neg else x

end CwlService.Number
