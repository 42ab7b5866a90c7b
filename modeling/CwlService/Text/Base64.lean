/-! # Base 64

A padded group ends the data. Reading skips characters outside the alphabet. -/
namespace CwlService.Text

def base64Value (c : Char) : Option Nat :=
  if 'A' ≤ c && c ≤ 'Z' then some (c.toNat - 65)
  else if 'a' ≤ c && c ≤ 'z' then some (c.toNat - 71)
  else if '0' ≤ c && c ≤ '9' then some (c.toNat + 4)
  else if c == '+' then some 62
  else if c == '/' then some 63
  else none

/-- Reads letters four at a time; `group` holds the letters of the open group and `pads` the
padding seen in it. -/
def base64Loop : List Char → (group : List Nat) → (pads : Nat) → List UInt8 → Option (List UInt8)
  | [], group, _, acc => if group.isEmpty then some acc.reverse else none
  | c :: rest, group, pads, acc =>
    if c == '=' then
      match group with
      | [a, b] =>
        if pads ≥ 1 then some ((a * 4 + b / 16).toUInt8 :: acc).reverse
        else base64Loop rest group (pads + 1) acc
      | [a, b, d] =>
        some ((b % 16 * 16 + d / 4).toUInt8 :: (a * 4 + b / 16).toUInt8 :: acc).reverse
      | _ => base64Loop rest group pads acc
    else
      match base64Value c with
      | none => base64Loop rest group pads acc
      | some v =>
        match group with
        | [a, b, d] =>
          base64Loop rest [] 0 ((d % 4 * 64 + v).toUInt8 :: (b % 16 * 16 + d / 4).toUInt8 ::
            (a * 4 + b / 16).toUInt8 :: acc)
        | _ => base64Loop rest (group ++ [v]) 0 acc

def base64? (s : String) : Option (List UInt8) := base64Loop s.toList [] 0 []

def base64Letter (n : Nat) : Char :=
  if n < 26 then Char.ofNat (n + 65)
  else if n < 52 then Char.ofNat (n + 71)
  else if n < 62 then Char.ofNat (n - 4)
  else if n == 62 then '+' else '/'

def base64Letters : List UInt8 → List Char
  | [] => []
  | [a] => [base64Letter (a.toNat / 4), base64Letter (a.toNat % 4 * 16), '=', '=']
  | [a, b] =>
    [base64Letter (a.toNat / 4), base64Letter (a.toNat % 4 * 16 + b.toNat / 16),
      base64Letter (b.toNat % 16 * 4), '=']
  | a :: b :: c :: rest =>
    base64Letter (a.toNat / 4) :: base64Letter (a.toNat % 4 * 16 + b.toNat / 16) ::
      base64Letter (b.toNat % 16 * 4 + c.toNat / 64) :: base64Letter (c.toNat % 64) ::
      base64Letters rest

/-- Ends a line after every `width` characters and at the end; `room` is what is left of the
current line. -/
def foldLines (width : Nat) : Nat → List Char → List Char
  | _, [] => ['\n']
  | 0, c :: rest => '\n' :: c :: foldLines width (width - 1) rest
  | room + 1, c :: rest => c :: foldLines width room rest

/-- Bytes in base 64, in lines of 76 letters; no bytes have no line. -/
def base64Text (bs : List UInt8) : String :=
  if bs.isEmpty then "" else String.ofList (foldLines 76 76 (base64Letters bs))

end CwlService.Text
