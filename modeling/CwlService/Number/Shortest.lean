import CwlService.Number.Binary64

/-! # The fewest decimal digits that read back

A finite number stands for an interval of reals: those nearer to it than to its neighbours, the
ends included when its last bit is even. `shortest` finds the first decimal grid with a point
in that interval and takes the point nearest to the number. Seventeen digits always suffice. -/
namespace CwlService

structure Decimal where
  digits : Nat
  exponent : Int
deriving DecidableEq, Repr

namespace Decimal

def digitCount (n : Nat) : Nat := (Nat.toDigits 10 n).length

/-- The exponent `e` with `10 ^ e ≤ num / den < 10 ^ (e + 1)`, for positive operands. -/
def floorLog10 (num den : Nat) : Int :=
  let est : Int := (digitCount num : Int) - digitCount den
  if num * Nat.pow 10 (-est).toNat < den * Nat.pow 10 est.toNat then est - 1 else est

/-- Tries the grids with `k`, `k + 1`, … digits, at most `fuel` of them. The number is
`num / den`, its interval reaches `below / den` down and `above / den` up. -/
def search (num den below above : Nat) (closed : Bool) (top : Int) : Nat → Nat → Decimal
  | k, 0 => ⟨num / den, k⟩
  | k, fuel + 1 =>
    let e : Int := top - k + 1
    -- The grid step is `10 ^ e`; compare everything over the common denominator.
    let up := Nat.pow 10 e.toNat
    let down := Nat.pow 10 (-e).toNat
    let lo := num * down / (den * up)
    let under := lo * (den * up)
    let beyond := under + den * up
    let target := num * down
    let fitsUnder := lo > 0 && (if closed then target ≤ under + below * down
      else target < under + below * down)
    let fitsOver := if closed then beyond ≤ target + above * down else beyond < target + above * down
    if fitsUnder && fitsOver then
      if 2 * target < under + beyond || (2 * target = under + beyond && lo % 2 = 0) then ⟨lo, e⟩
      else ⟨lo + 1, e⟩
    else if fitsUnder then ⟨lo, e⟩
    else if fitsOver then ⟨lo + 1, e⟩
    else search num den below above closed top (k + 1) fuel

def trim : Nat → Decimal → Decimal
  | 0, d => d
  | fuel + 1, d =>
    if d.digits ≠ 0 ∧ d.digits % 10 = 0 then trim fuel ⟨d.digits / 10, d.exponent + 1⟩ else d

def shortest (x : Binary64) : Decimal :=
  let (m, q) := x.magnitude
  if m = 0 then ⟨0, 0⟩
  else
    -- Units of a quarter of the last place, so that half gaps are whole.
    let scale := Nat.pow 2 (q - 2).toNat
    let den := Nat.pow 2 (2 - q).toNat
    let num := 4 * m * scale
    let below := (if m = Nat.pow 2 52 ∧ q > -1074 then 1 else 2) * scale
    let above := 2 * scale
    trim 20 (search num den below above (m % 2 == 0) (floorLog10 num den) 1 20)

end Decimal

/-- What a number's text looks like beyond its digits. -/
structure DecimalFormat where
  /-- Least power of ten of the first digit that is written positionally. -/
  positionalFrom : Int
  /-- First power of ten that is written with an exponent. -/
  positionalTo : Int
  keepPoint : Bool
  exponentWidth : Nat
  infinity : String
  nan : String

namespace DecimalFormat

/-- How document values show: `2.5`, `1e+16`, `1e-05`, `inf`. -/
def document : DecimalFormat := ⟨-4, 16, true, 2, "inf", "nan"⟩

/-- How scripts show numbers: `2.5`, `1e+21`, `1e-7`, `Infinity`. -/
def script : DecimalFormat := ⟨-6, 21, false, 1, "Infinity", "NaN"⟩

def digitsText (n : Nat) : String := String.ofList (Nat.toDigits 10 n)

def zeros (n : Nat) : String := String.ofList (List.replicate n '0')

def decimal (f : DecimalFormat) (d : Decimal) : String :=
  let ds := digitsText d.digits
  let n := ds.length
  let top : Int := d.exponent + n - 1
  if f.positionalFrom ≤ top ∧ top < f.positionalTo then
    if d.exponent ≥ 0 then
      ds ++ zeros d.exponent.toNat ++ (if f.keepPoint then ".0" else "")
    else if top ≥ 0 then
      let whole := (top + 1).toNat
      String.ofList (ds.toList.take whole) ++ "." ++ String.ofList (ds.toList.drop whole)
    else "0." ++ zeros (-top - 1).toNat ++ ds
  else
    let mantissa := match ds.toList with
      | [] => ""
      | [c] => String.ofList [c]
      | c :: cs => String.ofList (c :: '.' :: cs)
    let e := digitsText top.natAbs
    mantissa ++ "e" ++ (if top < 0 then "-" else "+") ++ zeros (f.exponentWidth - e.length) ++ e

def text (f : DecimalFormat) (x : Binary64) : String :=
  if x.isNaN then f.nan
  else
    let body :=
      if x.isInfinite then f.infinity
      else if x.isZero then (if f.keepPoint then "0.0" else "0")
      else f.decimal (Decimal.shortest x)
    if x.isNegative then "-" ++ body else body

end DecimalFormat
end CwlService
