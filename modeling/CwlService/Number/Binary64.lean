/-! # Binary floating point numbers as words

A number is kept as the 64-bit word of its interchange form, so two numbers are equal exactly
when they are the same number, zero signs and all. `ofRatio` rounds a quotient to the nearest
such number, a tie going to the even one; it works on naturals only. -/
namespace CwlService

structure Binary64 where
  bits : UInt64
deriving DecidableEq, Inhabited, Repr

namespace Binary64

def isNegative (x : Binary64) : Bool := x.bits ≥ 0x8000000000000000

def exponentField (x : Binary64) : Nat := (x.bits.toNat / Nat.pow 2 52) % 2048

def fractionField (x : Binary64) : Nat := x.bits.toNat % Nat.pow 2 52

def isNaN (x : Binary64) : Bool := x.exponentField == 2047 && x.fractionField != 0

def isInfinite (x : Binary64) : Bool := x.exponentField == 2047 && x.fractionField == 0

/-- The pair `(m, q)` with `|x| = m * 2 ^ q`, for a finite `x`. -/
def magnitude (x : Binary64) : Nat × Int :=
  if x.exponentField = 0 then (x.fractionField, -1074)
  else (x.fractionField + Nat.pow 2 52, (x.exponentField : Int) - 1075)

def isZero (x : Binary64) : Bool := x.exponentField == 0 && x.fractionField == 0

def zero : Binary64 := ⟨0⟩

def infinity : Binary64 := ⟨0x7FF0000000000000⟩

def nan : Binary64 := ⟨0x7FF8000000000000⟩

def neg (x : Binary64) : Binary64 := ⟨x.bits ^^^ 0x8000000000000000⟩

/-- A quotient rounded to a natural, a half going to the even neighbour. -/
def roundQuotient (num den : Nat) : Nat :=
  let q := num / den
  let r := num % den
  if 2 * r < den then q
  else if 2 * r > den then q + 1
  else if q % 2 = 0 then q else q + 1

/-- The exponent `e` with `2 ^ e ≤ num / den < 2 ^ (e + 1)`, for positive operands. -/
def floorLog2 (num den : Nat) : Int :=
  let est : Int := (Nat.log2 num : Int) - Nat.log2 den
  if num * Nat.pow 2 (-est).toNat < den * Nat.pow 2 est.toNat then est - 1 else est

/-- The number nearest to `num / den`; too large a quotient gives infinity. -/
def ofRatio (num den : Nat) : Binary64 :=
  if num = 0 then zero
  else
    let q : Int := max (floorLog2 num den - 52) (-1074)
    let m := roundQuotient (num * Nat.pow 2 (-q).toNat) (den * Nat.pow 2 q.toNat)
    let word := (q + 1074).toNat * Nat.pow 2 52 + m
    if word ≥ 2047 * Nat.pow 2 52 then infinity else ⟨word.toUInt64⟩

def ofDecimal (digits : Nat) (exponent : Int) : Binary64 :=
  if digits = 0 then zero
  else if exponent > 400 then infinity
  else if exponent < -400 - (Nat.log2 digits : Int) then zero
  else ofRatio (digits * Nat.pow 10 exponent.toNat) (Nat.pow 10 (-exponent).toNat)

def ofInt (n : Int) : Binary64 :=
  if n < 0 then neg (ofRatio n.natAbs 1) else ofRatio n.natAbs 1

/-- The natural number `m * 2 ^ q`, if it is one. -/
def natural? (m : Nat) (q : Int) : Option Nat :=
  if q ≥ 0 then some (m * Nat.pow 2 q.toNat)
  else if m % Nat.pow 2 (-q).toNat = 0 then some (m / Nat.pow 2 (-q).toNat) else none

def toInt? (x : Binary64) : Option Int :=
  if x.exponentField = 2047 then none
  else (natural? x.magnitude.1 x.magnitude.2).map fun (n : Nat) =>
    if x.isNegative then -(n : Int) else (n : Int)

/-- Numeric equality: the zeros agree, and no number equals a NaN. -/
def same (x y : Binary64) : Bool :=
  !x.isNaN && !y.isNaN && (x.bits == y.bits || (x.isZero && y.isZero))

def toFloat (x : Binary64) : Float := Float.ofBits x.bits

def ofFloat (x : Float) : Binary64 := ⟨x.toBits⟩

end Binary64
end CwlService
