/-! # Bytes of texts

A reader that must not fail puts one replacement character for every longest start of a
character that does not go on as it should. -/
namespace CwlService.Text

def charBytes (c : Char) : List UInt8 :=
  let n := c.toNat
  if n < 0x80 then [n.toUInt8]
  else if n < 0x800 then [(0xC0 + n / 64).toUInt8, (0x80 + n % 64).toUInt8]
  else if n < 0x10000 then
    [(0xE0 + n / 4096).toUInt8, (0x80 + n / 64 % 64).toUInt8, (0x80 + n % 64).toUInt8]
  else
    [(0xF0 + n / 262144).toUInt8, (0x80 + n / 4096 % 64).toUInt8, (0x80 + n / 64 % 64).toUInt8,
      (0x80 + n % 64).toUInt8]

def bytes (s : String) : List UInt8 := s.toList.flatMap charBytes

/-- The range of the second byte after a first one, and how many bytes follow the first. -/
def follow (b : Nat) : Option (Nat × Nat × Nat) :=
  if 0xC2 ≤ b && b ≤ 0xDF then some (0x80, 0xBF, 1)
  else if b == 0xE0 then some (0xA0, 0xBF, 2)
  else if b == 0xED then some (0x80, 0x9F, 2)
  else if 0xE1 ≤ b && b ≤ 0xEF then some (0x80, 0xBF, 2)
  else if b == 0xF0 then some (0x90, 0xBF, 3)
  else if 0xF1 ≤ b && b ≤ 0xF3 then some (0x80, 0xBF, 3)
  else if b == 0xF4 then some (0x80, 0x8F, 3)
  else none

/-- A character that has begun: its value so far, the bytes still to come, and the range of
the next one. -/
structure Begun where
  value : Nat
  left : Nat
  low : Nat
  high : Nat

def startByte (b : UInt8) : Char ⊕ Option Begun :=
  let n := b.toNat
  if n < 0x80 then .inl (Char.ofNat n)
  else
    .inr <| (follow n).map fun (low, high, left) =>
      ⟨if left == 1 then n - 0xC0 else if left == 2 then n - 0xE0 else n - 0xF0, left, low, high⟩

def replacement : Char := '\ufffd'

/-- Reads bytes; every fault becomes a replacement character and is counted. -/
def decodeFrom : Option Begun → List UInt8 → List (Option Char)
  | none, [] => []
  | some _, [] => [none]
  | none, b :: rest =>
    match startByte b with
    | .inl c => some c :: decodeFrom none rest
    | .inr none => none :: decodeFrom none rest
    | .inr begun => decodeFrom begun rest
  | some g, b :: rest =>
    let n := b.toNat
    if g.low ≤ n && n ≤ g.high then
      let value := g.value * 64 + (n - 0x80)
      if g.left ≤ 1 then some (Char.ofNat value) :: decodeFrom none rest
      else decodeFrom (some ⟨value, g.left - 1, 0x80, 0xBF⟩) rest
    else
      match startByte b with
      | .inl c => none :: some c :: decodeFrom none rest
      | .inr none => none :: none :: decodeFrom none rest
      | .inr begun => none :: decodeFrom begun rest

def ofBytes? (bs : List UInt8) : Option String :=
  ((decodeFrom none bs).mapM id).map String.ofList

def ofBytes (bs : List UInt8) : String :=
  String.ofList ((decodeFrom none bs).map (·.getD replacement))

/-! ## Where bytes stop being a text -/

inductive ByteProblem where
  | start
  | continuation
  | cut
deriving DecidableEq, Repr

structure ByteFault where
  first : UInt8
  start : Nat
  stop : Nat
  problem : ByteProblem
deriving DecidableEq, Repr

/-- The first fault; `begun` is a character that has begun, with its first byte and its position. -/
def faultFrom : Nat → Option (Begun × UInt8 × Nat) → List UInt8 → Option ByteFault
  | _, none, [] => none
  | i, some (_, first, start), [] => some ⟨first, start, i, .cut⟩
  | i, none, b :: rest =>
    match startByte b with
    | .inl _ => faultFrom (i + 1) none rest
    | .inr none => some ⟨b, i, i + 1, .start⟩
    | .inr (some g) => faultFrom (i + 1) (some (g, b, i)) rest
  | i, some (g, first, start), b :: rest =>
    if g.low ≤ b.toNat && b.toNat ≤ g.high then
      if g.left ≤ 1 then faultFrom (i + 1) none rest
      else faultFrom (i + 1) (some (⟨0, g.left - 1, 0x80, 0xBF⟩, first, start)) rest
    else some ⟨first, start, i, .continuation⟩

def byteFault? (bs : List UInt8) : Option ByteFault := faultFrom 0 none bs

/-! ## Halves of surrogate pairs

A half is no character, yet a text may hold it. It is kept as a private character of the last
plane, and shows as the half again where it is escaped. Any other choice of characters that no text
holds would do, and where a text has no halves none is needed. -/

/-- Which characters stand for halves. -/
abbrev Halves := Char → Option Nat

def halfShift : Nat := 0x102000

def ofHalf (unit : Nat) : Char := Char.ofNat (unit + halfShift)

def half? (c : Char) : Option Nat :=
  if 0xD800 + halfShift ≤ c.toNat then some (c.toNat - halfShift) else none

def isHalf (n : Nat) : Bool := 0xD800 ≤ n && n ≤ 0xDFFF

def charOf (n : Nat) : Char := if isHalf n then ofHalf n else Char.ofNat n

def codeOf (c : Char) : Nat := (half? c).getD c.toNat

/-- A text in which two halves that make a pair are the character of the pair. -/
def joinHalves : List Char → List Char
  | [] => []
  | a :: rest =>
    match half? a, joinHalves rest with
    | some high, b :: more =>
      match half? b with
      | some low =>
        if high < 0xDC00 && 0xDC00 ≤ low then
          Char.ofNat (0x10000 + (high - 0xD800) * 0x400 + (low - 0xDC00)) :: more
        else a :: b :: more
      | none => a :: b :: more
    | _, more => a :: more

def isBeyond (c : Char) : Bool := 0x10000 ≤ c.toNat

/-! ## Texts of files

Bytes that are no text stand for themselves: those of ASCII as characters, the others as halves
of surrogate pairs, which no text of a file has otherwise. -/

def byteShift : Nat := 0xDC00

def ofLoneByte (b : UInt8) : Char :=
  if b < 0x80 then Char.ofNat b.toNat else ofHalf (byteShift + b.toNat)

def ofFile (bs : List UInt8) : String := (ofBytes? bs).getD (String.ofList (bs.map ofLoneByte))

def fileBytes (halves : Halves) (s : String) : List UInt8 :=
  s.toList.flatMap fun c =>
    match halves c with
    | some n => [(n - byteShift).toUInt8]
    | none => charBytes c

def isReadable (s : String) : Bool := !s.toList.any fun c => (half? c).isSome

/-- Bytes with others over them from a position on. A gap before the position holds zeros. -/
def overlay (bs : List UInt8) (position : Nat) (added : List UInt8) : List UInt8 :=
  bs.take position ++ List.replicate (position - bs.length) 0 ++ added ++ bs.drop (position + added.length)

end CwlService.Text
