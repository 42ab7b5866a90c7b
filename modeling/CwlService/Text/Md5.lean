import CwlService.Text.Quoted

/-! # Fingerprints of texts

The MD5 sum of bytes, in hexadecimal. It gives a file name for any address. -/
namespace CwlService.Text.Md5

/-- The sines that the rounds add, as fractions of 2^32. -/
def sines : List UInt32 := [
  0xd76aa478, 0xe8c7b756, 0x242070db, 0xc1bdceee, 0xf57c0faf, 0x4787c62a, 0xa8304613, 0xfd469501,
  0x698098d8, 0x8b44f7af, 0xffff5bb1, 0x895cd7be, 0x6b901122, 0xfd987193, 0xa679438e, 0x49b40821,
  0xf61e2562, 0xc040b340, 0x265e5a51, 0xe9b6c7aa, 0xd62f105d, 0x02441453, 0xd8a1e681, 0xe7d3fbc8,
  0x21e1cde6, 0xc33707d6, 0xf4d50d87, 0x455a14ed, 0xa9e3e905, 0xfcefa3f8, 0x676f02d9, 0x8d2a4c8a,
  0xfffa3942, 0x8771f681, 0x6d9d6122, 0xfde5380c, 0xa4beea44, 0x4bdecfa9, 0xf6bb4b60, 0xbebfbc70,
  0x289b7ec6, 0xeaa127fa, 0xd4ef3085, 0x04881d05, 0xd9d4d039, 0xe6db99e5, 0x1fa27cf8, 0xc4ac5665,
  0xf4292244, 0x432aff97, 0xab9423a7, 0xfc93a039, 0x655b59c3, 0x8f0ccc92, 0xffeff47d, 0x85845dd1,
  0x6fa87e4f, 0xfe2ce6e0, 0xa3014314, 0x4e0811a1, 0xf7537e82, 0xbd3af235, 0x2ad7d2bb, 0xeb86d391]

/-- By how many bits the rounds turn; every four rounds of a quarter repeat them. -/
def turns : List (List UInt32) :=
  [[7, 12, 17, 22], [5, 9, 14, 20], [4, 11, 16, 23], [6, 10, 15, 21]]

structure Words where
  a : UInt32
  b : UInt32
  c : UInt32
  d : UInt32

def start : Words := ⟨0x67452301, 0xefcdab89, 0x98badcfe, 0x10325476⟩

def turnLeft (x n : UInt32) : UInt32 := (x <<< n) ||| (x >>> (32 - n))

def word (bytes : List UInt8) : UInt32 := bytes.foldr (fun b w => w * 256 + b.toUInt32) 0

def lowBytes : Nat → Nat → List UInt8
  | 0, _ => []
  | n + 1, x => x.toUInt8 :: lowBytes n (x / 256)

/-- The mixture of three words in a round, and which word of the block it takes. -/
def mixture (round : Nat) (w : Words) : UInt32 × Nat :=
  if round < 16 then ((w.b &&& w.c) ||| (~~~w.b &&& w.d), round)
  else if round < 32 then ((w.d &&& w.b) ||| (~~~w.d &&& w.c), (5 * round + 1) % 16)
  else if round < 48 then (w.b ^^^ w.c ^^^ w.d, (3 * round + 5) % 16)
  else (w.c ^^^ (w.b ||| ~~~w.d), (7 * round) % 16)

def stir (block : List UInt32) (w : Words) (round : Nat) : Words :=
  let (f, g) := mixture round w
  let sum := f + w.a + sines.getD round 0 + block.getD g 0
  let turn := (turns.getD (round / 16) []).getD (round % 4) 0
  ⟨w.d, w.b + turnLeft sum turn, w.b, w.c⟩

def addBlock (w : Words) (block : List UInt32) : Words :=
  let r := (List.range 64).foldl (stir block) w
  ⟨w.a + r.a, w.b + r.b, w.c + r.c, w.d + r.d⟩

/-- The bytes with what fills them up: a bit, zeros, and the number of bits. -/
def filled (bytes : List UInt8) : List UInt8 :=
  let zeros := (119 - bytes.length % 64) % 64
  bytes ++ 0x80 :: List.replicate zeros 0 ++ lowBytes 8 (8 * bytes.length)

def pieces {α : Type} (length : Nat) : Nat → List α → List (List α)
  | 0, _ => []
  | n + 1, l => l.take length :: pieces length n (l.drop length)

def sum (bytes : List UInt8) : Words :=
  let all := filled bytes
  let blocks := (pieces 64 (all.length / 64) all).map fun b => (pieces 4 16 b).map word
  blocks.foldl addBlock start

def ofText (s : String) : String :=
  let w := sum (bytes s)
  String.ofList ([w.a, w.b, w.c, w.d].flatMap fun x =>
    (lowBytes 4 x.toNat).flatMap fun b => hexDigits 2 b.toNat)

end CwlService.Text.Md5
