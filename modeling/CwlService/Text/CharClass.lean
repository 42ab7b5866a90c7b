/-! # Classes of characters

A class is given by the sorted code points at which membership changes, starting outside. A
character belongs to it when an odd number of boundaries are at or below it. -/
namespace CwlService

structure CharClass where
  bounds : Array Nat

namespace CharClass

/-- The class of which runs of characters are outside and inside in turn, by their lengths. -/
def ofRuns (lengths : List Nat) : CharClass := ⟨(lengths.scanl (· + ·) 0).tail.toArray⟩

/-- The number of boundaries among `[lo, hi)` at or below `c`, plus `lo`. -/
def rank (t : CharClass) (c : Nat) (lo hi : Nat) : Nat :=
  if h : lo < hi then
    let mid := (lo + hi) / 2
    if t.bounds.getD mid 0 ≤ c then rank t c (mid + 1) hi else rank t c lo mid
  else lo
termination_by hi - lo

def contains (t : CharClass) (c : Char) : Bool :=
  t.rank c.toNat 0 t.bounds.size % 2 == 1

end CharClass
end CwlService

/-! ## Word characters

Letters, digits, other numerals and the underscore, in every script. -/
namespace CwlService.Text

def wordChars : CharClass := .ofRuns [
  48,10,7,26,4,1,1,26,47,1,7,2,1,1,3,2,1,3,1,23,1,31,1,458,4,12,14,5,7,1,1,1,129,5,1,2,2,4,1,1,6,1,1,3,1,1,1,20,1,83,
  1,139,8,166,1,38,2,1,6,41,71,27,4,4,45,43,21,10,4,2,1,99,1,1,15,2,7,15,2,1,16,1,1,30,29,89,11,1,14,43,9,2,4,1,5,22,
  4,1,9,1,3,1,23,25,7,11,5,24,1,6,17,42,58,54,3,1,18,1,7,10,4,10,1,16,4,8,2,2,2,22,1,7,1,1,3,4,3,1,16,1,13,2,1,3,4,12,
  2,6,2,1,8,6,4,2,2,22,1,7,1,2,1,2,1,2,31,4,1,1,7,10,2,3,16,9,1,3,1,22,1,7,1,2,1,5,3,1,18,1,15,2,4,10,9,1,11,8,2,2,2,
  22,1,7,1,2,1,5,3,1,30,2,1,3,4,10,1,7,11,1,1,6,3,3,1,4,3,2,1,1,1,2,3,2,3,3,3,12,22,1,21,13,18,8,1,3,1,23,1,16,3,1,26,
  3,2,1,2,2,4,10,8,7,1,1,4,8,1,3,1,23,1,10,1,5,3,1,31,2,1,2,4,10,1,2,17,9,1,3,1,41,2,1,16,1,5,3,1,10,4,19,1,6,5,18,3,
  24,1,9,1,1,2,7,31,10,17,48,1,2,12,7,9,10,39,2,1,1,1,5,1,24,1,1,1,10,1,2,9,1,2,5,1,1,9,10,2,4,32,1,31,20,12,8,1,36,
  27,5,115,43,20,11,6,6,4,4,3,1,3,2,7,3,4,13,12,1,1,10,6,38,1,1,5,1,2,43,1,333,1,4,2,7,1,1,1,4,2,41,1,4,2,33,1,4,2,7,
  1,1,1,4,2,15,1,57,1,4,2,67,14,20,3,16,16,86,2,6,3,620,2,17,1,26,5,75,3,11,7,18,13,19,14,18,14,13,1,3,15,52,35,1,4,1,
  3,10,6,10,22,10,6,89,7,5,2,34,1,1,5,70,10,31,39,40,2,5,11,44,4,26,6,11,37,23,9,53,43,10,6,10,13,1,93,47,17,8,3,10,
  41,30,13,56,26,36,28,10,3,49,2,9,7,43,2,3,41,4,1,6,1,2,3,1,5,192,64,278,2,6,2,38,2,6,2,8,1,1,1,1,1,1,1,31,2,53,1,7,
  1,1,3,3,1,7,3,4,2,6,4,13,5,3,1,7,115,2,2,6,5,11,6,13,101,1,4,1,2,10,1,1,3,5,6,1,1,1,1,1,1,4,1,11,2,4,5,5,4,1,1,58,
  726,60,78,22,630,30,1132,229,6,4,3,2,9,1,2,38,1,1,5,1,2,56,7,1,16,23,9,7,1,7,1,7,1,7,1,7,1,7,1,7,1,7,80,1,469,3,25,
  9,7,5,2,5,4,86,6,3,1,90,1,4,5,43,1,94,3,4,10,32,48,16,32,10,30,8,1,15,32,10,39,15,320,6592,64,22157,67,46,2,269,3,
  28,20,47,16,31,2,80,39,9,2,103,2,64,5,2,1,1,1,5,24,16,1,3,1,4,1,23,13,6,10,52,14,50,28,10,24,6,3,1,1,2,1,38,10,23,
  25,29,7,47,28,11,6,5,1,25,1,41,23,3,1,8,4,10,6,23,3,1,3,50,1,1,3,2,2,5,2,1,1,1,24,3,2,11,7,3,12,6,2,6,2,6,9,7,1,7,1,
  43,1,14,6,115,13,10,6,11172,12,23,4,49,8452,366,2,106,38,7,12,5,5,1,1,10,1,13,1,5,1,1,1,2,1,2,1,108,33,363,18,64,2,
  54,40,12,116,5,1,135,19,10,7,26,6,26,11,89,3,6,2,6,2,6,2,3,35,12,1,26,1,19,1,2,1,15,2,14,34,123,12,45,12,57,17,2,
  244,29,3,49,16,27,4,36,9,30,5,38,10,30,2,36,4,8,1,5,42,158,2,10,6,36,4,36,4,40,8,52,12,11,1,15,1,7,1,2,1,11,1,15,1,
  7,1,2,67,311,9,22,10,8,24,6,1,42,1,9,69,6,2,1,1,44,1,2,3,1,2,23,2,31,2,38,8,9,48,19,1,2,5,33,4,26,70,56,4,20,2,47,
  15,4,1,3,1,29,10,9,23,31,1,32,32,8,1,28,6,5,16,54,10,22,2,27,5,26,23,7,80,73,55,51,13,51,7,42,12,10,294,31,1,42,6,2,
  78,40,8,22,11,4,27,18,46,28,20,23,12,53,26,30,1,2,2,1,13,45,32,25,7,10,9,36,15,10,4,1,2,1,8,35,3,1,12,48,14,4,11,11,
  1,1,4,20,11,18,1,25,84,7,1,1,1,4,1,15,1,10,7,47,17,10,11,8,2,2,2,22,1,7,1,2,1,5,3,1,18,1,12,5,158,53,18,4,5,10,5,3,
  30,48,20,2,1,1,8,10,166,47,41,4,36,48,20,1,11,10,38,43,13,1,7,10,54,27,21,12,4,7,185,44,116,83,12,8,2,1,2,8,1,2,1,
  24,15,1,1,1,14,10,70,8,2,39,16,1,1,1,28,1,10,40,7,1,21,1,11,46,19,1,18,73,263,9,1,37,17,1,15,29,5,30,112,7,1,2,1,38,
  21,1,9,10,6,6,1,2,1,32,14,1,7,10,310,19,189,1,15,21,43,922,102,111,17,196,2636,97,15,1071,4049,583,8633,569,7,31,1,
  10,6,79,1,10,6,30,18,48,16,4,12,10,1,7,1,21,5,19,688,87,105,75,5,1,66,13,64,2,1,1,28,6136,8,1238,42,9,8935,4,1,7,1,
  2,1,291,45,3,17,4,8,396,2308,107,5,13,3,9,7,10,5702,20,108,25,135,85,1,71,1,2,2,1,2,2,2,4,1,12,1,1,1,7,1,65,1,4,2,8,
  1,7,1,28,1,4,1,5,1,1,3,7,1,340,2,25,1,25,1,31,1,25,1,31,1,25,1,31,1,25,1,31,1,25,1,8,2,50,1792,31,481,45,10,7,2,10,
  4,1,321,30,18,44,4,10,1254,7,1,4,1,2,1,15,1,197,2,9,48,68,7,1,4,10,791,59,1,3,1,4,76,45,1,15,194,4,1,27,1,2,1,1,2,1,
  1,10,1,4,1,1,1,1,6,1,4,1,1,1,1,1,1,3,1,2,1,1,2,1,1,1,1,1,1,1,1,1,1,2,1,1,2,4,1,7,1,4,1,4,1,1,1,10,1,17,5,3,1,5,1,17,
  580,13,2787,10,1030,42720,32,4153,7,222,2,5762,14,7473,3103,542,1506,4939]

def isWordChar (c : Char) : Bool :=
  if c.toNat < 128 then c.isAlphanum || c == '_' else wordChars.contains c

/-! ## Decimal digits and letters

The decimal digits of every script stand in runs of ten, from zero to nine. A letter
is a word character that is none of them. -/

def zeroDigits : Array Nat := #[
  0x30, 0x660, 0x6f0, 0x7c0, 0x966, 0x9e6, 0xa66, 0xae6, 0xb66, 0xbe6, 0xc66, 0xce6, 0xd66,
  0xde6, 0xe50, 0xed0, 0xf20, 0x1040, 0x1090, 0x17e0, 0x1810, 0x1946, 0x19d0, 0x1a80, 0x1a90,
  0x1b50, 0x1bb0, 0x1c40, 0x1c50, 0xa620, 0xa8d0, 0xa900, 0xa9d0, 0xa9f0, 0xaa50, 0xabf0, 0xff10,
  0x104a0, 0x10d30, 0x11066, 0x110f0, 0x11136, 0x111d0, 0x112f0, 0x11450, 0x114d0, 0x11650,
  0x116c0, 0x11730, 0x118e0, 0x11950, 0x11c50, 0x11d50, 0x11da0, 0x16a60, 0x16ac0, 0x16b50,
  0x1d7ce, 0x1d7d8, 0x1d7e2, 0x1d7ec, 0x1d7f6, 0x1e140, 0x1e2f0, 0x1e950, 0x1fbf0]

def isDecimalDigit (c : Char) : Bool :=
  let n := c.toNat
  zeroDigits.any fun z => z ≤ n && n < z + 10

/-- A decimal digit of any script as one of the first script; all else as it is. -/
def plainDigit (c : Char) : Char :=
  match zeroDigits.find? fun z => z ≤ c.toNat && c.toNat < z + 10 with
  | some z => Char.ofNat (0x30 + (c.toNat - z))
  | none => c

def isLetter (c : Char) : Bool := isWordChar c && !isDecimalDigit c

/-! ## Characters of names

The names in a script begin with a letter, a dollar sign or a low line. They go on with those,
with digits, and with marks that attach to letters. -/

/-- Numerals that are neither digits nor letters, such as fractions. -/
def otherNumerals : CharClass := .ofRuns [
  178,2,5,1,2,3,2357,6,376,6,120,3,133,7,217,7,17,9,433,10,1077,20,1139,10,480,1,1685,1,3,6,6,10,198,16,41,1,726,60,
  78,22,630,30,1385,1,1172,4,138,10,30,8,1,15,32,10,39,15,30064,6,22737,45,65,4,17,2,341,27,36,4,1332,8,25,7,39,9,75,
  5,22,6,160,2,2,16,2,46,64,9,52,2,30,3,75,5,104,8,24,8,41,7,330,6,352,31,158,10,42,4,112,7,134,20,379,20,1349,2,430,
  9,871,19,851,21,19334,7,798,23,25673,20,108,25,5454,9,929,59,1,3,1,4,76,45,1,15,962,13]

/-- Marks that attach to letters, and lines that connect words. -/
def nameMarks : CharClass := .ofRuns [
  768,112,275,5,265,45,1,1,1,2,1,2,1,1,72,11,48,21,16,1,101,7,2,6,2,2,1,4,35,1,30,27,91,11,58,9,9,1,24,4,1,9,1,3,1,5,
  43,3,60,8,42,24,1,33,54,3,1,18,1,7,10,2,29,3,56,1,1,7,2,2,2,3,9,1,10,2,26,1,2,3,56,1,1,5,4,2,2,3,3,1,30,2,3,1,11,3,
  56,1,1,8,1,3,1,3,20,2,22,6,1,3,56,1,1,7,2,2,2,3,7,3,10,2,30,1,59,5,3,3,1,4,9,1,40,5,55,1,1,7,1,3,1,4,7,2,11,2,29,3,
  56,1,1,7,1,3,1,4,7,2,11,2,28,4,55,2,1,7,1,3,1,4,9,1,10,2,29,3,70,1,4,6,1,1,1,8,18,2,61,1,2,7,12,8,98,1,2,9,11,6,74,
  2,27,1,1,1,1,1,4,2,49,20,1,2,5,11,1,36,9,1,100,20,23,4,4,3,1,3,2,7,3,4,13,12,1,1,10,4,703,3,946,4,28,3,29,2,30,2,64,
  32,9,1,45,3,1,1,117,2,34,1,118,12,4,12,219,5,57,10,1,29,2,1,48,14,1,16,49,5,47,17,38,9,12,3,30,13,56,14,48,20,152,3,
  1,21,4,1,6,1,2,3,198,64,575,2,19,1,123,13,4,1,3,12,3070,3,141,1,96,32,554,6,105,2,30164,1,4,10,32,2,80,2,272,1,3,1,
  4,1,23,5,4,1,83,2,50,18,26,18,13,1,38,8,25,13,44,4,47,14,36,1,67,14,12,1,8,2,45,3,50,1,1,3,2,2,5,2,1,1,41,5,5,2,236,
  8,1,2,20272,1,737,16,16,16,3,2,24,3,239,1,701,1,226,1,149,5,1670,3,1,2,5,4,40,3,4,1,165,2,573,4,387,2,153,11,49,4,
  122,3,53,15,41,1,2,2,10,4,45,11,7,1,61,3,36,14,16,2,44,1,12,3,48,14,8,4,1,2,92,12,6,1,160,12,21,4,55,2,1,7,2,2,2,3,
  9,1,10,2,2,7,3,5,192,18,23,1,81,20,235,7,2,9,27,2,82,17,106,13,101,15,256,15,245,6,1,2,2,4,1,1,1,2,141,7,2,7,3,1,28,
  10,40,7,1,4,8,1,9,11,46,16,405,8,1,8,82,22,1,14,122,6,3,1,1,2,1,7,1,1,66,5,1,2,1,5,347,4,19449,5,59,7,1048,1,1,55,7,
  4,81,1,11,2,19627,2,4705,46,2,23,542,5,3,6,8,8,2,7,30,4,148,3,1979,55,4,50,8,1,14,1,22,5,1,15,1360,7,1,17,2,7,1,2,1,
  5,261,7,375,1,61,4,1504,7,109,7,792501,240]

/-- The two that join or part letters without being seen. -/
def isJoiner (c : Char) : Bool := c == '\u200c' || c == '\u200d'

def startsName (c : Char) : Bool :=
  c == '$' || c == '_' || (isLetter c && !otherNumerals.contains c)

def inName (c : Char) : Bool := startsName c || isDecimalDigit c || nameMarks.contains c || isJoiner c

/-! ## Small letters

Capital letters and their small ones come in runs. A run is written as its first letter, its
last one, and the small letter of the first. -/

def adjoining : String :=
  "ÀÖàØÞøŸŸÿƁƁɓƆƆɔƇƇƈƉƊɖƋƋƌƎƎǝƏƏəƐƐɛƑƑƒƓƓɠƔƔɣƖƖɩƗƗɨƘƘƙƜƜɯƝƝɲƟƟɵƦƦʀƧƧƨƩƩʃƬƬƭƮƮʈƯƯưƱƲʊƷƷʒƸƸƹ" ++
  "ƼƼƽǄǄǆǅǅǆǇǇǉǈǈǉǊǊǌǱǱǳǶǶƕǷǷƿȠȠƞȺȺⱥȻȻȼȽȽƚȾȾⱦɁɁɂɃɃƀɄɄʉɅɅʌͶͶͷͿͿϳΆΆάΈΊέΌΌόΎΏύΑΡαΣΫσϏϏϗϴϴθϷϷϸ" ++
  "ϹϹϲϺϺϻϽϿͻЀЏѐАЯаӀӀӏԱՖաႠჅⴀჇჇⴧჍჍⴭᎠᏯꭰᏰᏵᏸᲐᲺაᲽᲿჽẞẞßἈἏἀἘἝἐἨἯἠἸἿἰὈὍὀὙὙὑὛὛὓὝὝὕὟὟὗὨὯὠᾈᾏᾀᾘᾟᾐᾨᾯᾠᾸᾹᾰ" ++
  "Ὰ\u1fbbὰᾼᾼᾳῈ\u1fcbὲῌῌῃῘῙῐῚ\u1fdbὶῨῩῠῪ\u1febὺῬῬῥῸ\u1ff9ὸῺ\u1ffbὼῼῼῳ\u2126\u2126ω" ++
  "\u212a\u212ak\u212b\u212båℲℲⅎⅠⅯⅰↃↃↄⒶⓏⓐⰀⰯⰰⱠⱠⱡⱢⱢɫⱣⱣᵽⱤⱤɽⱭⱭɑⱮⱮɱⱯⱯɐⱰⱰɒⱲⱲⱳⱵⱵⱶⱾⱿȿⳲⳲⳳꝽꝽᵹꞋꞋꞌꞍꞍɥ" ++
  "ꞪꞪɦꞫꞫɜꞬꞬɡꞭꞭɬꞮꞮɪꞰꞰʞꞱꞱʇꞲꞲʝꞳꞳꭓꟄꟄꞔꟅꟅʂꟆꟆᶎꟐꟐꟑꟵꟵꟶＡＺａ𐐀𐐧𐐨𐒰𐓓𐓘𐕰𐕺𐖗𐕼𐖊𐖣𐖌𐖒𐖳𐖔𐖕𐖻𐲀𐲲𐳀𑢠𑢿𑣀𖹀𖹟𖹠𞤀𞤡𞤢"

/-- The runs in which each letter comes before its small one. -/
def alternating : String :=
  "ĀĮāĲĶĳĹŇĺŊŶŋŹŽźƂƄƃƠƤơƳƵƴǋǛǌǞǮǟǲǴǳǸȞǹȢȲȣɆɎɇͰͲͱϘϮϙѠҀѡҊҾҋӁӍӂӐԮӑḀẔḁẠỾạⱧⱫⱨⲀⳢⲁⳫⳭⳬꙀꙬꙁꚀꚚꚁꜢꜮꜣꜲꝮꜳ" ++
  "ꝹꝻꝺꝾꞆꝿꞐꞒꞑꞖꞨꞗꞴꟂꞵꟇꟉꟈꟖꟘꟗ"

def runsOf : List Char → List (Char × Char × Char)
  | first :: last :: small :: rest => (first, last, small) :: runsOf rest
  | _ => []

/-- The small letter of a letter in a run of a table, whose letters stand `stride` apart. -/
def smallIn? (stride : Nat) (table : String) (c : Char) : Option Char :=
  (runsOf table.toList).findSome? fun (first, last, small) =>
    let distance := c.toNat - first.toNat
    if first ≤ c && c ≤ last && distance % stride == 0 then some (Char.ofNat (small.toNat + distance))
    else none

/-- The small letters of a character; other characters stay as they are. -/
def lowerChar (c : Char) : List Char :=
  if c.toNat < 0x80 then [c.toLower]
  else if c.toNat == 0x130 then ['i', '\u0307']
  else [(smallIn? 1 adjoining c <|> smallIn? 2 alternating c).getD c]

def lower (s : String) : String := String.ofList (s.toList.flatMap lowerChar)

end CwlService.Text
