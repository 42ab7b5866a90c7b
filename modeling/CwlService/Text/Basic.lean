/-! # Parts, lines and blanks of a text -/
namespace CwlService.Text

def parts (sep : Char) (s : String) : List String := (s.toList.splitOn sep).map String.ofList

def withoutEnd (ending s : String) : String :=
  if s.endsWith ending then (s.dropEnd ending.length).toString else s

def holds (part : List Char) : List Char → Bool
  | [] => part.isEmpty
  | c :: cs => part.isPrefixOf (c :: cs) || holds part cs

/-! ## Lines

The last line needs no end, and a text without characters has no lines. -/

def isLineEnd (c : Char) : Bool :=
  let n := c.toNat
  (10 ≤ n && n ≤ 13) || (28 ≤ n && n ≤ 30) || n == 0x85 || n == 0x2028 || n == 0x2029

/-- Splits off lines; `line` is the current line, read backwards, and `began` says
whether it has a character. -/
def linesFrom (line : List Char) (began : Bool) : List Char → List (List Char)
  | [] => if began then [line.reverse] else []
  | '\r' :: '\n' :: rest => line.reverse :: linesFrom [] false rest
  | c :: rest =>
    if isLineEnd c then line.reverse :: linesFrom [] false rest
    else linesFrom (c :: line) true rest

def lines (s : String) : List String := (linesFrom [] false s.toList).map String.ofList

def unlines (ls : List String) : String := "\n".intercalate ls

/-- Reads every line end of the common systems as a line feed. -/
def normalizeNewlines : List Char → List Char
  | [] => []
  | '\r' :: '\n' :: rest => '\n' :: normalizeNewlines rest
  | '\r' :: rest => '\n' :: normalizeNewlines rest
  | c :: rest => c :: normalizeNewlines rest

def newlinesText (s : String) : String := String.ofList (normalizeNewlines s.toList)

/-! ## Blank characters

The characters that stripping removes from both ends of a text. -/

/-- White space in any script, with the separators of the control range. -/
def isBlank (c : Char) : Bool :=
  let n := c.toNat
  (9 ≤ n && n ≤ 13) || (28 ≤ n && n ≤ 32) || n == 0x85 || n == 0xA0 || n == 0x1680 ||
    (0x2000 ≤ n && n ≤ 0x200A) || n == 0x2028 || n == 0x2029 || n == 0x202F || n == 0x205F ||
    n == 0x3000

def stripRight (cs : List Char) : List Char := (cs.reverse.dropWhile isBlank).reverse

def strip (cs : List Char) : List Char := stripRight (cs.dropWhile isBlank)

def stripText (s : String) : String := String.ofList (strip s.toList)

end CwlService.Text
