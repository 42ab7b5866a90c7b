import CwlService.Node.Basic
import CwlService.Number.Reading
import CwlService.Text.Utf8

/-! # Reading messages

Beyond the standard, `NaN`, `Infinity` and `-Infinity` are numbers. Of two equal keys the last
value stays, at the place of the first. -/
namespace CwlService.Json

inductive Refusal where
  | malformed
  | enormous
  deriving DecidableEq, Repr

/-- Reading: what is read comes with the rest of the text. -/
abbrev Reading := Except Refusal

def part {α : Type} : Option α → Reading α
  | some p => pure p
  | none => throw .malformed

def isSpace (c : Char) : Bool := c == ' ' || c == '\t' || c == '\n' || c == '\r'

def skipSpace (cs : List Char) : List Char := cs.dropWhile isSpace

def afterWord (word cs : List Char) : Option (List Char) :=
  if word.isPrefixOf cs then some (cs.drop word.length) else none

def hex4 : List Char → Option (Nat × List Char)
  | a :: b :: c :: d :: rest => (Number.natural? 16 [a, b, c, d]).map (·, rest)
  | _ => none

def shortEscape : Char → Option Char
  | '\x22' => some '\x22'
  | '\\' => some '\\'
  | '/' => some '/'
  | 'b' => some '\x08'
  | 'f' => some '\x0c'
  | 'n' => some '\n'
  | 'r' => some '\r'
  | 't' => some '\t'
  | _ => none

/-- The character after `\u`; a high surrogate joins the low one after it, and stands alone
otherwise. -/
def unicodeEscape (cs : List Char) : Option (Char × List Char) := do
  let (n, rest) ← hex4 cs
  if 0xD800 ≤ n && n ≤ 0xDBFF then
    match rest with
    | '\\' :: 'u' :: more =>
      match hex4 more with
      | some (m, after) =>
        if 0xDC00 ≤ m && m ≤ 0xDFFF then
          some (Char.ofNat (0x10000 + (n - 0xD800) * 0x400 + (m - 0xDC00)), after)
        else some (Text.ofHalf n, rest)
      | none => some (Text.ofHalf n, rest)
    | _ => some (Text.ofHalf n, rest)
  else some (Text.charOf n, rest)

/-- A text after its opening quote; `acc` is what is read, backwards. -/
def string : Nat → List Char → List Char → Reading (String × List Char)
  | 0, _, _ => throw .malformed
  | _ + 1, [], _ => throw .malformed
  | fuel + 1, c :: rest, acc =>
    if c == '\x22' then pure (String.ofList acc.reverse, rest)
    else if c == '\\' then
      match rest with
      | [] => throw .malformed
      | 'u' :: more =>
        match unicodeEscape more with
        | some (ch, after) => string fuel after (ch :: acc)
        | none => throw .malformed
      | e :: more =>
        match shortEscape e with
        | some ch => string fuel more (ch :: acc)
        | none => throw .malformed
    else if c.toNat < 32 then throw .malformed
    else string fuel rest (c :: acc)

/-- A number after its sign: a whole one, or one with a fraction or an exponent. -/
def magnitude (negative : Bool) (body : List Char) : Reading (Node × List Char) :=
  let digits := body.takeWhile Char.isDigit
  let whole := if digits.head? == some '0' then ['0'] else digits
  if whole.isEmpty then throw .malformed
  else
    let rest := body.drop whole.length
    let fraction := match rest with
      | '.' :: f => f.takeWhile Char.isDigit
      | _ => []
    let rest := if fraction.isEmpty then rest else rest.drop (fraction.length + 1)
    let exponent := match rest with
      | e :: tail =>
        if e == 'e' || e == 'E' then
          let (signs, digits) := match tail with
            | '-' :: d => (['-'], d)
            | '+' :: d => (['+'], d)
            | d => ([], d)
          let run := digits.takeWhile Char.isDigit
          if run.isEmpty then [] else 'e' :: signs ++ run
        else []
      | [] => []
    let rest := rest.drop exponent.length
    if fraction.isEmpty && exponent.isEmpty then
      if whole.length > Number.maxDigits then throw .enormous
      else part ((Number.natural? 10 whole).map fun n =>
        (.num (if negative then -(n : Int) else n), rest))
    else
      part ((Number.unsigned? (whole ++ '.' :: fraction ++ exponent)).map fun x =>
        (.float (if negative then x.neg else x) false, rest))

def number : List Char → Reading (Node × List Char)
  | '-' :: rest => magnitude true rest
  | cs => magnitude false cs

def words : List (String × Node) :=
  [("true", .bool true), ("false", .bool false), ("null", .null), ("NaN", .float .nan false),
   ("Infinity", .float .infinity false), ("-Infinity", .float (Binary64.neg .infinity) false)]

def word? (cs : List Char) : Option (Node × List Char) :=
  words.findSome? fun (w, n) => (afterWord w.toList cs).map (n, ·)

mutual
def value : Nat → List Char → Reading (Node × List Char)
  | 0, _ => throw .malformed
  | fuel + 1, cs =>
    match skipSpace cs with
    | [] => throw .malformed
    | c :: rest =>
      if c == '\x22' then do
        let (s, rest) ← string fuel rest []
        return (.str s, rest)
      else if c == '[' then
        match skipSpace rest with
        | ']' :: after => pure (.seq .plain [], after)
        | _ => do
          let (ns, rest) ← items fuel rest []
          return (.list ns, rest)
      else if c == '\x7b' then
        match skipSpace rest with
        | '\x7d' :: after => pure (.map .plain [], after)
        | _ => do
          let (es, rest) ← members fuel rest []
          return (.map .plain es, rest)
      else
        match word? (c :: rest) with
        | some p => pure p
        | none => number (c :: rest)

def items : Nat → List Char → List Node → Reading (List Node × List Char)
  | 0, _, _ => throw .malformed
  | fuel + 1, cs, acc => do
    let (n, rest) ← value fuel cs
    match skipSpace rest with
    | ',' :: more => items fuel more (n :: acc)
    | ']' :: after => pure ((n :: acc).reverse, after)
    | _ => throw .malformed

def members : Nat → List Char → Node.Entries → Reading (Node.Entries × List Char)
  | 0, _, _ => throw .malformed
  | fuel + 1, cs, acc =>
    match skipSpace cs with
    | '\x22' :: rest => do
      let (key, rest) ← string fuel rest []
      match skipSpace rest with
      | ':' :: rest =>
        let (n, rest) ← value fuel rest
        let acc := Node.Entries.put acc (.str key) n
        match skipSpace rest with
        | ',' :: more => members fuel more acc
        | '\x7d' :: after => pure (acc, after)
        | _ => throw .malformed
      | _ => throw .malformed
    | _ => throw .malformed
end

/-- The value that a text is, with white space around it. A part of a value costs at most
two steps and takes up a character, so twice the length is enough. -/
def read (s : String) : Reading Node := do
  let cs := s.toList
  let (n, rest) ← value (2 * cs.length + 2) cs
  if (skipSpace rest).isEmpty then pure n else throw .malformed

def read? (s : String) : Option Node := (read s).toOption

end CwlService.Json
