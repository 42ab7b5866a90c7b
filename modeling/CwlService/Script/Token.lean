import CwlService.Number.Reading
import CwlService.Script.Problem
import CwlService.Text.Utf8

/-! # Tokens of a script

A statement may end without a semicolon where a line ended. A character that starts no token
becomes a token too, so that a problem before it in the text is the one that counts. -/
namespace CwlService.Script

inductive TokenKind where
  | number (value : Binary64)
  | text (value : String)
  | word (name : String)
  /-- A name with escapes, which is never a reserved word. -/
  | escapedName (name : String)
  /-- A pattern for texts, with its letters after the second slash. -/
  | pattern (body flags : String)
  | mark (symbol : String)
  | bad (cause : Malformed)
  | finish

structure Token where
  kind : TokenKind
  line : Nat
  fresh : Bool

def isLineEnd (c : Char) : Bool := c == '\n' || c == '\r' || c == '\u2028' || c == '\u2029'

def isSpace (c : Char) : Bool :=
  c == ' ' || c == '\t' || c == '\x0b' || c == '\x0c' || c == '\u00a0' || c == '\ufeff' ||
  c == '\u1680' || c == '\u180e' || ('\u2000' ≤ c && c ≤ '\u200a') || c == '\u202f' ||
  c == '\u205f' || c == '\u3000'

/-- The marks, a longer one before those that it begins with. -/
def marks : List String :=
  [">>>=", "===", "!==", ">>>", "<<=", ">>=", "==", "!=", "<=", ">=", "&&", "||", "++", "--",
   "<<", ">>", "+=", "-=", "*=", "/=", "%=", "&=", "|=", "^=", "\x7b", "\x7d", "(", ")", "[",
   "]", ".", ";", ",", "<", ">", "+", "-", "*", "/", "%", "&", "|", "^", "!", "~", "?", ":", "="]

def reserved : List String :=
  ["break", "case", "catch", "class", "const", "continue", "debugger", "default", "delete", "do",
   "else", "enum", "export", "extends", "false", "finally", "for", "function", "if", "import",
   "in", "instanceof", "new", "null", "return", "super", "switch", "this", "throw", "true", "try",
   "typeof", "var", "void", "while", "with"]

/-! ## Escapes -/

/-- The character that a backslash and a letter stand for. -/
def escaped (c : Char) : Char :=
  match c with
  | 'n' => '\n'
  | 't' => '\t'
  | 'r' => '\r'
  | 'b' => '\x08'
  | 'f' => '\x0c'
  | 'v' => '\x0b'
  | c => c

def hexEscape? (count : Nat) (cs : List Char) : Option (Char × List Char) :=
  let digits := cs.take count
  if digits.length == count then
    (Number.natural? 16 digits).map fun n => (Text.charOf n, cs.drop count)
  else none

def isOctal (c : Char) : Bool := '0' ≤ c && c ≤ '7'

def isDigitAt (o : Option Char) : Bool := (o.map Char.isDigit).getD false

def isOctalAt (o : Option Char) : Bool := (o.map isOctal).getD false

def digitValue (c : Char) : Nat := c.toNat - '0'.toNat

/-- A character by its number in digits: three or two octal ones, or a single digit that no
digit follows. -/
def digitEscape? (a : Char) (rest : List Char) : Option (Char × List Char) :=
  let b := rest.head?
  let c := (rest.drop 1).head?
  let value (o : Option Char) : Nat := (o.map digitValue).getD 0
  if '0' ≤ a && a ≤ '3' && isOctalAt b && isOctalAt c then
    some (Char.ofNat (64 * digitValue a + 8 * value b + value c), rest.drop 2)
  else if isOctal a && isOctalAt b && ('4' ≤ a || !isDigitAt c) then
    some (Char.ofNat (8 * digitValue a + value b), rest.drop 1)
  else if !isDigitAt b then some (Char.ofNat (digitValue a), rest)
  else none

/-! ## Texts -/

def textFrom (quote : Char) :
    Nat → List Char → List Char → Except Malformed (String × List Char)
  | 0, _, _ => throw .openText
  | _, _, [] => throw .openText
  | fuel + 1, acc, c :: rest =>
    if c == quote then pure (String.ofList (Text.joinHalves acc.reverse), rest)
    else if isLineEnd c then throw .openText
    else if c == '\\' then
      match rest with
      | [] => throw .openText
      | '\r' :: '\n' :: more => textFrom quote fuel acc more
      | e :: more =>
        if isLineEnd e then textFrom quote fuel acc more
        else if e == 'x' || e == 'u' then
          match hexEscape? (if e == 'x' then 2 else 4) more with
          | some (ch, after) => textFrom quote fuel (ch :: acc) after
          | none => throw .escapeDigits
        else if e.isDigit then
          match digitEscape? e more with
          | some (ch, after) => textFrom quote fuel (ch :: acc) after
          | none => throw .escapeNumber
        else textFrom quote fuel (escaped e :: acc) more
    else textFrom quote fuel (c :: acc) rest

/-! ## Names -/

/-- A name, and whether it has escapes; `acc` is what was read of it, backwards. -/
def nameFrom : Nat → List Char → Bool → List Char → Except Malformed (String × Bool × List Char)
  | 0, acc, escapes, cs => pure (String.ofList acc.reverse, escapes, cs)
  | _, acc, escapes, [] => pure (String.ofList acc.reverse, escapes, [])
  | fuel + 1, acc, escapes, c :: rest =>
    if c == '\\' then
      match rest with
      | 'u' :: more =>
        match hexEscape? 4 more with
        | none => throw .escapeDigits
        | some (ch, after) =>
          if if acc.isEmpty then Text.startsName ch else Text.inName ch then
            nameFrom fuel (ch :: acc) true after
          else throw .nameCharacter
      | _ => throw .nameEscape
    else if Text.inName c then nameFrom fuel (c :: acc) escapes rest
    else pure (String.ofList acc.reverse, escapes, c :: rest)

/-! ## Numbers -/

def numeralLength (cs : List Char) : Nat :=
  let whole := (cs.takeWhile Char.isDigit).length
  let fraction := match cs.drop whole with
    | '.' :: rest => 1 + (rest.takeWhile Char.isDigit).length
    | _ => 0
  let exponent := match cs.drop (whole + fraction) with
    | e :: rest =>
      if e == 'e' || e == 'E' then
        let signs := match rest with
          | '+' :: _ => 1
          | '-' :: _ => 1
          | _ => 0
        let digits := ((rest.drop signs).takeWhile Char.isDigit).length
        if digits == 0 then 0 else 1 + signs + digits
      else 0
    | [] => 0
  whole + fraction + exponent

def wholeNumber (base : Nat) (isDigit : Char → Bool) (cs : List Char) :
    Option Binary64 × List Char :=
  let digits := cs.takeWhile isDigit
  ((Number.natural? base digits).map fun n => Binary64.ofInt n, cs.drop digits.length)

/-- The number at the front of a text, `none` for one that no number may look like. A zero
before a digit means an octal number. -/
def number? (cs : List Char) : Option Binary64 × List Char :=
  let decimal := (Number.unsigned? (cs.take (numeralLength cs)), cs.drop (numeralLength cs))
  let (value, rest) := match cs with
    | '0' :: x :: more =>
      if x == 'x' || x == 'X' then wholeNumber 16 (fun c => (Number.natural? 16 [c]).isSome) more
      else if x.isDigit then wholeNumber 8 Char.isDigit (x :: more)
      else decimal
    | _ => decimal
  match rest with
  | c :: _ => (if c.isDigit || Text.startsName c then none else value, rest)
  | [] => (value, rest)

/-! ## Patterns -/

/-- The body of a pattern after its first slash: a slash in a class or after a backslash does
not end it. -/
def patternBody : (inClass : Bool) → List Char → Option (List Char × List Char)
  | _, [] => none
  | inClass, '\\' :: c :: rest =>
    if isLineEnd c then none
    else (patternBody inClass rest).map fun (b, after) => ('\\' :: c :: b, after)
  | inClass, c :: rest =>
    if isLineEnd c || c == '\\' then none
    else if c == '/' && !inClass then some ([], rest)
    else
      let inClass := if c == '[' then true else if c == ']' then false else inClass
      (patternBody inClass rest).map fun (b, after) => (c :: b, after)

/-! ## All tokens -/

def lineEnds : List Char → Nat
  | [] => 0
  | '\r' :: '\n' :: rest => 1 + lineEnds rest
  | c :: rest => (if isLineEnd c then 1 else 0) + lineEnds rest

def commentEnd? : List Char → Option (List Char × List Char)
  | [] => none
  | '*' :: '/' :: rest => some ([], rest)
  | c :: rest => (commentEnd? rest).map fun (a, b) => (c :: a, b)

def TokenKind.endsTerm : TokenKind → Bool
  | .number _ | .text _ | .escapedName _ | .pattern .. => true
  | .word w => !reserved.contains w || ["null", "true", "false", "this"].contains w
  | .mark m => [")", "]", "\x7d", "++", "--"].contains m
  | _ => false

/-- The token at the front of a text that starts neither with space nor with a comment;
`divides` says that a term ends before it. -/
def token (divides : Bool) (cs : List Char) : TokenKind × List Char :=
  match cs with
  | [] => (.finish, [])
  | c :: rest =>
    if c == '\x22' || c == '\x27' then
      match textFrom c cs.length [] rest with
      | .ok (s, after) => (.text s, after)
      | .error cause => (.bad cause, [])
    else if Text.startsName c || c == '\\' then
      match nameFrom cs.length [] false cs with
      | .ok (s, escapes, after) => (if escapes then .escapedName s else .word s, after)
      | .error cause => (.bad cause, [])
    else if c.isDigit || (c == '.' && isDigitAt rest.head?) then
      match number? cs with
      | (some x, after) => (.number x, after)
      | (none, _) => (.bad .numeral, [])
    else if c == '/' && !divides then
      match patternBody false rest with
      | some (body, after) =>
        (.pattern (String.ofList body) (String.ofList (after.takeWhile Text.inName)),
          after.dropWhile Text.inName)
      | none => (.bad .openPattern, [])
    else
      match marks.find? fun m => m.toList.isPrefixOf cs with
      | some m => (.mark m, cs.drop m.length)
      | none => (.bad .unknownCharacter, [])

/-- The tokens of a text; each step takes up a character. -/
def tokensFrom (divides : Bool) : Nat → Nat → Bool → List Char → List Token
  | 0, line, fresh, _ => [⟨.finish, line, fresh⟩]
  | _, line, fresh, [] => [⟨.finish, line, fresh⟩]
  | fuel + 1, line, fresh, c :: rest =>
    if c == '\r' && rest.head? == some '\n' then tokensFrom divides fuel line fresh rest
    else if isLineEnd c then tokensFrom divides fuel (line + 1) true rest
    else if isSpace c then tokensFrom divides fuel line fresh rest
    else if c == '/' && rest.head? == some '/' then
      tokensFrom divides fuel line fresh (rest.dropWhile fun c => !isLineEnd c)
    else if c == '/' && rest.head? == some '*' then
      match commentEnd? rest.tail with
      | some (inside, after) =>
        tokensFrom divides fuel (line + lineEnds inside) (fresh || lineEnds inside != 0) after
      | none => [⟨.bad .openComment, line, fresh⟩]
    else
      let (kind, after) := token divides (c :: rest)
      let taken := (c :: rest).take ((c :: rest).length - after.length)
      ⟨kind, line, fresh⟩ :: tokensFrom kind.endsTerm fuel (line + lineEnds taken) false after

def tokens (source : String) : List Token :=
  let cs := source.toList
  tokensFrom false (cs.length + 1) 1 false cs

end CwlService.Script
