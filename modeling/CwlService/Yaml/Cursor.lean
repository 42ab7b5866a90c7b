/-! # Reading positions in a text

Lines end at line feeds and at carriage returns without one; a byte order mark takes no column. -/
namespace CwlService.Yaml

/-- A position in a text: characters before it, line and column, all from zero. -/
structure Mark where
  index : Nat
  line : Nat
  column : Nat
deriving DecidableEq, Repr, Inhabited

structure Cursor where
  rest : List Char
  left : Nat
  mark : Mark
deriving Inhabited

def isBreak (c : Char) : Bool :=
  c == '\n' || c == '\r' || c == '\u0085' || c == '\u2028' || c == '\u2029'

def isEnd : Option Char → Bool
  | none => true
  | some c => isBreak c

def isGap (c : Option Char) : Bool := isEnd c || c == some ' ' || c == some '\t'

def isStop : Option Char → Bool
  | none => true
  | some c => c == ' ' || isBreak c

namespace Cursor

def ofText (s : String) : Cursor :=
  let cs := s.toList
  ⟨cs, cs.length, ⟨0, 0, 0⟩⟩

def peek (c : Cursor) (k : Nat) : Option Char := c.rest[k]?

def head (c : Cursor) : Option Char := c.rest.head?

def next (c : Cursor) : Cursor :=
  match c.rest with
  | [] => c
  | ch :: rest =>
    let m := c.mark
    if ch == '\n' || (ch == '\r' && rest.head? != some '\n') then
      ⟨rest, c.left - 1, ⟨m.index + 1, m.line + 1, 0⟩⟩
    else if ch == '\ufeff' then ⟨rest, c.left - 1, { m with index := m.index + 1 }⟩
    else ⟨rest, c.left - 1, { m with index := m.index + 1, column := m.column + 1 }⟩

def forward (c : Cursor) : Nat → Cursor
  | 0 => c
  | n + 1 => c.next.forward n

def ahead (c : Cursor) (n : Nat) : String := String.ofList (c.rest.take n)

def span (c : Cursor) (p : Char → Bool) : String × Cursor :=
  let run := c.rest.takeWhile p
  (String.ofList run, c.forward run.length)

def skip (c : Cursor) (p : Char → Bool) : Cursor := (c.span p).2

/-- Whether the next three characters are a line of the given marker. -/
def atMarker (c : Cursor) (marker : String) : Bool := c.ahead 3 == marker && isGap (c.peek 3)

def atSeparator (c : Cursor) : Bool := c.atMarker "---" || c.atMarker "..."

def lineBreak (c : Cursor) : String × Cursor :=
  match c.rest with
  | '\r' :: '\n' :: _ => ("\n", c.forward 2)
  | ch :: _ =>
    if ch == '\n' || ch == '\r' || ch == '\u0085' then ("\n", c.next)
    else if ch == '\u2028' || ch == '\u2029' then (String.singleton ch, c.next)
    else ("", c)
  | [] => ("", c)

end Cursor
end CwlService.Yaml
