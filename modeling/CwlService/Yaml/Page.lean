import CwlService.Yaml.Draft

/-! # A page being written

A page remembers whether the last character is white space of its own and whether the line so
far holds only indentation and indicators, so a nested collection may start on the line of its
dash. -/
namespace CwlService.Yaml

structure Layout where
  mapStep : Nat
  seqStep : Nat
  dash : Nat
deriving Repr

namespace Layout

def shown : Layout := ⟨2, 4, 2⟩

def saved : Layout := ⟨2, 2, 0⟩

end Layout

structure Page where
  text : String := ""
  column : Nat := 0
  /-- The last character separates words. -/
  blank : Bool := true
  /-- Only indentation and indicators stand on the line. -/
  lead : Bool := true
  /-- The end of the data needs a mark. -/
  openEnd : Bool := false
  /-- The next new line is left out. -/
  joined : Bool := false

namespace Page

def width : Nat := 80

def put (p : Page) (s : String) : Page :=
  { p with text := p.text ++ s, column := p.column + s.length }

def breakLine (p : Page) (c : Char) : Page :=
  { p with text := p.text.push c, column := 0, blank := true, lead := true }

def newline (p : Page) : Page := p.breakLine '\n'

def indicator (p : Page) (s : String) (needBlank lead : Bool) : Page :=
  let p' := p.put (if p.blank || !needBlank then s else " " ++ s)
  { p' with blank := false, lead := p.lead && lead, openEnd := false }

/-- Goes to a column, on a new line unless the line holds only what leads up to it. -/
def indentTo (p : Page) (indent : Nat) : Page :=
  let p :=
    if !p.lead || p.column > indent || (p.column == indent && !p.blank) then
      if p.joined then { p with joined := false } else p.newline
    else p
  if p.column < indent then
    { p.put (String.ofList (List.replicate (indent - p.column) ' ')) with blank := true }
  else p

/-! ## Runs of characters -/

inductive Stretch where
  | blanks
  | breaks
  | others
deriving DecidableEq, Repr

def isLineBreak (c : Char) : Bool := c == '\n' || c == '\u0085' || c == '\u2028' || c == '\u2029'

def Stretch.of (c : Char) : Stretch :=
  if c == ' ' then .blanks else if isLineBreak c then .breaks else .others

def runs (cs : List Char) : List (Stretch × List Char) :=
  cs.foldr (fun c acc =>
    match acc with
    | (s, run) :: rest => if s == .of c then (s, c :: run) :: rest else (.of c, [c]) :: acc
    | [] => [(.of c, [c])]) []

def plainRuns (indent : Nat) (split : Bool) : List (Stretch × List Char) → Page → Page
  | [], p => p
  | (stretch, run) :: rest, p =>
    let p :=
      if stretch == .blanks && run.length == 1 && p.column > width && split then
        { p.indentTo indent with blank := false, lead := false }
      else p.put (String.ofList run)
    plainRuns indent split rest p

def plain (p : Page) (indent : Option Nat) (split root : Bool) (s : String) : Page :=
  let p := if root then { p with openEnd := true } else p
  let p := if p.blank then p else p.put " "
  plainRuns (indent.getD 0) split (runs s.toList) { p with blank := false, lead := false }

def singleRuns (indent : Nat) (split : Bool) (first : Bool) :
    List (Stretch × List Char) → Page → Page
  | [], p => p
  | (stretch, run) :: rest, p =>
    let p :=
      if stretch == .breaks then (run.foldl breakLine p).indentTo indent
      else if stretch == .blanks && run.length == 1 && p.column > width && split && !first &&
        !rest.isEmpty then p.indentTo indent
      else
        p.put (String.ofList (run.flatMap fun c => if c == '\x27' then [c, c] else [c]))
    singleRuns indent split false rest p

def single (p : Page) (indent : Option Nat) (split : Bool) (s : String) : Page :=
  let p := p.indicator "'" true false
  (singleRuns (indent.getD 0) split true (runs s.toList) p).indicator "'" false false

def escape? (c : Char) : Option String :=
  let n := Text.codeOf c
  let short : Option Char :=
    match n with
    | 0 => some '0'
    | 7 => some 'a'
    | 8 => some 'b'
    | 9 => some 't'
    | 10 => some 'n'
    | 11 => some 'v'
    | 12 => some 'f'
    | 13 => some 'r'
    | 0x1B => some 'e'
    | 0x22 => some '\x22'
    | 0x5C => some '\\'
    | 0x85 => some 'N'
    | 0x2028 => some 'L'
    | 0x2029 => some 'P'
    | _ => none
  let upper (width : Nat) : String := String.ofList ((Text.hexDigits width n).map Char.toUpper)
  match short with
  | some e => some (String.ofList ['\\', e])
  | none =>
    if n != 0xFEFF && ((0x20 ≤ n && n ≤ 0x7E) || (0xA0 ≤ n && n ≤ 0xD7FF) || (0xE000 ≤ n && n ≤ 0xFFFD))
    then none
    else if n ≤ 0xFF then some ("\\x" ++ upper 2)
    else if n ≤ 0xFFFF then some ("\\u" ++ upper 4)
    else some ("\\U" ++ upper 8)

/-- Breaks a line between double quotes; a blank at the new start is escaped. -/
def breakDouble (p : Page) (indent : Nat) (next : Option Char) : Page :=
  let p := { (p.put "\\").indentTo indent with blank := false, lead := false }
  if next == some ' ' then p.put "\\" else p

/-- Writes what stands between double quotes. `index` counts the characters before, and
`fresh` says that the last one was escaped. -/
def doubleChars (indent : Nat) (split : Bool) (length : Nat) :
    Nat → Bool → List Char → Page → Page
  | _, _, [], p => p
  | index, fresh, c :: rest, p =>
    let inside := split && 0 < index && index + 1 < length
    match escape? c with
    | some e =>
      let p := p.put e
      let p := if inside && p.column - 1 > width then p.breakDouble indent rest.head? else p
      doubleChars indent split length (index + 1) true rest p
    | none =>
      let p :=
        if inside && (c == ' ' || fresh) && p.column > width then p.breakDouble indent (some c)
        else p
      doubleChars indent split length (index + 1) false rest (p.put (String.singleton c))

def double (p : Page) (indent : Option Nat) (split : Bool) (s : String) : Page :=
  let p := p.indicator "\x22" true false
  (doubleChars (indent.getD 0) split s.length 0 false s.toList p).indicator "\x22" false false

/-- Writes lines below an indicator, each at the indentation; a root keeps its lines at the
margin. -/
def literal (p : Page) (indent : Option Nat) (s : String) : Page :=
  let p := (p.indicator "|" true false).newline
  (s.splitOn "\n").foldl (fun p line =>
    if line.isEmpty then p else ((p.indentTo (indent.getD 0)).put line).newline) p

end Page
end CwlService.Yaml
