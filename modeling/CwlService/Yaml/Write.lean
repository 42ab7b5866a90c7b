import CwlService.Yaml.Page

/-! # Writing data

A text is written without quotes where it reads back as the same text, in single quotes where
they can hold it, and in double quotes otherwise. -/
namespace CwlService.Yaml

/-! ## Choosing a style -/

structure Shape where
  empty : Bool
  multiline : Bool
  plain : Bool
  single : Bool

namespace Shape

open Page (isLineBreak)

def isEdge : Option Char → Bool
  | none => true
  | some c => c == '\x00' || c == ' ' || c == '\t' || c == '\r' || isLineBreak c

def isSpecial (c : Char) : Bool :=
  let n := Text.codeOf c
  !(c == '\n' || (0x20 ≤ n && n ≤ 0x7E)) &&
    !((n == 0x85 || (0xA0 ≤ n && n ≤ 0xD7FF) || (0xE000 ≤ n && n ≤ 0xFFFD) ||
      (0x10000 ≤ n && n ≤ 0x10FFFF)) && n != 0xFEFF)

def startsAsIndicator : List Char → Bool
  | [] => false
  | c :: rest =>
    "#,[]\x7b\x7d&*!|>\x27\x22%@\x60".toList.contains c ||
      ((c == '?' || c == ':' || c == '-') && isEdge rest.head?)

def holdsIndicator : Char → List Char → Bool
  | _, [] => false
  | before, c :: rest =>
    (c == ':' && isEdge rest.head?) || (c == '#' && isEdge (some before)) || holdsIndicator c rest

def mixesBreaks : List Char → Bool
  | a :: b :: rest =>
    (a == ' ' && isLineBreak b) || (isLineBreak a && b == ' ') || mixesBreaks (b :: rest)
  | _ => false

def of (s : String) : Shape :=
  match s.toList with
  | [] => ⟨true, false, true, true⟩
  | c :: rest =>
    let cs := c :: rest
    let isEnd (o : Option Char) : Bool :=
      match o with
      | some e => e == ' ' || isLineBreak e
      | none => false
    let special := cs.any isSpecial
    let mixed := mixesBreaks cs
    let multiline := cs.any isLineBreak
    let indicators := s.startsWith "---" || s.startsWith "..." || startsAsIndicator cs ||
      holdsIndicator c rest
    ⟨false, multiline,
      !(isEnd (some c) || isEnd cs.getLast? || special || mixed || multiline || indicators),
      !(special || mixed)⟩

end Shape

inductive Style where
  | plain
  | single
  | double
  | literal
deriving DecidableEq, Repr

namespace Dialect

/-- The prefixes of tags with the handles that stand for them; of two for one prefix the later
one counts. -/
def prefixes (d : Dialect) : List (String × String) :=
  let declared := (d.handles.mergeSort fun a b => a.1 ≤ b.1).map fun (handle, start) => (start, handle)
  [("!", "!"), (Tag.home, "!!")] ++ declared

/-- How a tag is written: with the handle of the prefix that comes last in order. -/
def tagText (d : Dialect) (tag : Tag) : String :=
  let uri := tag.uri
  let fits := d.prefixes.filter fun (start, _) =>
    uri.startsWith start && (start == "!" || start.length < uri.length)
  match (fits.mergeSort fun a b => a.1 ≤ b.1).getLast? with
  | some (start, handle) => handle ++ (uri.drop start.length).toString
  | none => "!<" ++ uri ++ ">"

def isPrefixChar (d : Dialect) (c : Char) : Bool :=
  c.isAlphanum || "-;/?:@&=+$,_.~*\x27()[]".toList.contains c ||
    (c == '#' && (d.heading.map (·.isAfterOlder)).getD true)

/-- A prefix as it stands at the head: other characters show by their numbers. -/
def prefixText (d : Dialect) (start : String) : String :=
  let shown (c : Char) : List Char :=
    if d.isPrefixChar c then [c]
    else
      let n := Text.codeOf c
      '%' :: (Text.hexDigits (max 2 (Nat.toDigits 16 n).length) n).map Char.toUpper
  match start.toList with
  | '!' :: rest => String.ofList ('!' :: rest.flatMap shown)
  | cs => String.ofList (cs.flatMap shown)

def head (d : Dialect) (p : Page) : Page :=
  let p := match d.heading with
    | some v => (p.put ("%YAML " ++ toString v.major ++ "." ++ toString v.minor)).newline
    | none => p
  let p := (d.handles.mergeSort fun a b => a.1 ≤ b.1).foldl (fun p (handle, start) =>
    (p.put ("%TAG " ++ handle ++ " " ++ d.prefixText start)).newline) p
  if d.heading.isSome || !d.handles.isEmpty then (p.indentTo 0).indicator "---" true false else p

end Dialect

namespace Leaf

/-- The style of a scalar; `simple` says that it is a key on one line. -/
def style (d : Dialect) (l : Leaf) (simple : Bool) : Style :=
  let shape := Shape.of l.text
  if l.tag == .binary then (if simple then .double else .literal)
  else if l.tag == Plain.resolve (d.current == .older) l.text &&
    !(simple && (shape.empty || shape.multiline)) && shape.plain then .plain
  else if l.text.toList.any fun c => c == '\x27' || c == '\n' then .double
  else if shape.single && !(simple && shape.multiline) then .single
  else .double

end Leaf

/-! ## Writing a draft -/

structure Writer where
  dialect : Dialect
  layout : Layout
  numbers : List (Nat × Nat)

namespace Writer

def name? (w : Writer) (identity : Option Nat) : Option String := do
  let n ← w.numbers.lookup (← identity)
  let digits := toString n
  some ("id" ++ String.ofList (List.replicate (3 - digits.length) '0') ++ digits)

/-- The length at which a key no longer stands on one line with its value. -/
def longKey : Nat := 128

def keyLength (w : Writer) (identity : Option Nat) (tag : Tag) : Nat :=
  ((w.name? identity).getD "").length + (w.dialect.tagText tag).length

def isSimpleKey (w : Writer) : Draft → Bool
  | .leaf identity l =>
    w.keyLength identity l.tag + l.text.length < longKey && !(Shape.of l.text).multiline &&
      !(l.text.isEmpty && l.tag == .binary)
  | .seq identity kind items =>
    w.keyLength identity (if kind == .tagged then .omap else .seq) < longKey && items.isEmpty
  | .map identity kind entries =>
    w.keyLength identity (if kind == .tagged then .set else .map) < longKey && entries.isEmpty
  | .again _ => true

end Writer

/-- What surrounds a node: the indentation of the collection, and whether it is a
sequence. -/
structure Around where
  indent : Option Nat
  inSeq : Bool

namespace Around

def inner (a : Around) (l : Layout) : Option Nat :=
  a.indent.map fun i => i + if a.inSeq then l.seqStep else l.mapStep

end Around

inductive Part where
  | root
  | item
  | simpleKey
  | key
  | value
deriving DecidableEq, Repr

structure Sheet where
  page : Page
  written : List Nat := []

namespace Sheet

def onPage (s : Sheet) (f : Page → Page) : Sheet := { s with page := f s.page }

/-- Starts data: its name goes first if it has one. If the data stands on the page already,
the name is all there is to write, and the result is `none`. -/
def start? (w : Writer) (identity : Option Nat) (s : Sheet) : Sheet × Bool :=
  match identity, w.name? identity with
  | some i, some name =>
    if s.written.contains i then (s.onPage (·.indicator ("*" ++ name) true false), true)
    else ({ page := s.page.indicator ("&" ++ name) true false, written := i :: s.written }, false)
  | _, _ => (s, false)

end Sheet

def Leaf.write (w : Writer) (around : Around) (part : Part) (named : Bool) (l : Leaf) (p : Page) :
    Page :=
  let style := l.style w.dialect (part == .simpleKey)
  let indent := around.inner w.layout
  let split := part != .simpleKey
  let p := if l.tag == .binary then p.indicator (w.dialect.tagText .binary) true false else p
  let p := if part == .item && !named then p.indentTo (indent.getD 0) else p
  match style with
  | .plain => p.plain indent split (part == .root) l.text
  | .single => p.single indent split l.text
  | .double => p.double indent split l.text
  | .literal => p.literal indent l.text

mutual
def Draft.write (w : Writer) (around : Around) (part : Part) (d : Draft) (s : Sheet) : Sheet :=
  match d with
  | .again identity => (s.start? w (some identity)).1
  | .leaf identity l =>
    let (s, done) := s.start? w identity
    if done then s else s.onPage (l.write w around part (w.name? identity).isSome)
  | .seq identity kind items =>
    let (s, done) := s.start? w identity
    if done then s
    else
      let s := s.onPage fun p =>
        if kind == .tagged then p.indicator (w.dialect.tagText .omap) true false else p
      if items.isEmpty then
        s.onPage fun p => (p.indicator "[" true false).indicator "]" false false
      else
        let indent :=
          if (part == .value || part == .key || part == .simpleKey) && !s.page.lead then
            around.indent.getD 0
          else (around.inner w.layout).getD 0
        Draft.writeItems w ⟨some indent, true⟩ items s
  | .map identity kind entries =>
    let (s, done) := s.start? w identity
    if done then s
    else
      let s := s.onPage fun p =>
        if kind == .tagged then
          { p.indicator (w.dialect.tagText .set) true false with joined := part == .item }
        else p
      if entries.isEmpty then
        s.onPage fun p => (p.indicator "\x7b" true false).indicator "\x7d" false false
      else Draft.writeEntries w ⟨some ((around.inner w.layout).getD 0), false⟩ entries s

def Draft.writeItems (w : Writer) (around : Around) (items : List Draft) (s : Sheet) : Sheet :=
  match items with
  | [] => s
  | d :: rest =>
    let s := s.onPage fun p =>
      ({ p with joined := false }.indentTo (around.indent.getD 0)).indicator
        (String.ofList (List.replicate w.layout.dash ' ') ++ "-") true true
    Draft.writeItems w around rest (d.write w around .item s)

def Draft.writeEntries (w : Writer) (around : Around) (entries : List (Draft × Draft))
    (s : Sheet) : Sheet :=
  match entries with
  | [] => s
  | (k, d) :: rest =>
    let s := s.onPage (·.indentTo (around.indent.getD 0))
    let repeated (s : Sheet) : Bool :=
      match k with
      | .leaf (some i) _ | .seq (some i) _ _ | .map (some i) _ _ | .again i => s.written.contains i
      | _ => false
    let s :=
      if repeated s then
        (k.write w around .simpleKey s).onPage fun p => (p.put " ").indicator ":" false false
      else if w.isSimpleKey k then
        (k.write w around .simpleKey s).onPage (·.indicator ":" false false)
      else
        let s := k.write w around .key (s.onPage (·.indicator "?" true true))
        s.onPage fun p => (p.indentTo (around.indent.getD 0)).indicator ":" true true
    Draft.writeEntries w around rest (d.write w around .value s)
end

def Draft.text (dialect : Dialect) (layout : Layout) (d : Draft) : String :=
  let s := d.write ⟨dialect, layout, d.numbers⟩ ⟨none, false⟩ .root ⟨dialect.head {}, []⟩
  let p := s.page.indentTo 0
  (if p.openEnd then (p.indicator "..." true false).indentTo 0 else p).text

mutual
def Draft.hasLeaf : Draft → Bool
  | .leaf _ _ => true
  | .again _ => false
  | .seq _ _ items => itemsHaveLeaf items
  | .map _ _ entries => !entries.isEmpty && entriesHaveLeaf entries

def Draft.itemsHaveLeaf : List Draft → Bool
  | [] => false
  | d :: rest => d.hasLeaf || Draft.itemsHaveLeaf rest

def Draft.entriesHaveLeaf : List (Draft × Draft) → Bool
  | [] => false
  | (k, v) :: rest => k.hasLeaf || v.hasLeaf || Draft.entriesHaveLeaf rest
end

def write (dialect : Dialect) (layout : Layout) (n : Node) : Except WriteFault String :=
  match Draft.of? dialect n with
  | none => throw .unwritable
  | some d =>
    if d.hasLeaf && !dialect.current.isKnown then throw (.unknownVersion dialect.current)
    else pure (d.text dialect layout)

end CwlService.Yaml
