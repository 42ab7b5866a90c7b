import CwlService.Node.Basic
import CwlService.Number.Shortest
import CwlService.Text.Quoted

/-! # The text of data

`shown` is the text of a value by itself, where a text is itself; `inner` is its text inside a
collection, where a text is quoted. Marked maps show their entries as a list of pairs. -/
namespace CwlService.Node

def commaNumbers (ns : List Nat) : String := ", ".intercalate (ns.map toString)

def dateInner (d : Date) : String :=
  "datetime.date(" ++ commaNumbers [d.year, d.month, d.day] ++ ")"

/-- Text of a moment inside a collection; zero seconds are left out. -/
def momentInner (m : Moment) (styled : Bool) : String :=
  let most := [m.date.year, m.date.month, m.date.day, m.hour, m.minute]
  let all := if m.micro ≠ 0 then most ++ [m.second, m.micro]
    else if m.second ≠ 0 then most ++ [m.second] else most
  (if styled then "TimeStamp(" else "datetime.datetime(") ++ commaNumbers all ++ ")"

def byteInner (quote : Char) (b : UInt8) : List Char :=
  let c := Char.ofNat b.toNat
  if c == quote || c == '\\' then ['\\', c]
  else if c == '\n' then ['\\', 'n']
  else if c == '\r' then ['\\', 'r']
  else if c == '\t' then ['\\', 't']
  else if 32 ≤ b.toNat && b.toNat < 127 then [c]
  else '\\' :: 'x' :: Text.hexDigits 2 b.toNat

def bytesInner (bs : List UInt8) : String :=
  let q := Text.quoteFor (bs.map fun b => Char.ofNat b.toNat)
  String.ofList ('b' :: q :: bs.flatMap (byteInner q) ++ [q])

/-- A scalar under its own tag has no text inside a collection but a stand-in of the
usual width. -/
def taggedInner : String := "<scalar under a tag of its own, whatever its text might be.>"

def fixedText : List String → String
  | [part] => "(" ++ part ++ ",)"
  | parts => "(" ++ ", ".intercalate parts ++ ")"

def seqDots (form : Form) : String := if form.kind == .fixed then "(...)" else "[...]"

def mapDots (form : Form) : String :=
  if form.marked || form.kind == .ordered then "..." else "\x7b...\x7d"

mutual
/-- Text of data inside the collections with the identities `around`. -/
def innerIn (around : List Nat) : Node → String
  | .null => "None"
  | .bool b => if b then "True" else "False"
  | .int n _ => toString n
  | .float x _ => DecimalFormat.document.text x
  | .text s _ => Text.quote s
  | .date d _ => dateInner d
  | .moment m styled _ => momentInner m styled
  | .bytes bs => bytesInner bs
  | .tagged _ => taggedInner
  | .again _ => "[...]"
  | .set true members => "set(odict_keys([" ++ ", ".intercalate (innerMembers around members) ++ "]))"
  | .set false [] => "set()"
  | .set false members => "\x7b" ++ ", ".intercalate (innerMembers around members) ++ "\x7d"
  | .seq form items =>
    if form.isInside around then seqDots form else
    let parts := innerItems (form.around around) items
    if form.kind == .fixed then fixedText parts else "[" ++ ", ".intercalate parts ++ "]"
  | .map form entries =>
    if form.isInside around then mapDots form else
    let around := form.around around
    if form.marked || form.kind == .ordered then
      let name := if form.marked && form.kind == .ordered then "CommentedOrderedMap" else "ordereddict"
      if entries.isEmpty then name ++ "()" else name ++ "([" ++ ", ".intercalate (innerPairs around entries) ++ "])"
    else "\x7b" ++ ", ".intercalate (innerEntries around entries) ++ "\x7d"

def innerMembers (around : List Nat) : List Node → List String
  | [] => []
  | n :: rest => innerKeyIn around n :: innerMembers around rest

def innerItems (around : List Nat) : Items → List String
  | [] => []
  | (_, n) :: rest => innerIn around n :: innerItems around rest

def innerKeyIn (around : List Nat) : Node → String
  | .seq _ items => fixedText (innerItems around items)
  | n => innerIn around n

def innerPairs (around : List Nat) : Entries → List String
  | [] => []
  | (k, _, v) :: rest =>
    ("(" ++ innerKeyIn around k ++ ", " ++ innerIn around v ++ ")") :: innerPairs around rest

def innerEntries (around : List Nat) : Entries → List String
  | [] => []
  | (k, _, v) :: rest =>
    (innerKeyIn around k ++ ": " ++ innerIn around v) :: innerEntries around rest
end

def inner (n : Node) : String := innerIn [] n

def innerKey (n : Node) : String := innerKeyIn [] n

def shown : Node → String
  | .text s _ => s
  | .date d _ => d.iso
  | .moment m _ _ => m.iso " "
  | .tagged s => s
  | n => inner n

def shownList (ns : List Node) : String := "[" ++ ", ".intercalate (ns.map inner) ++ "]"

end CwlService.Node
