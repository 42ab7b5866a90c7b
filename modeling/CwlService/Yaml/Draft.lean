import CwlService.Node.Order
import CwlService.Number.Shortest
import CwlService.Yaml.Reader

/-! # Data ready to be written

Marked collections and styled scalars have no draft, nor have scalars under a tag of their own.
Data that stand in several places are written out once, under a name. -/
namespace CwlService.Yaml

/-- What decides how data is spelled: the version that gives plain scalars their meaning, and
the version and the handles that stand at the head. -/
structure Dialect where
  current : Version := .latest
  heading : Option Version := none
  handles : List (String × String) := []

def Reader.dialect (r : Reader) : Dialect := ⟨r.current, r.version, r.handles⟩

inductive WriteFault where
  | unwritable
  | unknownVersion (version : Version)
deriving DecidableEq, Repr

structure Leaf where
  tag : Tag
  text : String
deriving Repr

inductive DraftKind where
  | usual
  /-- A list of single entries, or a map without values. -/
  | tagged
deriving DecidableEq, Repr

/-- Data ready to be written; `identity` is the number of data that stand in several places. -/
inductive Draft where
  | leaf (identity : Option Nat) (l : Leaf)
  | seq (identity : Option Nat) (kind : DraftKind) (items : List Draft)
  | map (identity : Option Nat) (kind : DraftKind) (entries : List (Draft × Draft))
  /-- Data that contains this place. -/
  | again (identity : Nat)

namespace Draft

/-- The spelling of a number with a fraction. In the older version a number with an exponent
has a fraction too. -/
def numberText (d : Dialect) (x : Binary64) : String :=
  if x.isNaN then ".nan"
  else if x.isInfinite then (if x.isNegative then "-.inf" else ".inf")
  else
    let s := DecimalFormat.document.text x
    if d.heading == some .older && !s.toList.contains '.' then
      match s.splitOn "e" with
      | [mantissa, exponent] => mantissa ++ ".0e" ++ exponent
      | _ => s
    else s

def plainLeaf (tag : Tag) (text : String) : Draft := .leaf none ⟨tag, text⟩

def scalar? (d : Dialect) : Node → Option Draft
  | .null => some (plainLeaf .null "null")
  | .bool b => some (plainLeaf .bool (if b then "true" else "false"))
  | .int n false => some (plainLeaf .int (toString n))
  | .float x false => some (plainLeaf .float (numberText d x))
  | .text s false => some (plainLeaf .str s)
  | .date day identity => some (.leaf identity ⟨.timestamp, day.iso⟩)
  | .moment m false identity => some (.leaf identity ⟨.timestamp, m.iso " "⟩)
  | .bytes bs => some (plainLeaf .binary (Text.base64Text bs))
  | .again identity => some (.again identity)
  | _ => none

def inOrder (es : List (Node × Draft × Draft)) : List (Draft × Draft) :=
  (Node.sortByKey (fun e => e.1) es).map (·.2)

mutual
def of? (d : Dialect) : Node → Option Draft
  | .seq form items =>
    if form.marked then none
    else (ofItems? d items).map (.seq form.identity .usual)
  | .map form entries =>
    if form.marked then none
    else
      (ofEntries? d entries).map fun es =>
        if form.kind == .ordered then
          .seq form.identity .tagged (es.map fun e => .map none .usual [e.2])
        else .map form.identity .usual (inOrder es)
  | .set marked members =>
    if marked then none
    else
      (ofMembers? d members).map fun es => .map none .tagged (inOrder es)
  | n => scalar? d n

def ofItems? (d : Dialect) : Node.Items → Option (List Draft)
  | [] => some []
  | (_, n) :: rest => do
    let a ← of? d n
    let as ← ofItems? d rest
    some (a :: as)

def ofEntries? (d : Dialect) : Node.Entries → Option (List (Node × Draft × Draft))
  | [] => some []
  | (k, _, v) :: rest => do
    let key ← of? d k
    let value ← of? d v
    let es ← ofEntries? d rest
    some ((k, key, value) :: es)

def ofMembers? (d : Dialect) : List Node → Option (List (Node × Draft × Draft))
  | [] => some []
  | n :: rest => do
    let key ← of? d n
    let es ← ofMembers? d rest
    some ((n, key, plainLeaf .null "null") :: es)
end

/-! ## Names -/

/-- The identities that were met, and the numbers of those that were met again. -/
structure Naming where
  met : List Nat := []
  numbers : List (Nat × Nat) := []

/-- Meets data: whether it was met before. Data that is met for the second time gets the next
number. -/
def Naming.meet (identity : Option Nat) : StateM Naming Bool := do
  match identity with
  | none => pure false
  | some i =>
    let s ← get
    if s.met.contains i then
      if (s.numbers.lookup i).isNone then
        set { s with numbers := s.numbers ++ [(i, s.numbers.length + 1)] }
      pure true
    else
      set { s with met := i :: s.met }
      pure false

mutual
def nameParts : Draft → StateM Naming Unit
  | .leaf identity _ => discard (Naming.meet identity)
  | .again identity => discard (Naming.meet (some identity))
  | .seq identity _ items => do
    if !(← Naming.meet identity) then nameItems items
  | .map identity _ entries => do
    if !(← Naming.meet identity) then nameEntries entries

def nameItems : List Draft → StateM Naming Unit
  | [] => pure ()
  | d :: rest => do
    nameParts d
    nameItems rest

def nameEntries : List (Draft × Draft) → StateM Naming Unit
  | [] => pure ()
  | (k, v) :: rest => do
    nameParts k
    nameParts v
    nameEntries rest
end

def numbers (d : Draft) : List (Nat × Nat) := ((nameParts d).run {}).2.numbers

end Draft
end CwlService.Yaml
