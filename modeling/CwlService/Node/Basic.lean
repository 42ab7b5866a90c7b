import CwlService.Calendar
import CwlService.Number.Binary64
import CwlService.Diagnostic

/-! # Document data

Sequences and maps read from an edited document are *marked*: they know where their items,
keys and values stand. A marked map may hold entries without places (they were merged in).

Numbers and texts that were written in a way of their own (underscores, leading zeros, block
style) are *styled*: they are the same values, but cannot be written back as plain data.

A collection or a date that a document uses in several places has an *identity*, the same
number wherever it stands, which shows only when it is written. -/
namespace CwlService

/-- How a collection differs from the usual list or map. -/
inductive CollectionKind where
  | usual
  | fixed
  /-- A map that was written as a list of single entries. -/
  | ordered
deriving DecidableEq, Repr, Inhabited

/-- What a collection is besides what it holds. -/
structure Form where
  /-- It comes from an edited document and knows places. -/
  marked : Bool := false
  kind : CollectionKind := .usual
  /-- Its number, if it stands in several places. -/
  identity : Option Nat := none
deriving DecidableEq, Repr, Inhabited

namespace Form

def plain : Form := {}

def placed : Form := { marked := true }

/-- Whether a collection stands inside itself, given the identities of those around it. -/
def isInside (f : Form) (around : List Nat) : Bool := f.identity.any around.contains

def around (f : Form) (outer : List Nat) : List Nat := f.identity.toList ++ outer

end Form

inductive Node where
  | null
  | bool (b : Bool)
  | int (n : Int) (styled : Bool)
  | float (x : Binary64) (styled : Bool)
  | text (s : String) (styled : Bool)
  | date (d : Date) (identity : Option Nat)
  | moment (m : Moment) (styled : Bool) (identity : Option Nat)
  | bytes (bs : List UInt8)
  | tagged (s : String)
  /-- Members without an order, each once. -/
  | set (marked : Bool) (members : List Node)
  /-- A collection of this identity, inside itself for the last time that is told. -/
  | again (identity : Nat)
  | seq (form : Form) (items : List (Option Place × Node))
  | map (form : Form) (entries : List (Node × Option (Place × Place) × Node))
deriving Inhabited, Repr

namespace Node

abbrev Items := List (Option Place × Node)

/-- The entries of a map: key, places of key and value, value. -/
abbrev Entries := List (Node × Option (Place × Place) × Node)

mutual
def hasLoop : Node → Bool
  | .again _ => true
  | .seq _ items => itemsLoop items
  | .map _ entries => entriesLoop entries
  | _ => false

def itemsLoop : Items → Bool
  | [] => false
  | (_, n) :: rest => hasLoop n || itemsLoop rest

def entriesLoop : Entries → Bool
  | [] => false
  | (_, _, n) :: rest => hasLoop n || entriesLoop rest
end

mutual
def depth : Node → Nat
  | .seq _ items => 1 + itemsDepth items
  | .map _ entries => 1 + entriesDepth entries
  | _ => 0

def itemsDepth : Items → Nat
  | [] => 0
  | (_, n) :: rest => max (depth n) (itemsDepth rest)

def entriesDepth : Entries → Nat
  | [] => 0
  | (_, _, n) :: rest => max (depth n) (entriesDepth rest)
end

abbrev str (s : String) : Node := .text s false

abbrev num (n : Int) : Node := .int n false

def list (ns : List Node) : Node := .seq .plain (ns.map fun n => (none, n))

def dict (es : List (Node × Node)) : Node := .map .plain (es.map fun e => (e.1, none, e.2))

def record (es : List (String × Node)) : Node := dict (es.map fun e => (.str e.1, e.2))

def isNull : Node → Bool
  | .null => true
  | _ => false

def isMap : Node → Bool
  | .map _ _ => true
  | _ => false

def isSeq : Node → Bool
  | .seq _ _ => true
  | _ => false

def isAgain : Node → Bool
  | .again _ => true
  | _ => false

def isText : Node → Bool
  | .text _ _ => true
  | _ => false

def text? : Node → Option String
  | .text s _ => some s
  | _ => none

def isKey : Node → Bool
  | .seq _ _ => false
  | .map _ _ => false
  | .set _ _ => false
  | .again _ => false
  | _ => true

/-- Whether a condition on the node holds: it is neither null, false, zero nor empty. -/
def truthy : Node → Bool
  | .null => false
  | .bool b => b
  | .int n _ => n != 0
  | .float x _ => !x.isZero
  | .text s _ => s != ""
  | .bytes bs => !bs.isEmpty
  | .set _ members => !members.isEmpty
  | .seq _ items => !items.isEmpty
  | .map _ entries => !entries.isEmpty
  | _ => true

def number? : Node → Option (Int ⊕ Binary64)
  | .bool b => some (.inl (if b then 1 else 0))
  | .int n _ => some (.inl n)
  | .float x _ => some (.inr x)
  | _ => none

def sameNumber : Int ⊕ Binary64 → Int ⊕ Binary64 → Bool
  | .inl a, .inl b => a == b
  | .inr a, .inr b => a.same b
  | .inl a, .inr b => b.toInt? == some a
  | .inr a, .inl b => a.toInt? == some b

mutual
/-- Equality of data: numbers by value, collections by their members in order. -/
def same : Node → Node → Bool
  | .null, .null => true
  | .text a _, .text b _ => a == b
  | .date a _, .date b _ => a == b
  | .moment a _ _, .moment b _ _ => a == b
  | .bytes a, .bytes b => a == b
  | .tagged a, .tagged b => a == b
  | .set _ as, .set _ bs => sameMembers as bs
  | .seq _ as, .seq _ bs => sameItems as bs
  | .map _ as, .map _ bs => sameEntries as bs
  | a, b =>
    match a.number?, b.number? with
    | some x, some y => sameNumber x y
    | _, _ => false

def sameMembers : List Node → List Node → Bool
  | [], [] => true
  | a :: as, b :: bs => same a b && sameMembers as bs
  | _, _ => false

def sameItems : Items → Items → Bool
  | [], [] => true
  | (_, a) :: as, (_, b) :: bs => same a b && sameItems as bs
  | _, _ => false

def sameEntries : Entries → Entries → Bool
  | [], [] => true
  | (k, _, a) :: as, (l, _, b) :: bs => same k l && same a b && sameEntries as bs
  | _, _ => false
end

def isName (n : Node) (s : String) : Bool :=
  match n with
  | .text t _ => t == s
  | _ => false

namespace Entries

def under? (es : Entries) (key : Node) : Option (Node × Option (Place × Place) × Node) :=
  List.find? (fun e => e.1.same key) es

def value? (es : Entries) (key : Node) : Option Node := (under? es key).map (·.2.2)

def field? (es : Entries) (name : String) : Option Node :=
  (List.find? (fun e => e.1.isName name) es).map (·.2.2)

def hasField (es : Entries) (name : String) : Bool := es.any fun e => e.1.isName name

def keys (es : Entries) : List Node := es.map (·.1)

/-- Sets the value under a key: in place if the key is there, at the end otherwise. -/
def put (es : Entries) (key value : Node) : Entries :=
  if es.any fun e => e.1.same key then
    es.map fun e => if e.1.same key then (e.1, e.2.1, value) else e
  else es ++ [(key, none, value)]

def eraseField (es : Entries) (name : String) : Entries := es.filter fun e => !e.1.isName name

end Entries

def field? (n : Node) (name : String) : Option Node :=
  match n with
  | .map _ es => Entries.field? es name
  | _ => none

end Node
end CwlService
