import CwlService.Node.Spans

/-! # Lists and maps as one

Many parts of a document can be written as a map from keys to values or as a list of maps that
hold their key in a field. An item without the key field is a problem; of two items with one
key the later counts, at the place of the earlier. The keys are a set of names. -/
namespace CwlService

/-- A set of keys. It has no order of its own, and is kept in one that its members give: texts
first, by code points, then other keys by the text that they show. -/
structure NameSet where
  members : List Node
deriving Inhabited

namespace NameSet

def precedes (a b : Node) : Bool :=
  match a.text?, b.text? with
  | some s, some t => compare s t != .gt
  | some _, none => true
  | none, some _ => false
  | none, none => compare a.shown b.shown != .gt

def sort (ns : List Node) : List Node := ns.mergeSort precedes

def empty : NameSet := ⟨[]⟩

def contains (s : NameSet) (n : Node) : Bool := s.members.any fun m => m.same n

def insert (s : NameSet) (n : Node) : NameSet :=
  if s.contains n then s
  else ⟨s.members.takeWhile (fun m => precedes m n) ++ n ::
    s.members.dropWhile (fun m => precedes m n)⟩

def ofList (ns : List Node) : NameSet := ns.foldl insert empty

def union (s : NameSet) (ns : List Node) : NameSet := ns.foldl insert s

def erase (s : NameSet) (n : Node) : NameSet := ⟨s.members.filter fun m => !m.same n⟩

def isEmpty (s : NameSet) : Bool := s.members.isEmpty

/-- A message that ends with the names of a set. -/
def listedIn (s : NameSet) (text : String) : Message := ⟨text, s.members.map Node.innerKey⟩

end NameSet

inductive ListingForm where
  | map
  | list
  | neither
deriving DecidableEq, Repr

structure ListingEntry where
  key : Node
  value : Node
  keySpan : Option Span
  index : Nat
deriving Inhabited

structure Listing where
  form : ListingForm
  source : Node
  entries : List ListingEntry

/-- A result together with the problems that were found on the way, also when it fails. -/
abbrev Reported (α : Type) := List Diagnostic × Except Fault α

namespace Listing

def missingKey (keyField : Node) (span : Span) : Diagnostic :=
  .error (some span) ("Missing key field " ++ keyField.shown)

def put (es : List ListingEntry) (e : ListingEntry) : List ListingEntry :=
  if es.any fun f => f.key.same e.key then
    es.map fun f => if f.key.same e.key then { e with key := f.key } else f
  else es ++ [e]

/-- Goes through the items of a list. `withSpans` asks for the spans of keys. -/
def ofItems (source : Node) (keyField : Node) (withSpans : Bool) :
    Nat → Node.Items → List ListingEntry → List Diagnostic → Reported (List ListingEntry)
  | _, [], acc, ds => (ds, .ok acc)
  | index, (_, item) :: rest, acc, ds =>
    match item with
    | .map form es =>
      if !keyField.isKey && !form.marked then (ds, .error .wrongKind) else
      match (if keyField.isKey then Node.Entries.value? es keyField else none).getD .null with
      | .null =>
        match source.itemSpan index with
        | .ok span =>
          ofItems source keyField withSpans (index + 1) rest acc (ds ++ [missingKey keyField span])
        | .error f => (ds, .error f)
      | key =>
        if !key.isKey then (ds, .error .wrongKind)
        else if withSpans then
          match item.valueSpan keyField with
          | .ok span =>
            ofItems source keyField withSpans (index + 1) rest (put acc ⟨key, item, some span, index⟩) ds
          | .error f => (ds, .error f)
        else
          ofItems source keyField withSpans (index + 1) rest (put acc ⟨key, item, none, index⟩) ds
    | .again _ => (ds, .error .endless)
    | _ => ofItems source keyField withSpans (index + 1) rest acc ds

def ofEntries (es : Node.Entries) : List ListingEntry := es.map fun e => ⟨e.1, e.2.2, none, 0⟩

def of (n : Node) (keyField : Node) : Reported Listing :=
  match n with
  | .map _ es => ([], .ok ⟨.map, n, ofEntries es⟩)
  | .seq _ items =>
    let (ds, r) := ofItems n keyField true 0 items [] []
    (ds, r.map fun es => ⟨.list, n, es⟩)
  | _ => ([], .ok ⟨.neither, n, []⟩)

def asMap (n : Node) (keyField : Node) : Reported (List ListingEntry) :=
  match n with
  | .map _ es => ([], .ok (ofEntries es))
  | .seq _ items => ofItems n keyField false 0 items [] []
  | _ => ([], .ok [])

def get? (es : List ListingEntry) (key : Node) : Option ListingEntry :=
  es.find? fun e => e.key.same key

/-- Puts an entry into its place in the order of keys, unless its key is there. -/
def insert (es : List ListingEntry) (e : ListingEntry) : List ListingEntry :=
  if es.any fun f => f.key.same e.key then es
  else es.takeWhile (fun f => NameSet.precedes f.key e.key) ++ e ::
    es.dropWhile (fun f => NameSet.precedes f.key e.key)

def sorted (es : List ListingEntry) : List ListingEntry := es.foldl insert []

def idSpan (l : Listing) (e : ListingEntry) : Except Fault Span :=
  match l.form, e.keySpan with
  | .map, _ => l.source.keySpan e.key
  | _, some span => pure span
  | _, none => throw (.missingKey e.key)

def valueSpan (l : Listing) (e : ListingEntry) : Except Fault Span :=
  match l.form with
  | .map => l.source.valueSpan e.key
  | _ => l.source.itemSpan e.index

end Listing
end CwlService
