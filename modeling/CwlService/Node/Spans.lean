import CwlService.Fault
import CwlService.Node.Text
import CwlService.Text.Basic

/-! # Spans of keys and values

Only marked collections know them. The end of a value is found from its text: on the same line
if the text has one line, otherwise as many lines further down, at a column beyond any text. -/
namespace CwlService.Node

def lineEnd : Nat := 1000

def entryPlaces (parent key : Node) : Except Fault (Place × Place) :=
  match parent with
  | .map form es =>
    if !form.marked then throw .noMember else
    match (Entries.under? es key).bind (·.2.1) with
    | some places => pure places
    | none => if es.any (·.2.1.isSome) then throw (.missingKey key) else throw .wrongKind
  | _ => throw .noMember

def itemPlace (parent : Node) (index : Nat) : Except Fault Place :=
  match parent with
  | .seq form items =>
    if !form.marked then throw .noMember else
    match items[index]? with
    | some (some place, _) => pure place
    | _ => if items.any (·.1.isSome) then throw (.missingKey (.num index)) else throw .wrongKind
  | _ => throw .noMember

/-- How many parts a key has: characters of a text, members of a collection. -/
def keyLength? : Node → Option Nat
  | .text s _ => some s.length
  | .bytes bs => some bs.length
  | .seq _ items => some items.length
  | .map _ entries => some entries.length
  | _ => none

def keySpan (parent key : Node) : Except Fault Span := do
  let (start, _) ← parent.entryPlaces key
  match key.keyLength? with
  | some n => pure ⟨start, ⟨start.line, start.column + n⟩⟩
  | none => throw .wrongKind

def endPlace (start : Place) (value : Node) : Place :=
  match value with
  | .null => start
  | v =>
    match Text.lines v.shown with
    | [] => start
    | [line] => ⟨start.line, start.column + line.length⟩
    | ls => ⟨start.line + ls.length, lineEnd⟩

def valueSpan (parent key : Node) : Except Fault Span := do
  let (_, start) ← parent.entryPlaces key
  match parent with
  | .map _ es => pure ⟨start, endPlace start ((Entries.value? es key).getD .null)⟩
  | _ => throw .noMember

def itemSpan (parent : Node) (index : Nat) : Except Fault Span := do
  let start ← parent.itemPlace index
  match parent with
  | .seq _ items => pure ⟨start, endPlace start ((items[index]?.map (·.2)).getD .null)⟩
  | _ => throw .noMember

end CwlService.Node
