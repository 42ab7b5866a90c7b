import CwlService.Node.Spans
import CwlService.Text.Shorten

/-! # The outline of a document

Every entry of a process is a symbol that reaches to the line before the next entry.
The steps of a workflow are symbols below the entry that holds them. -/
namespace CwlService.Outline

def summaryWidth : Nat := 20

/-- What stands for a text of a document: the text shortened; a dash for an empty one and for anything else. -/
def summary : Node → String
  | .text s _ => if s == "" then "-" else Text.shorten summaryWidth s
  | _ => "-"

inductive SymbolKind where
  | file
  | constant
  | string
  | interface
  | operator
  | function
  | array
  | group
  | field
deriving DecidableEq, Repr

namespace SymbolKind

def code : SymbolKind → Nat
  | .file => 1
  | .group => 5
  | .field => 8
  | .interface => 11
  | .function => 12
  | .constant => 14
  | .string => 15
  | .array => 18
  | .operator => 25

end SymbolKind

structure Leaf where
  name : Node
  kind : SymbolKind
  detail : Node
  span : Span

structure Symbol extends Leaf where
  children : Option (List Leaf)

def describe (key value : Node) : SymbolKind × Node × Node :=
  match key with
  | .text k _ =>
    match k with
    | "class" => (.file, key, value)
    | "cwlVersion" => (.constant, key, value)
    | "id" | "label" | "doc" => (.string, .str (summary value), .null)
    | "inputs" | "outputs" => (.interface, key, .null)
    | "baseCommand" => (.operator, key, .null)
    | "expression" => (.function, .str "\x7b\x7d", .null)
    | "requirements" | "hints" => (.array, key, .null)
    | "steps" => (.group, key, .null)
    | _ => (.field, key, .null)
  | _ => (.field, key, .null)

def lines (start next : Int) : Span := ⟨⟨start, 0⟩, ⟨next - 1, 0⟩⟩

def keyLines (n : Node) : Except Fault (List Int) :=
  match n with
  | .map _ es => es.mapM fun e => do return (← n.entryPlaces e.1).1.line
  | _ => throw .noMember

/-- Joins entries with the lines where they start and where the next one starts. -/
def withSpans (starts : List Int) (last : Int) : List Span :=
  (starts.zip (starts.drop 1 ++ [last])).map fun (a, b) => lines a b

def symbols (process : Node) (lineCount : Int) : Except Fault (List (Node × Symbol)) := do
  let starts ← keyLines process
  let entries := match process with
    | .map _ es => es
    | _ => []
  pure ((entries.zip (withSpans starts (lineCount - 1))).map fun (e, span) =>
    let (kind, name, detail) := describe e.1 e.2.2
    (e.1, { name, kind, detail, span, children := none }))

def stepName (index : Nat) (step : Node) : Node :=
  ((step.field? "id").getD (.str ("Step " ++ toString index ++ " is missing id!")))

def steps (n : Node) : Except Fault (List (Node × Int)) :=
  match n with
  | .seq _ items => do
    let starts ← (List.range items.length).mapM fun i => do return (← n.itemPlace i).line
    pure (((items.zip (List.range items.length)).map fun (i, k) => stepName k i.2).zip starts)
  | .map _ es => do return (es.map (·.1)).zip (← keyLines n)
  | _ => pure []

/-- What a process has under `steps`. -/
def held (process : Node) : Node := (process.field? "steps").getD .null

def holdsSteps (process : Node) : Bool := (held process).isSeq || (held process).isMap

/-- The symbols of steps below an entry that ends in a given line. -/
def leaves (found : List (Node × Int)) (stop : Int) : List Leaf :=
  (found.zip (withSpans (found.map (·.2)) stop)).map fun s => ⟨s.1.1, .field, .null, s.2⟩

def putBelow (children : List Leaf) (s : Node × Symbol) : Node × Symbol :=
  if s.1.isName "steps" then (s.1, { s.2 with children := some children }) else s

/-- Adds the steps below the entry that holds them. -/
def withSteps (process : Node) (syms : List (Node × Symbol)) : Except Fault (List (Node × Symbol)) :=
  if holdsSteps process then
    match syms.find? (·.1.isName "steps") with
    | none => throw .noMember
    | some holder => do
      let found ← steps (held process)
      pure (syms.map (putBelow (leaves found holder.2.span.stop.line)))
  else pure syms

end CwlService.Outline
