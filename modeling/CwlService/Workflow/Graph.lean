import CwlService.Node.Listing

/-! # The graph of a workflow

Inputs, steps and outputs are the nodes; an edge leads from the source of a port to the
step or output that takes it. -/
namespace CwlService

structure FlowNode where
  id : Node
  label : Node
  group : String
deriving Inhabited

structure FlowGraph where
  nodes : List FlowNode
  edges : List (String × Node)
  lines : List (Node × Int)
deriving Inhabited

namespace FlowGraph

def putLine (lines : List (Node × Int)) (id : Node) (line : Int) : List (Node × Int) :=
  if lines.any fun l => l.1.same id then lines.map fun l => if l.1.same id then (l.1, line) else l
  else lines ++ [(id, line)]

def addGroup (group : String) (listing : Listing) :
    List ListingEntry → FlowGraph → Except Fault FlowGraph
  | [], g => pure g
  | e :: rest, g => do
    let label := match e.value with
      | .map _ es => (Node.Entries.field? es "label").getD e.key
      | _ => e.key
    let span ← listing.valueSpan e
    addGroup group listing rest
      { g with
        nodes := g.nodes ++ [⟨e.key, label, group⟩]
        lines := putLine g.lines e.key span.start.line }

/-- What a port takes its value from: the names in front of the first slash. -/
def sources (field : String) (port : Node) : List String :=
  let src := match port with
    | .map _ es => (Node.Entries.field? es field).getD .null
    | n => n
  let items : List Node := match src with
    | .seq _ items => items.map fun i => i.2
    | n => [n]
  items.filterMap fun n => n.text?.map fun s => (Text.parts '/' s).headD ""

def addEdges (g : FlowGraph) (target : Node) (from_ : List String) : FlowGraph :=
  { g with edges := g.edges ++ from_.map fun s => (s, target) }

def addSteps : List ListingEntry → FlowGraph → Except Fault FlowGraph
  | [], g => pure g
  | e :: rest, g =>
    match e.value with
    | .map _ es => do
      let ports ← (Listing.of ((Node.Entries.field? es "in").getD (.map .plain [])) (.str "id")).2
      addSteps rest (g.addEdges e.key (ports.entries.flatMap fun p => sources "source" p.value))
    | _ => throw .noMember

def of (process : Node) : Except Fault FlowGraph := do
  if !process.isMap then throw .noMember
  let part (name : String) : Except Fault Listing :=
    (Listing.of ((process.field? name).getD (.map .plain [])) (.str "id")).2
  let inputs ← part "inputs"
  let g ← addGroup "inputs" inputs inputs.entries default
  let steps ← part "steps"
  let g ← addGroup "steps" steps steps.entries g
  let outputs ← part "outputs"
  let g ← addGroup "outputs" outputs outputs.entries g
  let g ← addSteps steps.entries g
  pure (outputs.entries.foldl (fun g e => g.addEdges e.key (sources "outputSource" e.value)) g)

end FlowGraph
end CwlService
