import CwlService.Node.Listing

/-! # Workflows and the interfaces of their steps

The ports of the process that a step runs are the interface of the step. -/
namespace CwlService

structure Interface where
  inputs : NameSet := .empty
  outputs : NameSet := .empty
deriving Inhabited

namespace Interface

def ports (n : Node) : Reported NameSet :=
  let (ds, r) := Listing.asMap n (.str "id")
  (ds, r.map fun es => .ofList (es.map (·.key)))

/-- The interface of a process. What is no process has no ports. -/
def ofProcess (run : Node) : Reported Interface :=
  match run with
  | .map _ es =>
    let (ds, inputs) := ports ((Node.Entries.field? es "inputs").getD .null)
    match inputs with
    | .error f => (ds, .error f)
    | .ok inputs =>
      let (ds', outputs) := ports ((Node.Entries.field? es "outputs").getD .null)
      (ds ++ ds', outputs.map fun outputs => ⟨inputs, outputs⟩)
  | _ => ([], .ok {})

end Interface

structure Workflow where
  inputs : Node
  outputs : Node
  steps : Node
  inputNames : NameSet
  outputNames : NameSet
deriving Inhabited

namespace Workflow

def of (inputs outputs steps : Node) : Except Fault Workflow := do
  let inputNames ← (Interface.ports inputs).2
  let outputNames ← (Interface.ports outputs).2
  pure ⟨inputs, outputs, steps, inputNames, outputNames⟩

abbrev Steps := List (Node × Interface)

namespace Steps

def get? (steps : Steps) (id : Node) : Option Interface :=
  (steps.find? fun s => s.1.same id).map (·.2)

def put (steps : Steps) (id : Node) (i : Interface) : Steps :=
  if steps.any fun s => s.1.same id then
    steps.map fun s => if s.1.same id then (s.1, i) else s
  else steps ++ [(id, i)]

end Steps
end Workflow
end CwlService
