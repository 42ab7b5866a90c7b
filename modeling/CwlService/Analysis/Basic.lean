import CwlService.Language.Inference
import CwlService.Workflow.Basic
import CwlService.Workspace.Files

/-! # What is known about a document

Going through a document by its types collects problems, and hints for spans of its text. Of
several hints whose spans hold a place, the first one counts. -/
namespace CwlService

/-- A link to a file as it is written, and what it leads to. -/
structure Link where
  target : String
  file : Option Path
  contents : String
  extension : Option String

inductive Hint where
  | fields (names : List String)
  | symbols (names : List Node)
  /-- The name of a type of data, with its definition if the document defines it. -/
  | dataType (names : List Node) (definition : Option Node)
  | expression (text : String) (path : List Node) (span : Option Span)
  | link (link : Link)
  | typeLink (link : Link)
  | unknownRequirement (names : List Node)
  | requirement (names : List Node)
  | ports (names : List Node)
  | stepSource (step : Nat) (typed : Node)
  | outputSource (workflow : Nat) (typed : Node)

/-- A step of a workflow; `owner` is the workflow once the step belongs to it. -/
structure Step where
  id : Node
  interface : Interface
  owner : Option Nat

structure Analysis where
  problems : List Diagnostic := []
  /-- What was noted for spans; some are noted with no hint. -/
  hints : List (Option Span × Option Hint) := []
  types : Node.Entries := []
  namespaces : Node := .map .plain []
  library : Node := .list []
  workflows : List (Workflow × Workflow.Steps) := []
  steps : List Step := []

structure Context where
  path : List Node := []
  /-- What the whole document finds but does not list. -/
  unlisted : Node.Entries := []
  workflow : Option Nat := none
  step : Option Nat := none
  linked : Node := .null
  requirements : Option (List Node) := none

/-- A question about a node: the types that are allowed for it, its key, and how keys of a
map around it are fields. -/
structure Question where
  node : Node
  allowed : List CwlType
  key : Option Node := none
  map : Option MapKey := none

abbrev Inference := Question → Except Fault Meaning

def Language.inference (l : Language) : Inference := fun q => infer l q.node q.allowed q.key q.map

structure Setting where
  workspace : Workspace
  doc : Node
  language : Language
  meaning : Inference := language.inference

/-- A part of the way through a document. What it found is kept if it fails, and so is the
reader of linked files. -/
abbrev Walk := ExceptT Fault (StateT Analysis (StateM Yaml.Reader))

namespace Walk

def withLinks {α : Type} (r : Document.Reads α) : Walk α := ExceptT.mk (liftM r.run)

def report (d : Diagnostic) : Walk Unit := modify fun a => { a with problems := a.problems ++ [d] }

def reportAll (ds : List Diagnostic) : Walk Unit := ds.forM report

def reported {α : Type} (r : Reported α) : Walk α := do
  reportAll r.1
  r.2

def hint (span : Option Span) (h : Option Hint) : Walk Unit :=
  modify fun a => { a with hints := a.hints ++ [(span, h)] }

def openWorkflow (w : Workflow) : Walk Nat := do
  let a ← get
  set { a with workflows := a.workflows ++ [(w, [])] }
  pure a.workflows.length

def openStep (id : Node) : Walk Nat := do
  let a ← get
  set { a with steps := a.steps ++ [({ id, interface := {}, owner := none } : Step)] }
  pure a.steps.length

def interfaceOf (step : Nat) : Walk Interface := do
  return ((← get).steps[step]?.map (·.interface)).getD {}

def setInterface (step : Nat) (i : Interface) : Walk Unit :=
  modify fun a => { a with steps := a.steps.modify step fun s => { s with interface := i } }

def attach (workflow step : Nat) : Walk Unit :=
  modify fun a =>
    match a.steps[step]? with
    | none => a
    | some s =>
      { a with
        steps := a.steps.modify step fun s => { s with owner := some workflow }
        workflows := a.workflows.modify workflow fun w => (w.1, w.2.put s.id s.interface) }

end Walk

namespace Context

def enter (c : Context) (key : Node) : Context := { c with path := c.path ++ [key] }

def theWorkflow (c : Context) : Except Fault Nat :=
  match c.workflow with
  | some w => pure w
  | none => throw .noMember

def theStep (c : Context) : Except Fault Nat :=
  match c.step with
  | some s => pure s
  | none => throw .noMember

end Context
end CwlService
