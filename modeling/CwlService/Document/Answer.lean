import CwlService.Document.Basic
import CwlService.Expression.Evaluate
import CwlService.Text.CommandWords

/-! # Questions about a place

The first hint whose span holds the place answers. -/
namespace CwlService.Document

/-- Where a client points to: two numbers if the client is sound. -/
structure Caret where
  line : Node
  character : Node

namespace Caret

def ofPlace (p : Place) : Caret := ⟨.num p.line, .num p.column⟩

/-- How a number compares with what a client gave; what is no number cannot be compared. -/
def against (bound : Int) (given : Node) : Except Fault (Option Ordering) :=
  match given.number? with
  | some (.inl n) => pure (some (compare n bound))
  | some (.inr x) =>
    pure (if x.isNaN then none else some (compare (Node.rank (.inr x)) (Node.rank (.inl bound))))
  | none => throw .wrongKind

/-- Whether a span holds the place. The character matters only on the first and the last
line. -/
def isIn (c : Caret) (span : Span) : Except Fault Bool := do
  let fromStart ← against span.start.line c.line
  if fromStart != some .gt && fromStart != some .eq then return false
  let toStop ← against span.stop.line c.line
  if toStop != some .lt && toStop != some .eq then return false
  let begun ← if fromStart == some .gt then pure true
    else (against span.start.column c.character).map fun o => o.any (· != .lt)
  if !begun then return false
  if toStop == some .lt then return true
  return (← against span.stop.column c.character).any (· != .gt)

end Caret

/-- The hint of the first span that holds a place. What was noted without a span cannot be passed by. -/
def hintAt (place : Caret) : List (Option Span × Option Hint) → Except Fault (Option Hint)
  | [] => pure none
  | (none, _) :: _ => throw .noMember
  | (some span, h) :: rest => do if ← place.isIn span then pure h else hintAt place rest

def hint? (d : Document) (place : Caret) : Except Fault (Option Hint) := hintAt place d.analysis.hints

/-! ## Completion -/

def namesBelow (w : Workspace) (dir : Path) : List (String × Bool) :=
  let below := w.files.filterMap fun f =>
    if dir.names.isPrefixOf f.1 then (f.1.drop dir.names.length).head? else none
  below.eraseDups.map fun n =>
    (n, match w.look ⟨dir.root, dir.names ++ [n]⟩ with
      | .directory => true
      | _ => false)

def suffixOf (name : String) : String := (name.drop (Path.stem name).length).toString

def linkLabels (w : Workspace) (l : Link) : Except Fault (List String × List LogEntry) := do
  let some file := l.file | pure ([], [])
  let some words := Text.commandWords? l.target | throw .badValue
  let some first := words.head? | throw .outOfRange
  let dir := match w.look file with
    | .directory => file
    | _ => file.parent
  match w.look dir with
  | .nothing => pure ([], [.error ("No path called: " ++ dir.text)])
  | .file _ => throw .notDirectory
  | .directory =>
    let lead := if first == "." || first == ".." then "/" else ""
    let fitting := (namesBelow w dir).filter fun (n, isDir) =>
      isDir || l.extension.all fun e => suffixOf n == e
    pure (fitting.map fun f => lead ++ f.1, [])

/-- The sources that a hint offers, for a workflow that may not be there yet. -/
def sourceLabels (a : Analysis) (workflow : Option Nat) (step : Option Node) (typed : Node) :
    Except Fault (Option (List Node)) :=
  match workflow.bind fun i => a.workflows[i]? with
  | some (w, known) => w.sourceLabels known step typed
  | none => do
    discard (Workflow.sourceLabels default [] step typed)
    throw .noMember

def hintLabels (w : Workspace) (a : Analysis) :
    Hint → Except Fault (Option (List Node) × List LogEntry)
  | .fields names => pure (some (names.map .str), [])
  | .symbols names => pure (some names, [])
  | .dataType names _ => pure (some names, [])
  | .expression .. => pure (some [], [])
  | .link l => do let (ls, logs) ← linkLabels w l; pure (some (ls.map .str), logs)
  | .typeLink l => do let (ls, logs) ← linkLabels w l; pure (some (ls.map .str), logs)
  | .unknownRequirement names => pure (some names, [])
  | .requirement names => pure (some names, [])
  | .ports names => pure (some names, [])
  | .stepSource s typed => do
    let step := a.steps[s]?
    return (← sourceLabels a (step.bind (·.owner)) (step.map (·.id)) typed, [])
  | .outputSource i typed => do return (← sourceLabels a (some i) none typed, [])

def completion (d : Document) (w : Workspace) (place : Caret) :
    Except Fault (Option (List Node) × List LogEntry) := do
  match ← d.hint? place with
  | none => pure (none, [])
  | some h => hintLabels w d.analysis h

/-! ## Hover -/

structure Hover where
  text : String
  span : Option Span

namespace Hover

def value (h : Hover) : String := "\x60\x60\x60\n" ++ h.text ++ "\n\x60\x60\x60"

end Hover

def onPath (path : List Node) (name : String) : Bool := path.any fun k => k.isName name

/-- The inputs and the own value of an expression at a path. -/
def selfOf (job : Job) (path : List Node) (inputs outputs : Node) : Job.Task (Node × Node) := do
  let inStep := onPath path "in"
  if !inStep && ["secondaryFiles", "position", "valueFrom"].any (onPath path) then
    if onPath path "inputs" then return (inputs, ← Job.entryOf inputs (← Job.keyAt path 1))
    else if onPath path "outputs" then return (inputs, ← Job.itemOf outputs (← Job.keyAt path 1))
    else return (inputs, .null)
  else if !inStep && onPath path "outputEval" then
    let name ← Job.keyAt path 1
    return (inputs, ← Job.onSite (Work.draw (Sample.globbed name)))
  else if inStep && onPath path "valueFrom" then job.stepInputs path
  else return (inputs, .null)

/-- The same, where a path that is too short gives no value of its own. -/
def selfOrNothing (job : Job) (path : List Node) (inputs outputs : Node) : Job.Task (Node × Node) :=
  tryCatch (selfOf job path inputs outputs) fun
    | .outOfRange => pure (inputs, .null)
    | .badValue => pure (inputs, .null)
    | f => throw f

def evaluated (engine : Script.Engine) (job : Job) (library : Node) (text : String) (path : List Node) :
    Job.Task (Option (Except Fault String × List LogEntry)) := do
  let inputs ← job.inputs
  let outputs ← job.outputs
  let (inputs, self) ← selfOrNothing job path inputs outputs
  if inputs.truthy then
    let runtime ← Sample.runtime job.process path
    return Expression.evaluateText engine ⟨library, runtime, inputs, self⟩ text
  else return some (.ok Expression.noInputs, [])

/-- Does a task of a document, which then knows the sample data of the task. -/
def perform {α : Type} (d : Document) (task : Job → Job.Task α) : StateM Site (Except Fault α × Document) := do
  match d.job with
  | .error f => pure (.error f, d)
  | .ok job =>
    let site ← get
    let (r, site, sample) := (task job).run.run (site, d.sample)
    set site
    pure (r, { d with sample })

/-- The outcome of asking what is shown for a place: what the document is then, what was
logged, and what is shown. There is none if a script does not end. -/
structure Hovered where
  document : Document
  logs : List LogEntry
  outcome : Option (Except Fault (Option Hover))

def hintHover (d : Document) (engine : Script.Engine) : Hint → StateM Site Hovered
  | .dataType _ (some definition) => do
    let r ← (Work.showType definition).run
    return ⟨d, [], some (r.map fun text => some ⟨text, none⟩)⟩
  | .expression text path span => do
    match ← d.perform fun job => evaluated engine job d.analysis.library text path with
    | (.error f, d) => return ⟨d, [], some (.error f)⟩
    | (.ok none, d) => return ⟨d, [], none⟩
    | (.ok (some (r, logs)), d) => return ⟨d, logs, some (r.map fun shown => some ⟨shown, span⟩)⟩
  | .link l => return ⟨d, [], some (.ok (some ⟨l.contents, none⟩))⟩
  | .typeLink l => return ⟨d, [], some (.ok (some ⟨l.contents, none⟩))⟩
  | _ => return ⟨d, [], some (.ok none)⟩

def hover (d : Document) (engine : Script.Engine) (place : Caret) : StateM Site Hovered :=
  match d.hint? place with
  | .error f => return ⟨d, [], some (.error f)⟩
  | .ok none => return ⟨d, [], some (.ok none)⟩
  | .ok (some h) => d.hintHover engine h

/-! ## Definition -/

def hintTarget (d : Document) (w : Workspace) : Hint → Except Fault (Option String)
  | .link l => pure (l.file.map (·.uri w.halves))
  | .typeLink l => pure (l.file.map (·.uri w.halves))
  | .expression .. => do return some ((← Job.path w.scratch d.uri).uri w.halves)
  | _ => pure none

def definition (d : Document) (w : Workspace) (place : Caret) : Except Fault (Option String) := do
  match ← d.hint? place with
  | none => pure none
  | some h => d.hintTarget w h

end CwlService.Document
