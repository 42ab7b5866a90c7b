import CwlService.Job.Site

/-! # Sample data of a document

A job file whose first line starts with `#custom` belongs to the user and counts; otherwise
data are generated once and written there. -/
namespace CwlService

/-- A process whose expressions are evaluated, and the sample data it was given last. -/
structure Job where
  doc : Node
  process : Node
  types : Node.Entries
  cached : Option Node := none

namespace Job

abbrev Task := ExceptT Fault (StateM (Site × Option Node))

def onSite {α : Type} (w : Work α) : Task α := do
  let (site, cached) ← get
  let (r, site) := w.run.run site
  set (site, cached)
  r

def extension : String := ".benten.test.job.yml"

/-- Where the job file of a document is: at the path of the document, below the scratch
directory and with an extension of its own. -/
def path (scratch : Path) (doc : Node) : Except Fault Path := do
  let p ← Workspace.documentPath doc
  let some p := p.withSuffix? extension | throw .badValue
  pure ⟨scratch.root, scratch.names ++ (if p.isAbsolute then p.names else p.names.drop 1)⟩

def isCustom (text : String) : Bool := text.startsWith "#custom"

/-- What is kept of data that were read. Null counts as nothing. -/
def kept (n : Node) : Option Node := if n.isNull then none else some n

def keptOrNew (job : Job) (file : Path) : Task Node := do
  match (← get).2 with
  | some n => pure n
  | none =>
    let n ← onSite (Work.draw (Sample.data (← get).1.workspace job.doc job.process job.types))
    modify fun s => (s.1, some n)
    onSite (Work.writeData file n)
    pure n

def data (job : Job) : Task Node := do
  let file ← path (← get).1.workspace.scratch job.doc
  match (← onSite (Work.readFile? file)).filter isCustom with
  | some text =>
    let n ← onSite (Work.readJob (Text.newlinesText text))
    modify fun s => (s.1, kept n)
    pure n
  | none => job.keptOrNew file

/-! ## Parts of sample data -/

def entryOf (n : Node) (key : Node) : Except Fault Node :=
  match n with
  | .map _ es => pure ((Node.Entries.value? es key).getD .null)
  | _ => throw .noMember

/-- The value at a key or a position, which has to be there. -/
def itemOf (n : Node) (key : Node) : Except Fault Node :=
  match n with
  | .map _ es =>
    match Node.Entries.value? es key with
    | some v => pure v
    | none => throw (.missingKey key)
  | .seq _ items =>
    match key with
    | .int i _ =>
      match items[(if i < 0 then i + items.length else i).toNat]? with
      | some v => if i + items.length < 0 then throw .outOfRange else pure v.2
      | none => throw .outOfRange
    | _ => throw .wrongKind
  | .text s _ =>
    match key with
    | .int i _ =>
      match s.toList[(if i < 0 then i + s.length else i).toNat]? with
      | some c => if i + s.length < 0 then throw .outOfRange else pure (.str (String.singleton c))
      | none => throw .outOfRange
    | _ => throw .wrongKind
  | _ => throw .wrongKind

def inputs (job : Job) : Task Node := do itemOf (← job.data) (.str "inputs")

def outputs (job : Job) : Task Node := do itemOf (← job.data) (.str "outputs")

def keyAt (path : List Node) (i : Nat) : Except Fault Node :=
  match path[i]? with
  | some k => pure k
  | none => throw .outOfRange

def sourceValue (values source : Node) : Except Fault Node := do
  let .map _ es := values | throw .noMember
  if !source.isKey then throw .wrongKind
  pure ((Node.Entries.value? es source).getD .null)

/-- The value of a port of a step, a list of values for a list of sources. -/
def portValue (values port : Node) : Except Fault Node := do
  let source := match port with
    | .map _ es => (Node.Entries.field? es "source").getD .null
    | n => n
  match source with
  | .seq _ items => return .list (← items.mapM fun i => sourceValue values i.2)
  | n => sourceValue values n

/-- The inputs of the step that a path leads into, and the value of the port on the path. -/
def stepInputs (job : Job) (path : List Node) : Task (Node × Node) := do
  let step ← keyAt path 1
  let values ← job.inputs
  let steps ← (Listing.asMap (← Sample.fieldOf job.process "steps") (.str "id")).2
  match Listing.get? steps step with
  | none => throw .noMember
  | some e =>
    let ports ← (Listing.asMap (← Sample.fieldOf e.value "in") (.str "id")).2
    let given ← ports.mapM fun p => return (p.key, ← portValue values p.value)
    let own ← keyAt path 3
    pure (.dict given, ((given.find? fun g => g.1.same own).map (·.2)).getD .null)

end Job
end CwlService
