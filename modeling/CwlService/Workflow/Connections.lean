import CwlService.Workflow.Basic

/-! # Connections of a workflow

A source is an input of the workflow, or an output of another step written as `step/port`. One
that is none of these is a problem, and so is an input that nothing uses. -/
namespace CwlService.Workflow

structure Tally where
  unused : NameSet
  problems : List Diagnostic

abbrev Checking := ExceptT Fault (StateM Tally)

def report (d : Diagnostic) : Checking Unit := modify fun t => { t with problems := t.problems ++ [d] }

/-- What is wrong with a source that is no input of the workflow, if anything; `step` is the
step that takes it. -/
def sourceFault? (w : Workflow) (known : Steps) (step : Option Node) (src : Node) :
    Except Fault (Option Message) :=
  let noInput := some (w.inputNames.listedIn "No such workflow input. Expecting one of ")
  match src with
  | .text s _ =>
    match Text.parts '/' s with
    | [_] => pure noInput
    | [from_, port] =>
      if step.any fun id => id.isName from_ then pure (some "Port can not connect to same step")
      else
        match known.get? (.str from_) with
        | none => pure (some ("No step called " ++ from_))
        | some i =>
          if i.outputs.contains (.str port) then pure none
          else pure (some (from_ ++ " has no port called " ++ port))
    | _ => throw .badValue
  | _ => pure noInput

def checkTarget (w : Workflow) (known : Steps) (step : Option Node) (src : Node) (span : Span) :
    Checking Unit := do
  if w.inputNames.contains src then return
  match ← sourceFault? w known step src with
  | none => pure ()
  | some message => report (.error (some span) message)

def checkSource (w : Workflow) (known : Steps) (step : Option Node) (src : Node) (span : Span) :
    Checking Unit := do
  if src.isNull then return
  if !src.isKey then throw .wrongKind
  modify fun t => { t with unused := t.unused.erase src }
  checkTarget w known step src span

def checkSources (w : Workflow) (known : Steps) (step : Option Node) (list : Node) :
    Nat → Node.Items → Checking Unit
  | _, [] => pure ()
  | index, (_, src) :: rest => do
    let span ← list.itemSpan index
    checkSource w known step src span
    checkSources w known step list (index + 1) rest

def checkWritten (w : Workflow) (known : Steps) (step : Option Node) (src : Node) (span : Span) :
    Checking Unit :=
  match src with
  | .seq _ items => checkSources w known step src 0 items
  | .text _ _ => checkSource w known step src span
  | _ => pure ()

def checkPort (w : Workflow) (known : Steps) (step : Option Node) (field : String) (port : Node)
    (span : Span) : Checking Unit := do
  let (src, span) ← match port with
    | .text _ _ | .seq _ _ => pure (port, span)
    | .map _ es =>
      match Node.Entries.field? es field with
      | some src => pure (src, ← port.valueSpan (.str field))
      | none => pure (.null, span)
    | _ => pure (.null, span)
  checkWritten w known step src span

def checkStepPorts (w : Workflow) (known : Steps) (id : Node) (i : Interface) (ports : Listing) :
    List ListingEntry → Checking Unit
  | [] => pure ()
  | e :: rest => do
    if i.inputs.contains e.key then
      checkPort w known (some id) "source" e.value (← ports.valueSpan e)
    else
      report (.error (some (← ports.idSpan e))
        (if i.inputs.isEmpty then "No input ports found for this step"
          else i.inputs.listedIn "Expecting one of: "))
    checkStepPorts w known id i ports rest

/-- Checks a step. It must belong to a workflow. -/
def checkStep (w? : Option Workflow) (known : Steps) (id : Node) (i : Interface) (ports : Listing) :
    Checking Unit := do
  match w? with
  | none => throw .unattached
  | some w => checkStepPorts w known id i ports ports.entries

def checkSteps (w : Workflow) (known : Steps) : List ListingEntry → Checking Unit
  | [] => pure ()
  | e :: rest => do
    match known.get? e.key, e.value with
    | some i, .map _ es =>
      let ports ← (Listing.of ((Node.Entries.field? es "in").getD .null) (.str "id")).2
      checkStep (some w) known e.key i ports
    | _, _ => pure ()
    checkSteps w known rest

def checkOutputs (w : Workflow) (known : Steps) (outputs : Listing) :
    List ListingEntry → Checking Unit
  | [] => pure ()
  | e :: rest => do
    checkPort w known none "outputSource" e.value (← outputs.valueSpan e)
    checkOutputs w known outputs rest

/-- Whether an input is among those that no source has named. A key that is not even equal
to itself is named by none. -/
def isUnused (unused : NameSet) (e : ListingEntry) : Bool :=
  unused.contains e.key || !e.key.same e.key

def reportUnused (inputs : Listing) (unused : NameSet) : List ListingEntry → Checking Unit
  | [] => pure ()
  | e :: rest => do
    if isUnused unused e then report (.warning (some (← inputs.idSpan e)) "Unused input")
    reportUnused inputs unused rest

def checkAll (w : Workflow) (known : Steps) : Checking Unit := do
  let steps ← (Listing.of w.steps (.str "id")).2
  checkSteps w known steps.entries
  let outputs ← (Listing.of w.outputs (.str "id")).2
  checkOutputs w known outputs outputs.entries
  let inputs ← (Listing.of w.inputs (.str "id")).2
  reportUnused inputs (← get).unused (Listing.sorted inputs.entries)

def connectionProblems (w : Workflow) (known : Steps) : Reported Unit :=
  let (r, t) := (checkAll w known).run.run ⟨w.inputNames, []⟩
  (t.problems, r)

/-! ## Completion of sources -/

/-- The sources that can follow what is typed: names of steps and inputs, or after a slash
the outputs of the step in front of it. A step does not take its own outputs by name, and
where there is no step a port without a name is left out. -/
def sourceLabels (w : Workflow) (known : Steps) (step : Option Node) (typed : Node) :
    Except Fault (Option (List Node)) :=
  let names := some ((known.map (·.1) ++ w.inputNames.members).filter fun n =>
    !n.same (step.getD .null))
  match typed with
  | .text s _ =>
    match Text.parts '/' s with
    | [_] => pure names
    | [from_, _] => pure ((known.get? (.str from_)).map fun i => i.outputs.members)
    | _ => throw .badValue
  | .seq _ items => if items.any fun i => i.2.isName "/" then throw .noMember else pure names
  | .map _ es => if es.any fun e => e.1.isName "/" then throw .noMember else pure names
  | .set _ members => if members.any fun m => m.isName "/" then throw .noMember else pure names
  | _ => throw .wrongKind

end CwlService.Workflow
