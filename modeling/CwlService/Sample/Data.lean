import CwlService.Sample.UserTypes
import CwlService.Sample.Value

/-! # Sample data of a process

A value for each input, for each output, and in a workflow for each output of a step, named by
step and port. -/
namespace CwlService.Sample

def fieldOf (process : Node) (name : String) : Except Fault Node :=
  match process with
  | .map _ entries => pure ((Node.Entries.field? entries name).getD .null)
  | _ => throw .noMember

def outputs (process : Node) (types : Node.Entries) : Draw (List (Node × Node)) := do
  values (← fieldOf process "outputs") types

/-- Values for the outputs of what a step runs, a process or a file that holds one. The
types of a linked process are its own. -/
def stepOutputs (w : Workspace) (doc run : Node) (types : Node.Entries) :
    Draw (List (Node × Node)) := do
  match run with
  | .map .. => outputs run types
  | .text target _ =>
    let path ← w.resolve doc target
    match ← w.find path with
    | .file text =>
      let process ← withLinks (Document.reading (Yaml.Reader.load text))
      outputs process (← withTypes (UserTypes.of w (.str (path.uri w.halves)) process))
    | _ => pure []
  | _ => pure []

def stepValues (w : Workspace) (doc process : Node) (types : Node.Entries) :
    Draw (List (Node × Node)) := do
  let steps ← (Listing.asMap (← fieldOf process "steps") (.str "id")).2
  let perStep ← steps.mapM fun s => do
    let outs ← stepOutputs w doc (← fieldOf s.value "run") types
    outs.mapM fun o => do
      let stem ← joinName s.key "/"
      match o.1 with
      | .text port _ => pure (Node.str (stem ++ port), o.2)
      | _ => throw Fault.wrongKind
  pure perStep.flatten

/-- Entries as a map in which a later entry replaces an earlier one of the same name. -/
def mapOf (entries : List (Node × Node)) : Node :=
  .map .plain (entries.foldl (fun es e => Node.Entries.put es e.1 e.2) [])

def data (w : Workspace) (doc process : Node) (types : Node.Entries) : Draw Node := do
  let inputs ← values (← fieldOf process "inputs") types
  let steps ← stepValues w doc process types
  let outs ← outputs process types
  pure (.record [("inputs", mapOf (inputs ++ steps)), ("outputs", mapOf outs)])

def globbed (name : Node) : Draw Node := do
  let count ← below 5
  let files ← (List.range count).mapM fun i => do
    basic (.str (← joinName name ("/globbed_file_" ++ toString i))) (.str "File")
  pure (.list files)

/-! ## The runtime -/

/-- Whether a version is later than the first; a text that is no number is not. -/
def isLater (version : Node) : Except Fault Bool := do
  match version with
  | .text s _ =>
    match Number.float? (s.drop 1).toString with
    | some x => pure (x.toFloat > 1)
    | none => pure false
  | .bytes bs =>
    let digits := String.ofList ((bs.drop 1).map fun b => Char.ofNat b.toNat)
    if (bs.drop 1).any (· ≥ 128) then pure false
    else pure ((Number.float? digits).any fun x => x.toFloat > 1)
  | _ => throw .wrongKind

def runtime (process : Node) (path : List Node) : Except Fault Node := do
  let machine : List (String × Node) :=
    [("outdir", .str "/out/dir"), ("tmpdir", .str "/tmp/dir"), ("cores", .num 4), ("ram", .num 1024),
      ("outdirSize", .num 2048), ("tmpdirSize", .num 4096)]
  if path.any fun k => k.isName "outputEval" then
    if ← isLater (← fieldOf process "cwlVersion") then
      return .record (machine ++ [("exitCode", .num 1)])
  pure (.record machine)

end CwlService.Sample
