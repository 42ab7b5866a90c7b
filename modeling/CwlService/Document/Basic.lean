import CwlService.Analysis.Walk
import CwlService.Job.Data
import CwlService.Outline.Symbols
import CwlService.Workflow.Graph

/-! # Documents

A new text renews everything, except that the drawing of a workflow stays until there is a
new one. When a text cannot be worked on to the end, what was found up to there is kept. -/
namespace CwlService

structure Document where
  uri : Node
  text : String := ""
  problems : List Diagnostic := []
  analysis : Analysis := {}
  symbols : List Outline.Symbol := []
  graph : Option FlowGraph := none
  /-- The data of the text, if it is a map. -/
  process : Option Node := none
  sample : Option Node := none

namespace Document

/-- The language of a version; an unknown version is logged and read as the latest. -/
def languageFor (catalog : Language.Catalog) (version : Node) :
    Except Fault (Language × List LogEntry) := do
  if !version.isKey then throw .wrongKind
  match version.text?.bind fun v => catalog.lookup v with
  | some l => pure (l, [])
  | none =>
    match catalog.lookup Language.latest with
    | some l =>
      pure (l, [.error ("No language model for cwl version " ++ version.shown ++ ". Using " ++
        Language.latest)])
    | none => throw .noMember

/-- The number of line breaks of a text. -/
def breaks (text : String) : Int := (text.toList.filter (· == '\n')).length

def symbolsOf (loaded : Yaml.Reader.Loaded) (text : String) : Except Fault (List Outline.Symbol) := do
  let kind := (loaded.full.field? "class").getD .null
  if Language.processTypes.any kind.isName then
    let syms ← Outline.symbols loaded.node (breaks text)
    let syms ← (if kind.isName "Workflow" then Outline.withSteps loaded.full syms else pure syms)
    pure (syms.map (·.2))
  else pure []

/-- The symbols and the drawing of a process; the symbols are kept if the drawing fails. -/
def outlined (d : Document) (loaded : Yaml.Reader.Loaded) : Document × Except Fault Unit :=
  match symbolsOf loaded d.text with
  | .error f => (d, .error f)
  | .ok symbols =>
    let d := { d with symbols }
    match FlowGraph.of loaded.full with
    | .error f => (d, .error f)
    | .ok g => ({ d with graph := some g }, .ok ())

/-- The outcome of giving a document a new text: what the document is then, what was
logged, and whether the text was worked on to the end. -/
structure Updated where
  document : Document
  logs : List LogEntry
  outcome : Except Fault Unit

/-- What is known about a process before the way through it. -/
def beginning (problems : List Diagnostic) (entries : Node.Entries) : Analysis :=
  { problems, namespaces := (entries.field? "$namespaces").getD (.map .plain []) }

/-- A document that nothing is known about, apart from its problems and its drawing. -/
def forgotten (d : Document) : Document :=
  { d with analysis := {}, symbols := [], process := none, sample := none }

def readText (text : Node) : StateM Site (Except Fault (Yaml.Reader.Loaded × List Diagnostic)) := do
  let site ← get
  let (r, documents) := (readNode repairs text).run.run site.readers.documents
  set { site with readers.documents := documents }
  pure r

def walkThrough (env : Setting) (loaded : Yaml.Reader.Loaded) (start : Analysis) :
    StateM Site (Except Fault Unit × Analysis) := do
  let site ← get
  let (r, links) := ((Analysis.walk env loaded).run.run start).run site.readers.links
  set { site with readers.links := links }
  pure r

def explore (d : Document) (loaded : Yaml.Reader.Loaded) (problems : List Diagnostic)
    (catalog : Language.Catalog) : StateM Site Updated := do
  let d := { d with problems }
  match loaded.node with
  | .map _ entries =>
    let start := beginning problems entries
    let process := loaded.full
    let d := { d with process := some process, analysis := start }
    match languageFor catalog ((process.field? "cwlVersion").getD .null) with
    | .error f => return ⟨d, [], .error f⟩
    | .ok (language, logs) =>
      let (r, analysis) ← walkThrough { workspace := (← get).workspace, doc := d.uri, language } loaded start
      let d := { d with analysis, problems := analysis.problems }
      match r with
      | .error f => return ⟨d, logs, .error f⟩
      | .ok () =>
        let (d, outcome) := d.outlined loaded
        return ⟨d, logs, outcome⟩
  | _ => return ⟨d, [], .ok ()⟩

def update (d : Document) (text : Node) (catalog : Language.Catalog) : StateM Site Updated := do
  let d := { d.forgotten with text := text.text?.getD "" }
  match ← readText text with
  | .error f => return ⟨d, [], .error f⟩
  | .ok (loaded, problems) => d.explore loaded problems catalog

def new (uri text : Node) (catalog : Language.Catalog) : StateM Site Updated :=
  update { uri } text catalog

def job (d : Document) : Except Fault Job :=
  match d.process with
  | some process => pure { doc := d.uri, process, types := d.analysis.types }
  | none => throw .noMember

end Document
end CwlService
