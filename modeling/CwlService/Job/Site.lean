import CwlService.Sample.Data
import CwlService.Yaml.Write

/-! # Where documents are worked on

A writer that could not write some data stays with the file where it failed: what it writes
later goes there too, over whatever the file holds by then. -/
namespace CwlService

/-- The file that a writing failed on, and how many bytes were written to it since. -/
structure StuckWriter where
  path : Path
  position : Nat

structure Site where
  workspace : Workspace
  draws : Nat := 0
  readers : Readers := {}
  writes : Yaml.Dialect → Yaml.Layout → Node → Except Yaml.WriteFault String := Yaml.write
  jobWriter : Option StuckWriter := none
  /-- Whether showing a type has failed before: later types then show nothing. -/
  typeWriterStuck : Bool := false

/-- Work on a document: it may change the surroundings, also when it fails. -/
abbrev Work := ExceptT Fault (StateM Site)

namespace Work

def draw {α : Type} (d : Sample.Draw α) : Work α := do
  let site ← get
  let (r, supply) := d.run.run ⟨site.draws, { site.readers with }⟩
  set { site with draws := supply.state, readers := supply.readers.toReaders }
  r

def readJob (text : String) : Work Node := do
  let site ← get
  let (r, jobs) := (Document.reading (Yaml.Reader.load text)).run.run site.readers.jobs
  set { site with readers.jobs := jobs }
  r

def writeFile (path : Path) (text : String) : Work Unit := do
  let s ← get
  match s.workspace.entryAt path.flat with
  | .directory => throw .isDirectory
  | _ => set { s with workspace := s.workspace.write path text }

def prepare (path : Path) : Work Unit := do
  if path.names.dropLast.any fun n => n.toList.contains '\x00' then throw .badValue
  let site ← get
  let (workspace, r) := site.workspace.makeDirectory path.names.dropLast
  set { site with workspace }
  r
  if path.name.toList.contains '\x00' then throw .badValue
  if Workspace.isLong path.name then throw .nameTooLong

def readFile? (path : Path) : Work (Option String) := do
  match ← (← get).workspace.find path with
  | .file text => if Text.isReadable text then pure (some text) else throw .undecodable
  | .directory => throw .isDirectory
  | .nothing => pure none

def unwritten : Yaml.WriteFault → Fault
  | .unwritable => .unwritable
  | .unknownVersion v => .text (.unknownVersion v)

def writeData (path : Path) (data : Node) : Work Unit := do
  prepare path
  let s ← get
  match s.jobWriter, s.writes s.readers.jobs.dialect .saved data with
  | none, .ok text => writeFile path text
  | none, .error f =>
    writeFile path ""
    modify fun s => { s with jobWriter := some ⟨path, 0⟩ }
    throw (unwritten f)
  | some stuck, .ok text =>
    let added := Text.bytes ((if stuck.position = 0 then "" else "---\n") ++ text)
    set { s with
      workspace := s.workspace.overwrite stuck.path stuck.position added
      jobWriter := some { stuck with position := stuck.position + added.length } }
  | some _, .error f => throw (unwritten f)

def showType (definition : Node) : Work String := do
  let s ← get
  match s.writes s.readers.links.dialect .shown definition with
  | .ok text => return if s.typeWriterStuck then "" else text
  | .error f =>
    modify fun s => { s with typeWriterStuck := true }
    throw (unwritten f)

end Work
end CwlService
