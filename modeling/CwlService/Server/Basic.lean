import CwlService.Protocol.Objects
import CwlService.Rpc.Connection
import CwlService.Text.Md5

/-! # The state of a server

While a server serves a message it may send messages of its own, log, and write files; all that
stays so if serving fails. -/
namespace CwlService

structure Server where
  site : Site
  catalog : Language.Catalog
  engine : Script.Engine := Script.engine
  listed : List String → List String := id
  greeted : Bool := false
  running : Bool := true
  /-- The open documents by address, every address once. -/
  documents : List (Node × Document) := []

inductive Trouble where
  | link (fault : Rpc.ConnectionFault)
  | fault (fault : Fault)

inductive Event where
  | log (entry : LogEntry)
  | unexpected (trouble : Trouble)

structure Session where
  server : Server
  sent : List Node := []
  events : List Event := []
  written : List Path := []
  /-- Whether serving a message never ends. -/
  held : Bool := false

abbrev Serving := ExceptT Fault (StateM Session)

namespace Session

def note (s : Session) (e : Event) : Session := { s with events := s.events ++ [e] }

end Session

namespace Serving

def log (entries : List LogEntry) : Serving Unit :=
  modify fun s => { s with events := s.events ++ entries.map .log }

def send (message : Node) : Serving Unit := do
  if (Json.text? message).isNone then throw .wrongKind
  modify fun s => { s with sent := s.sent ++ [message] }

/-- A message is never done with, so it is not answered. -/
def hold : Serving (Option Node) := do
  modify fun s => { s with held := true }
  pure none

def changeServer (f : Server → Server) : Serving Unit :=
  modify fun s => { s with server := f s.server }

def onSite {α : Type} (w : StateM Site α) : Serving α := do
  let (a, site) := w.run (← get).server.site
  changeServer fun s => { s with site }
  pure a

def document (uri : Node) : Serving Document := do
  if !uri.isKey then throw .wrongKind
  match (← get).server.documents.find? fun e => e.1.same uri with
  | some (_, d) => pure d
  | none => throw (.missingKey uri)

def put (uri : Node) (d : Document) : List (Node × Document) → List (Node × Document)
  | [] => [(uri, d)]
  | e :: rest => if e.1.same uri then (e.1, d) :: rest else e :: put uri d rest

def keep (uri : Node) (d : Document) : Serving Unit := do
  if !uri.isKey then throw .wrongKind
  changeServer fun s => { s with documents := put uri d s.documents }

def close (uri : Node) : Serving Unit :=
  changeServer fun s => { s with documents := s.documents.filter fun e => !e.1.same uri }

def writeFile (path : Path) (text : String) : Serving Unit :=
  modify fun s =>
    { s with
      server.site.workspace := s.server.site.workspace.write path text
      written := s.written ++ [path] }

end Serving

/-! ## What a client can ask for

The name of a method has slashes, which count as low lines. -/
namespace Server

inductive Method where
  | introduction
  | introduced
  | shutdown
  | opened
  | changed
  | closed
  | completion
  | definition
  | outline
  | hover
  | missing
  | unknown (name : String)
  deriving DecidableEq, Repr

namespace Method

def introductionName : String := "initialize"

def ofName (name : String) : Method :=
  match String.ofList (name.toList.map fun c => if c == '/' then '_' else c) with
  | "initialize" => .introduction
  | "initialized" => .introduced
  | "shutdown" => .shutdown
  | "textDocument_didOpen" => .opened
  | "textDocument_didChange" => .changed
  | "textDocument_didClose" => .closed
  | "textDocument_completion" => .completion
  | "textDocument_definition" => .definition
  | "textDocument_documentSymbol" => .outline
  | "textDocument_hover" => .hover
  | "noMethod" => .missing
  | _ => .unknown name

end Method

/-! ## What the server can do -/

def capabilities : Node :=
  let yes := Node.bool true
  .record [("capabilities", .record [
    ("textDocumentSync", .num 1),
    ("completionProvider", .record [("resolveProvider", yes),
      ("triggerCharacters", .list [.str ".", .str "/"])]),
    ("hoverProvider", yes),
    ("definitionProvider", yes),
    ("referencesProvider", yes),
    ("documentSymbolProvider", yes),
    ("workspaceSymbolProvider", yes),
    ("streaming", yes),
    ("codeActionProvider", .record [("codeActionKinds", .list [.str "source"])]),
    ("workspace", .record [("workspaceFolders", .record [("supported", yes),
      ("changeNotifications", yes)])]),
    ("xfilesProvider", yes)])]

end Server
end CwlService
