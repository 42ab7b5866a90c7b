import CwlService.Server.Basic

/-! # Serving a message

A message with a number is answered once, one without never. Before the client has introduced
itself nothing else is served, and it does so once. -/
namespace CwlService.Server

open Serving

/-! ## Parts of messages -/

def fieldOf (n : Node) (name : String) : Except Fault Node :=
  match n with
  | .map _ es =>
    match Node.Entries.field? es name with
    | some v => pure v
    | none => throw (.missingKey (.str name))
  | _ => throw .wrongKind

/-- The parameters of a message, and the address of the document they are about. -/
def target (message : Node) : Except Fault (Node × Node × Node) := do
  let params ← fieldOf message "params"
  let doc ← fieldOf params "textDocument"
  let uri ← fieldOf doc "uri"
  pure (params, doc, uri)

/-- A place: a line and a character and nothing else. -/
def placeOf (n : Node) : Except Fault Document.Caret := do
  let .map _ es := n | throw .wrongKind
  match Node.Entries.field? es "line", Node.Entries.field? es "character", es.length with
  | some line, some character, 2 => pure ⟨line, character⟩
  | _, _, _ => throw .wrongKind

def question (message : Node) : Serving (Node × Document × Document.Caret) := do
  let (params, _, uri) ← target message
  let place ← placeOf (← fieldOf params "position")
  let d ← document uri
  pure (uri, d, place)

/-! ## Texts -/

def publish (uri : Node) (d : Document) : Serving Unit := do
  send (Rpc.notification (.str "textDocument/publishDiagnostics")
    (Protocol.problems (← get).server.listed uri d.problems))

/-- What is read of a message before a document is opened. -/
def openedParts (message : Node) : Except Fault (Node × Node) := do
  let (_, doc, uri) ← target message
  let text ← fieldOf doc "text"
  let _ ← fieldOf doc "version"
  pure (uri, text)

/-- What is done with a document that is opened. -/
def opening (uri : Node) (w : StateM Site Document.Updated) : Serving Node := do
  let u ← onSite w
  log u.logs
  u.outcome
  keep uri u.document
  publish uri u.document
  pure .null

/-- A document is opened. It counts as open only if its text was worked on to the end. -/
def serveOpened (message : Node) : Serving Node := do
  let found ← openedParts message
  opening found.1 (Document.new found.1 found.2 (← get).server.catalog)

def fullTextsOnly : LogEntry := .error "Server can currently only handle full text updates"

def noteFullTexts (cut : Bool) : Serving Unit := if cut then log [fullTextsOnly] else pure ()

/-- The first of the changes; others are not looked at. -/
def firstChange (changes : Node) : Serving Node := do
  match changes with
  | .seq _ items =>
    noteFullTexts (items.length > 1)
    match items.head? with
    | some c => pure c.2
    | none => throw .outOfRange
  | .map _ es =>
    noteFullTexts (es.length > 1)
    throw (.missingKey (.num 0))
  | .text s _ =>
    noteFullTexts (s.length > 1)
    match s.toList.head? with
    | some c => pure (.str (String.singleton c))
    | none => throw .outOfRange
  | _ => throw .wrongKind

def changesPart (change : Node) : Except Fault Bool :=
  match change with
  | .map _ es => pure (es.any fun e => e.1.isName "range" || e.1.isName "rangeLength")
  | .seq _ items => pure (items.any fun i => i.2.isName "range" || i.2.isName "rangeLength")
  | .text s _ => pure ((s.splitOn "range").length > 1)
  | _ => throw .wrongKind

/-- What is looked up for a change before its text is worked on. -/
def changedParts (message : Node) : Serving (Node × Document × Node) := do
  let (params, _, uri) ← target message
  let change ← firstChange (← fieldOf params "contentChanges")
  noteFullTexts (← changesPart change)
  let d ← document uri
  let text ← fieldOf change "text"
  pure (uri, d, text)

/-- What is done with a document that changes. -/
def changing (uri : Node) (w : StateM Site Document.Updated) : Serving Node := do
  let u ← onSite w
  log u.logs
  keep uri u.document
  u.outcome
  publish uri u.document
  pure .null

/-- The text of a document changes. What was found out about the text is kept, also if it
was not worked on to the end. -/
def serveChanged (message : Node) : Serving Node := do
  let found ← changedParts message
  changing found.1 (found.2.1.update found.2.2 (← get).server.catalog)

def serveClosed (message : Node) : Serving Node := do
  let (_, _, uri) ← target message
  discard (document uri)
  close uri
  pure .null

/-! ## Questions -/

def serveCompletion (message : Node) : Serving Node := do
  let (_, d, place) ← question message
  let (labels, logs) ← d.completion (← get).server.site.workspace place
  log logs
  match labels with
  | none => pure .null
  | some ls => pure (.list (ls.map fun l => Protocol.CompletionItem.toNode { label := l }))

/-- What is answered when something was to be shown. -/
def answered (h : Document.Hovered) : Serving (Option Node) := do
  log h.logs
  match h.outcome with
  | none => hold
  | some outcome => return some (match ← outcome with
    | none => .null
    | some h => Protocol.hover h)

/-- The document is kept before anything is answered. -/
def shown (uri : Node) (h : Document.Hovered) : Serving (Option Node) := do
  keep uri h.document
  answered h

def serveHover (message : Node) : Serving (Option Node) := do
  let (uri, d, place) ← question message
  shown uri (← onSite (d.hover (← get).server.engine place))

def serveDefinition (message : Node) : Serving Node := do
  let (_, d, place) ← question message
  match ← d.definition (← get).server.site.workspace place with
  | none => pure .null
  | some uri => pure (Protocol.location uri)

/-- Where the drawing of a document is put for the client. -/
def drawingPath (scratch : Path) (uri : String) : Path :=
  ⟨scratch.root, scratch.names ++ [Text.Md5.ofText uri ++ ".json"]⟩

/-- Writes the drawing of a document. What cannot be written leaves an empty file. -/
def writeDrawing (d : Document) : Serving Unit := do
  let some uri := d.uri.text? | throw .noMember
  if uri.toList.any fun c => (Text.half? c).isSome then throw .unencodable
  let path := drawingPath (← get).server.site.workspace.scratch uri
  let drawing := match d.graph with
    | some g => Protocol.drawing g
    | none => .null
  match Json.write? .wide 0 drawing with
  | some text => writeFile path text
  | none =>
    writeFile path ""
    throw .wrongKind

def serveOutline (message : Node) : Serving Node := do
  let (_, _, uri) ← target message
  let d ← document uri
  writeDrawing d
  pure (.list (d.symbols.map Protocol.symbol))

/-! ## Messages -/

/-- Serves a method. Nothing is answered to what is no method. -/
def serve (method : Method) (message : Node) : Serving (Option Node) := do
  match method with
  | .introduction =>
    changeServer fun s => { s with greeted := true }
    pure (some capabilities)
  | .introduced => pure (some (.record []))
  | .shutdown =>
    changeServer fun s => { s with running := false }
    pure (some .null)
  | .opened => some <$> serveOpened message
  | .changed => some <$> serveChanged message
  | .closed => some <$> serveClosed message
  | .completion => some <$> serveCompletion message
  | .definition => some <$> serveDefinition message
  | .outline => some <$> serveOutline message
  | .hover => serveHover message
  | .missing =>
    log [.error "Method not specified"]
    pure none
  | .unknown name =>
    log [.error ("Unknown method: " ++ name)]
    pure none

def reply (id : Option Node) (answer : Node → Node) : Serving Unit :=
  match id with
  | some id => send (answer id)
  | none => pure ()

def methodOf : Option Node → Except Fault Method
  | none => pure .missing
  | some (.text name _) => pure (.ofName name)
  | some _ => throw .noMember

def notIntroduced : Int := -32002

def invalidRequest : Int := -32600

def handle (message : Node) : Serving Unit := do
  let .map _ fields := message | throw .noMember
  let id := Node.Entries.field? fields "id"
  let method := Node.Entries.field? fields "method"
  let named (name : String) : Bool := method.any fun m => m.isName name
  let greeted := (← get).server.greeted
  if !greeted && !named Method.introductionName && !named "exit" then
    log [.warning "Client sent a request/notification without initializing"]
    reply id fun id => Rpc.errorResponse id notIntroduced "" (.record [])
  else if greeted && named Method.introductionName then
    let said := "Client sent duplicate initialization"
    log [.warning said]
    reply id fun id => Rpc.errorResponse id invalidRequest said (.record [])
  else
    match ← serve (← methodOf method) message with
    | some result => reply id fun id => Rpc.response id result
    | none => pure ()

/-! ## Serving a connection

A message that cannot be read or served is noted and passed over; after one that is never done
with nothing comes. Reading takes up a byte of the stream at least, so the length of the stream
bounds the number of messages. -/

def handleNoting (message : Node) (s : Session) : Session :=
  match (handle message).run.run s with
  | (.ok (), s) => s
  | (.error f, s) => s.note (.unexpected (.fault f))

def serveMessages : Nat → Rpc.Connection → Session → Session
  | 0, _, s => s
  | messages + 1, c, s =>
    if !s.server.running || s.held then s
    else
      match Rpc.Connection.read.run.run c with
      | (.ok m, c) => serveMessages messages c (handleNoting m s)
      | (.error (.frame .ended), _) => s
      | (.error (.frame .openHeader), _) => s
      | (.error f, c) => serveMessages messages c (s.note (.unexpected (.link f)))

def run (c : Rpc.Connection) (server : Server) : Session :=
  serveMessages (c.kept.length + c.stream.length + 1) c { server }

end CwlService.Server
