import CwlService.Proofs.Server.Texts

/-! # Open documents

The client opens and closes documents and changes their texts. Messages may come in any order,
some fail half-way, and the server goes on with what is left. For every address, what was opened
last and not closed since is open, with the text that was opened or that a later change brought.
A text that is worked on to the end is followed by one message about its problems. -/
namespace CwlService.Server

open Serving
open List

/-! ## What messages say -/

/-- What a message says about the text of a document. -/
inductive TextEvent where
  | opened (uri text : Node)
  | changed (uri text : Node)
  | closed (uri : Node)

/-- What a message with a method says. A document is opened if its text is worked on to the end. -/
def eventBy? (s : Server) (m : Node) : Method → Option TextEvent
  | .opened => do
    let r ← renewalBy? s m .opened
    if r.updated.outcome.isOk then some (.opened r.uri r.text) else none
  | .changed => (changedText? m).map fun c => .changed c.1 c.2
  | .closed => (address? m).map .closed
  | _ => none

/-- What a message to a server says. -/
def event? (s : Server) (m : Node) : Option TextEvent := (servedMethod? s m).bind (eventBy? s m)

/-- What messages say that come to a session one after the other. -/
def events : Session → List Node → List TextEvent
  | _, [] => []
  | s, m :: rest => (event? s.server m).toList ++ events (handleNoting m s) rest

variable {e : TextEvent} {u : String} {s : Session} {m : Node} {c : Node × Node}

namespace TextEvent

/-- The text that an event brings for a document. What is no text counts as an empty one. -/
def text? (u : String) : TextEvent → Option String
  | opened uri text => if uri.isName u then some (text.text?.getD "") else none
  | changed uri text => if uri.isName u then some (text.text?.getD "") else none
  | closed _ => none

/-- What an event makes of the text of a document, if it is open. -/
def act (u : String) (old : Option String) : TextEvent → Option String
  | opened uri text => if uri.isName u then some (text.text?.getD "") else old
  | changed uri text => if uri.isName u then old.map fun _ => text.text?.getD "" else old
  | closed uri => if uri.isName u then none else old

/-- The address of the document that an event is about. -/
def uri : TextEvent → Node
  | opened uri _ => uri
  | changed uri _ => uri
  | closed uri => uri

end TextEvent

def textMessage (method uri : String) (doc params : List (String × Node)) : Node :=
  .record [("method", .str method),
    ("params", .record (("textDocument", .record (("uri", .str uri) :: doc)) :: params))]

def openingMessage (uri text : String) : Node :=
  textMessage "textDocument/didOpen" uri [("text", .str text), ("version", .num 1)] []

end CwlService.Server
