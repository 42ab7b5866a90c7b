import CwlService.Fault
import CwlService.Rpc.Frame

/-! # Messages and connections

Requests ask for an answer and carry a number for it, notifications do not. Who waits for the
answer to a request passes over messages that are none; these are kept, in order, and read
first later. -/
namespace CwlService.Rpc

def versioned (fields : List (String × Node)) : Node := .record (("jsonrpc", .str "2.0") :: fields)

def response (id result : Node) : Node := versioned [("id", id), ("result", result)]

def errorResponse (id : Node) (code : Int) (message : String) (data : Node) : Node :=
  let more : List (String × Node) := if data.isNull then [] else [("data", data)]
  versioned [("id", id), ("error", .record ([("code", .num code), ("message", .str message)] ++ more))]

def request (id : Nat) (method params : Node) : Node :=
  versioned [("id", .num id), ("method", method), ("params", params)]

def notification (method params : Node) : Node := versioned [("method", method), ("params", params)]

/-! ## Connections -/

/-- A connection: what is still to be read, the messages that were passed over, the number
of the next request, and the bodies that were written. -/
structure Connection where
  stream : List UInt8
  kept : List Node := []
  nextId : Nat := 1
  written : List String := []

inductive ConnectionFault where
  | frame (fault : FrameFault)
  | notObject
  | notWritable
  deriving DecidableEq, Repr

/-- Work on a connection. What was read and written stays so if it fails. -/
abbrev Link := ExceptT ConnectionFault (StateM Connection)

namespace Connection

def receive : Link Node := do
  let c ← get
  let (r, stream) := Rpc.receive c.stream
  set { c with stream }
  match r with
  | .ok n => pure n
  | .error f => throw (.frame f)

def read : Link Node := do
  let c ← get
  match c.kept with
  | n :: rest =>
    set { c with kept := rest }
    pure n
  | [] => receive

def hasId (id : Node) (message : Node) : Except ConnectionFault Bool :=
  match message with
  | .map _ es => pure (((Node.Entries.field? es "id").getD .null).same id)
  | _ => throw .notObject

def keptAt? (id : Node) : List Node → Except ConnectionFault (Option Nat)
  | [] => pure none
  | n :: rest => do
    if ← hasId id n then pure (some 0) else return (← keptAt? id rest).map (· + 1)

/-- Takes a message out of a queue, which is turned until it stands in front, and turned back
without it. -/
def takeAt (queue : List Node) (i : Nat) : Option (Node × List Node) :=
  match queue.rotateLeft i with
  | [] => none
  | found :: others => some (found, others.rotateRight i)

def takeKept (id : Node) (queue : List Node) : Except ConnectionFault (Option (Node × List Node)) :=
  return (← keptAt? id queue).bind (takeAt queue)

/-- Reads from the stream up to a message with a number and keeps the others. Every message
takes up a byte of the stream, so its length bounds their number. -/
def receiveWanted (id : Node) : Nat → Link Node
  | 0 => throw (.frame .ended)
  | messages + 1 => do
    let n ← receive
    if ← hasId id n then pure n
    else
      modify fun c => { c with kept := c.kept ++ [n] }
      receiveWanted id messages

/-- Reads the first message with a number. An empty one among those that are kept is taken
away but does not count. -/
def readWanted (id : Node) : Link Node := do
  let c ← get
  match ← takeKept id c.kept with
  | some (n, others) =>
    set { c with kept := others }
    if n.truthy then pure n else receiveWanted id (c.stream.length + 1)
  | none => receiveWanted id (c.stream.length + 1)

/-- Writes a message; its body may not be longer than lengths go. -/
def send (message : Node) : Link Unit := do
  match (Json.text? message).filter fun body => isLength body.length with
  | some body => modify fun c => { c with written := c.written ++ [body] }
  | none => throw .notWritable

def sendRequest (method params : Node) : Link Nat := do
  let c ← get
  set { c with nextId := c.nextId + 1 }
  send (request c.nextId method params)
  pure c.nextId

def call (method params : Node) : Link Node := do
  let id ← sendRequest method params
  readWanted (.num id)

/-- Sends requests one after the other, and then waits for their answers in this order. -/
def callAll (requests : List (Node × Node)) : Link (List Node) := do
  let ids ← requests.mapM fun (method, params) => sendRequest method params
  ids.mapM fun id => readWanted (.num id)

def output (c : Connection) : String := String.join (c.written.map frame)

end Connection
end CwlService.Rpc
