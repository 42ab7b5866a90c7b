import CwlService.Proofs.Node.Sameness
import CwlService.Proofs.Rpc.Queue

/-! # Batches of requests

A thread sends the requests of a batch while the caller reads their answers. The thread puts the
number of each request into a queue before it writes the request, and closes the queue after the
last. The caller takes the numbers out, one after the other, and waits for the answer to each. The
other side answers each request once, at any time after it was written, and sends other messages
in between. So four things may happen next at any time: a step of the thread, a step of the
caller, an answer, and another message. -/
namespace CwlService.Rpc

open Connection

/-- An object with the bytes that it comes in. A part of them counts as none: who has read it
waits for the rest of them and does nothing else. -/
structure Delivery where
  bytes : List UInt8
  message : Node
  isObject : message.isMap = true
  received : ∀ rest, receive (bytes ++ rest) = (.ok message, rest)

namespace Delivery

/-- An object as a connection writes it. -/
def ofValue (m : Node) (hjson : Json.IsJson m) (hobject : m.isMap = true)
    (hbody : (body? m).isSome = true) : Delivery where
  bytes := Text.bytes (frame ((body? m).get hbody))
  message := m
  isObject := hobject
  received rest := by
    obtain ⟨htext, hlength⟩ := Option.filter_eq_some_iff.mp (Option.some_get hbody).symm
    rw [receive_frame (hjson.spells 0 _ htext).ascii hlength, bodyMessage_text? hjson htext]

theorem bytes_ne_nil (d : Delivery) : d.bytes ≠ [] := by
  have hreceived := ne_nil_of_receive (d.received [])
  rwa [List.append_nil] at hreceived

theorem arrives (ds : List Delivery) : Arrives (ds.flatMap bytes) (ds.map message) := by
  induction ds with
  | nil => exact .ended
  | cons d ds ih => exact .message (by rw [List.flatMap_cons]; exact d.received _) ih

end Delivery

/-! ## Steps -/

/-- What the sending thread does next. -/
inductive Sender where
  /-- It takes a request, or closes the queue after the last. -/
  | free
  /-- It puts the number of a request into the queue. -/
  | numbered (id : Nat) (method params : Node)
  /-- It writes a request. -/
  | announced (id : Nat) (method params : Node)
  | ended
  | failed (fault : ConnectionFault)

/-- What the caller does next. -/
inductive Reader where
  /-- It takes a number out of the queue. -/
  | free
  /-- It looks for an answer among the messages that were kept. -/
  | looking (id : Nat)
  /-- It waits for the next message. -/
  | waiting (id : Nat)
  | ended
  | failed (fault : ConnectionFault)

/-- A batch that is under way. -/
structure Batch where
  connection : Connection
  todo : List (Node × Node)
  sender : Sender := .free
  /-- The numbers of requests whose answers are to be read; after the last there is none. -/
  queue : List (Option Nat) := []
  reader : Reader := .free
  yielded : List Node := []
  /-- The number of requests that were written. -/
  sent : Nat := 0
  /-- Those among them that have no answer yet. -/
  unanswered : List Nat := []
  /-- The other messages that are to come. -/
  others : List Delivery
  arrived : List Delivery := []

/-- How many numbers the queue holds. -/
def capacity : Nat := 100

namespace Connection

/-- Takes the answer to a request out of the messages that were kept. -/
def lookFor (id : Nat) : Link (Option Node) := do
  let c ← get
  match ← takeKept (.num id) c.kept with
  | some (n, others) =>
    set { c with kept := others }
    pure (if n.truthy then some n else none)
  | none => pure none

/-- Receives a message and keeps it if it is not the answer to a request. -/
def receiveFor (id : Nat) : Link (Option Node) := do
  let n ← receive
  if ← hasId (.num id) n then pure (some n)
  else
    modify fun c => { c with kept := c.kept ++ [n] }
    pure none

end Connection

namespace Batch

/-- The next step of the sending thread. There is none while the queue is full. -/
def sends? (b : Batch) : Option Batch :=
  match b.sender with
  | .free =>
    match b.todo with
    | (method, params) :: todo =>
      let id := b.connection.nextId
      some { b with
        connection := { b.connection with nextId := id + 1 }
        todo, sender := .numbered id method params }
    | [] =>
      if b.queue.length < capacity then some { b with queue := b.queue ++ [none], sender := .ended }
      else none
  | .numbered id method params =>
    if b.queue.length < capacity then
      some { b with queue := b.queue ++ [some id], sender := .announced id method params }
    else none
  | .announced id method params =>
    match (send (request id method params)).run.run b.connection with
    | (.ok _, connection) => some { b with
        connection, sender := .free, sent := b.sent + 1, unanswered := b.unanswered ++ [id] }
    | (.error f, connection) => some { b with connection, sender := .failed f }
  | .ended | .failed _ => none

/-- The caller has looked for an answer. -/
def looked (b : Batch) (id : Nat) : Except ConnectionFault (Option Node) × Connection → Batch
  | (.ok (some m), connection) => { b with connection, reader := .free, yielded := b.yielded ++ [m] }
  | (.ok none, connection) => { b with connection, reader := .waiting id }
  | (.error f, connection) => { b with connection, reader := .failed f }

/-- The next step of the caller. There is none while the queue, or the stream, is empty. -/
def reads? (b : Batch) : Option Batch :=
  match b.reader with
  | .free =>
    match b.queue with
    | some id :: queue => some { b with queue, reader := .looking id }
    | none :: queue => some { b with queue, reader := .ended }
    | [] => none
  | .looking id => some (b.looked id ((lookFor id).run.run b.connection))
  | .waiting id =>
    if b.connection.stream.isEmpty then none
    else some (b.looked id ((receiveFor id).run.run b.connection))
  | .ended | .failed _ => none

/-- A message arrives. -/
def deliver (b : Batch) (d : Delivery) : Batch := { b with
  connection := { b.connection with stream := b.connection.stream ++ d.bytes }
  arrived := b.arrived ++ [d] }

/-- What may happen next, if the other side has these answers. -/
inductive Step (answer : Nat → Delivery) : Batch → Batch → Prop where
  | sends {b b'} (h : b.sends? = some b') : Step answer b b'
  | reads {b b'} (h : b.reads? = some b') : Step answer b b'
  | answers {b id} (h : id ∈ b.unanswered) :
      Step answer b { b.deliver (answer id) with unanswered := b.unanswered.erase id }
  | others {b d others} (h : b.others = d :: others) :
      Step answer b { b.deliver d with others }

/-- A number of steps. -/
inductive Steps (answer : Nat → Delivery) (start : Batch) : Nat → Batch → Prop where
  | start : Steps answer start 0 start
  | step {n b b'} (hsteps : Steps answer start n b) (hstep : Step answer b b') :
      Steps answer start (n + 1) b'

end Batch

/-! ## Looking for an answer -/

namespace Connection

theorem lookFor_run {c} (hkept : ∀ m ∈ c.kept, m.isMap = true) (id : Nat) :
    (lookFor id).run.run c = (.ok (c.kept.find? (Call.answer id).wants),
      { c with kept := c.kept.eraseP (Call.answer id).wants }) := by
  rw [lookFor, run_get_bind, takeKept_eq hkept, run_lift_bind]
  cases hfound : c.kept.find? (Call.answer id).wants with
  | some m =>
    have htruthy := truthy_of_wants (hkept m (List.mem_of_find?_eq_some hfound)) (List.find?_some hfound)
    simp only [Option.map_some, htruthy]
    rfl
  | none =>
    rw [List.eraseP_of_forall_not (List.find?_eq_none.mp hfound)]
    rfl

theorem receiveFor_run {c} {d : Delivery} {rest} (hstream : c.stream = d.bytes ++ rest) (id : Nat) :
    (receiveFor id).run.run c =
      if (Call.answer id).wants d.message then (.ok (some d.message), { c with stream := rest })
      else (.ok none, { c with stream := rest, kept := c.kept ++ [d.message] }) := by
  have hreceive : Connection.receive.run.run c = (.ok d.message, { c with stream := rest }) :=
    receive_of_frame (hstream ▸ d.received rest)
  have hid : ∀ c : Connection, (liftM (hasId (.num id) d.message) : Link Bool).run.run c =
      (.ok ((Call.answer id).wants d.message), c) := by
    intro c
    rw [hasId_eq d.isObject]
    rfl
  rw [receiveFor, run_bind hreceive, run_bind (hid _)]
  cases (Call.answer id).wants d.message <;> rfl

theorem wants_unique {m} {i j : Nat} (hi : (Call.answer i).wants m = true)
    (hj : (Call.answer j).wants m = true) : i = j := by
  have hsame : (Node.num i).same (.num j) = true := Node.same_trans _ _ _ (Node.same_symm _ _ hi) hj
  have hnumber : (i : Int) = j := by simpa [Node.same, Node.number?, Node.sameNumber] using hsame
  exact Int.ofNat.inj hnumber

end Connection

end CwlService.Rpc
