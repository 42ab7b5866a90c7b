import CwlService.Proofs.Rpc.Queue
import CwlService.Proofs.Server.Lifecycle

/-! # Serving a stream

The server takes one frame after the other. Whatever is wrong with a body or with the message in
it, the next frame is found where it starts, and what is wrong is noted and not answered. So a
stream of frames is served frame by frame until a message stops the server, or to its end, if every
script that is run ends.

The loop of the server is written here without a bound on the number of messages, so that it has
a result only if it ends. -/
namespace CwlService.Server

open Rpc Serving

/-! ## The loop -/

variable {c : Connection} {s s' t : Session} {ms : List Node} {f : Fault} {id : Option Node}
  {answer : Node → Node} {m : Node} {p : Packet}

/-- What handles a message raises: handling ends with a fault, or the method gives no result. -/
def Raises (m : Node) (s : Session) : Prop :=
  (∃ f, ((handle m).run.run s).1 = .error f) ∨
    isServed m s = true ∧ ∃ method, methodOf (m.field? "method") = .ok method ∧
      ((serve method m).run.run s).1 = .ok none

/-- Nothing was answered between two sessions: what was sent has no number. -/
def Unanswered (s s' : Session) : Prop :=
  ∃ notices, s'.sent = s.sent ++ notices ∧ ∀ n ∈ notices, idOf n = none

/-- What a packet does that is taken in the session `s` and leads to the session `s'`. -/
structure Taken (p : Packet) (s s' : Session) : Prop where
  running : s.server.running = true
  /-- The message in it is handled. -/
  handled : ∀ m, p.message? = some m → s' = handleNoting m s
  /-- Without a message nothing happens but that the cause is noted. -/
  noted : p.message? = none → ∃ f, s' = s.note (.unexpected (.link (.frame f)))
  /-- A message whose handler raises is not answered. -/
  unanswered : ∀ m, p.message? = some m → Raises m s → Unanswered s s'
  /-- Only a shutdown after an introduction stops the server. -/
  stopped : s'.server.running = false ↔
    s.server.greeted = true ∧ ∃ m, p.message? = some m ∧ asks m "shutdown" = true

end CwlService.Server
