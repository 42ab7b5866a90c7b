import CwlService.Proofs.Node.Sameness
import CwlService.Proofs.Server.Lifecycle

/-! # Work on texts

What each method does to the open documents and what it sends. A document that is opened is kept
if its text is worked on to the end, one that changes is kept in any case, and the client is told
about the problems of a text that is worked on to the end. Questions look a document up and leave
its text as it is. -/
namespace CwlService.Server

open Serving
open List

/-! ## Documents by address -/

variable (uri m : Node)

/-- The address of the document that a message is about. -/
def address? : Option Node := do (← (← m.field? "params").field? "textDocument").field? "uri"

/-- The address and the text of a document that is opened. -/
def openedText? : Option (Node × Node) := do
  let doc ← (← m.field? "params").field? "textDocument"
  let uri ← doc.field? "uri"
  let text ← doc.field? "text"
  let _ ← doc.field? "version"
  pure (uri, text)

/-- The text in the first of some changes. -/
def firstText? : Node → Option Node
  | .seq _ ((_, change) :: _) => change.field? "text"
  | _ => none

/-- The address of a document that changes, and the text in the first of its changes. -/
def changedText? : Option (Node × Node) := do
  let params ← m.field? "params"
  let uri ← (← params.field? "textDocument").field? "uri"
  let text ← firstText? (← params.field? "contentChanges")
  pure (uri, text)

/-- The method that a message is served by. No document is opened before an introduction. -/
def servedMethod? (s : Server) (m : Node) : Option Method :=
  if s.greeted then (methodOf (m.field? "method")).toOption else none

/-- Work on a new text: the order that sets are listed in, the address, the text and what came of
it. -/
structure Renewal where
  listed : List String → List String
  uri : Node
  text : Node
  updated : Document.Updated

/-- The work on a new text that a method asks for. -/
def renewalBy? (s : Server) (m : Node) : Method → Option Renewal
  | .opened => do
    let (uri, text) ← openedText? m
    if uri.isKey then some ⟨s.listed, uri, text, ((Document.new uri text s.catalog).run s.site).1⟩ else none
  | .changed => do
    let (uri, text) ← changedText? m
    let d ← documentAt? s uri
    some ⟨s.listed, uri, text, ((d.update text s.catalog).run s.site).1⟩
  | _ => none

namespace Renewal

/-- The message about the problems of the document. -/
def publication (r : Renewal) : Node := Rpc.notification (.str "textDocument/publishDiagnostics")
  (Protocol.problems r.listed r.uri r.updated.document.problems)

/-- Whether the client is told: the text was worked on to the end, and the message can be written. -/
def tells (r : Renewal) : Bool := r.updated.outcome.isOk && (Json.text? r.publication).isSome

/-- What the client is told. -/
def notices (r : Renewal) : List Node := if r.tells then [r.publication] else []

end Renewal

/-- What comes of serving a message that asks for work on a new text: whether the document is
kept, what is sent, and whether the message is served to its end. -/
structure Renewed (r? : Option Renewal) (keeps : Document.Updated → Bool) (s : Session)
    (out : Except Fault Node × Session) : Prop where
  documents : out.2.server.documents = (r?.filter fun r => keeps r.updated).elim s.server.documents
    fun r => put r.uri r.updated.document s.server.documents
  sent : out.2.sent = s.sent ++ r?.elim [] Renewal.notices
  completed : out.1.isOk = r?.any Renewal.tells

variable {s t : Session} {keeps : Document.Updated → Bool} {r : Renewal} {α β : Type}
  {result : Server → Option α} {w : Serving α}

theorem Renewed.failed {f} (hdocuments : t.server.documents = s.server.documents)
    (hsent : t.sent = s.sent) : Renewed none keeps s (.error f, t) :=
  ⟨hdocuments, by rw [hsent]; exact (append_nil _).symm, rfl⟩

theorem onSite_run (w : StateM Site α) (s : Session) : (onSite w).run.run s =
    (.ok (w.run s.server.site).1, { s with server.site := (w.run s.server.site).2 }) := rfl

theorem toOption_bind (x : Except Fault α) (f : α → Except Fault β) :
    (x >>= f).toOption = x.toOption.bind fun a => (f a).toOption := by
  cases x <;> rfl

theorem toOption_fieldOf (n name) : (fieldOf n name).toOption = n.field? name := by
  cases n with
  | map form es =>
    unfold fieldOf Node.field?
    dsimp only
    cases Node.Entries.field? es name <;> rfl
  | _ => rfl

theorem toOption_target : (target m).toOption = (do
    let params ← m.field? "params"
    let doc ← params.field? "textDocument"
    let uri ← doc.field? "uri"
    pure (params, doc, uri)) := by
  simp only [target, toOption_bind, toOption_fieldOf]
  rfl

theorem address?_eq : address? m = (target m).toOption.map (·.2.2) := by
  rw [toOption_target, address?]
  cases m.field? "params" with
  | none => rfl
  | some params =>
    cases hdoc : params.field? "textDocument" with
    | none => simp [hdoc]
    | some doc => cases huri : doc.field? "uri" <;> simp [hdoc, huri]

/-- Something is shown of an open document, or a message is given up. -/
theorem serveHover_cases (s) : (∃ f events, (serveHover m).run.run s = (.error f, { s with events })) ∨
      ∃ uri d place events, address? m = some uri ∧ documentAt? s.server uri = some d ∧
        (serveHover m).run.run s = (shown uri ((d.hover s.server.engine place).run s.server.site).1).run.run
          { s with events, server.site := ((d.hover s.server.engine place).run s.server.site).2 } := by
  obtain ⟨r, events, hrun, hr⟩ := question_looks m s
  cases r with
  | error f => exact .inl ⟨f, events, run_bind_error hrun⟩
  | ok found =>
    obtain ⟨target, htarget, hr⟩ := Option.bind_eq_some_iff.mp hr.symm
    obtain ⟨position, _, hr⟩ := Option.bind_eq_some_iff.mp hr
    obtain ⟨place, _, hr⟩ := Option.bind_eq_some_iff.mp hr
    obtain ⟨d, hd, hfound⟩ := Option.bind_eq_some_iff.mp hr
    cases hfound
    have haddress : address? m = some target.2.2 := by rw [address?_eq, htarget]; rfl
    exact .inr ⟨_, d, place, events, haddress, hd, run_bind hrun⟩

theorem map_run (f : α → β) (w : Serving α) (s : Session) :
    (f <$> w).run.run s = ((w.run.run s).1.map f, (w.run.run s).2) := by
  rw [map_eq_pure_bind]
  exact run_map w f s

end CwlService.Server
