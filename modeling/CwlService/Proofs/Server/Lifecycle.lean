import CwlService.Proofs.Node.Keys
import CwlService.Proofs.Server.Handlers
import Mathlib.Data.List.Induction

/-! # The life of a server

A client has to introduce itself, once, before anything is served. What each message does to
that order and to the answers is said for one message first, and then carried through all
messages that came before it. -/
namespace CwlService.Server

open Serving
open List

/-! ## Messages -/

/-- Whether a message asks for a method by name. -/
def asks (m : Node) (name : String) : Bool := (m.field? "method").any fun n => n.isName name

/-- Whether the client has introduced itself in one of the messages. -/
def introduced (messages : List Node) : Bool :=
  messages.any fun m => asks m Method.introductionName

variable {name : String} {id m : Node} {method : Method} {answers messages : List Node} {code : Int}
  {s : Session}

/-! ## Methods -/

/-- What is sent in answer to a message: nothing, or one message with its number. -/
def IsAnswer (m : Node) (answers : List Node) : Prop :=
  answers.length ≤ 1 ∧ ∀ a ∈ answers, (idOf m).isSome = true ∧ idOf a = idOf m

theorem isAnswer_nil (m : Node) : IsAnswer m [] := ⟨Nat.zero_le _, by simp⟩

theorem send_run (message : Node) (s : Session) : (send message).run.run s =
    if (Json.text? message).isNone then (.error .wrongKind, s)
    else (.ok (), { s with sent := s.sent ++ [message] }) := by
  unfold send
  split <;> rfl

/-- An answer is the only thing that a reply sends, if it does not fail. -/
theorem reply_isAnswer (m) {answer : Node → Node} (hanswer : ∀ id, idOf (answer id) = some id) (s) :
    ∃ answers, ((reply (idOf m) answer).run.run s).2 = { s with sent := s.sent ++ answers } ∧
      IsAnswer m answers ∧ ∀ f, ((reply (idOf m) answer).run.run s).1 = .error f → answers = [] := by
  cases hid : idOf m with
  | none => exact ⟨[], by rw [append_nil]; rfl, isAnswer_nil m, fun _ _ => rfl⟩
  | some id =>
    have hone : IsAnswer m [answer id] := by
      refine ⟨Nat.le_refl 1, fun a ha => ?_⟩
      rw [mem_singleton.mp ha, hanswer, hid]
      exact ⟨rfl, rfl⟩
    rw [reply, send_run]
    split
    · exact ⟨[], by rw [append_nil], isAnswer_nil m, fun _ _ => rfl⟩
    · exact ⟨[answer id], rfl, hone, fun f hf => by cases hf⟩

theorem handle_run (hm : m.isMap = true) (s : Session) : (handle m).run.run s =
    (if !s.server.greeted && !asks m Method.introductionName && !asks m "exit" then do
      log [.warning "Client sent a request/notification without initializing"]
      reply (idOf m) fun id => Rpc.errorResponse id notIntroduced "" (.record [])
    else if s.server.greeted && asks m Method.introductionName then do
      log [.warning "Client sent duplicate initialization"]
      reply (idOf m) fun id =>
        Rpc.errorResponse id invalidRequest "Client sent duplicate initialization" (.record [])
    else do
      match ← serve (← methodOf (m.field? "method")) m with
      | some result => reply (idOf m) fun id => Rpc.response id result
      | none => pure () : Serving Unit).run.run s := by
  cases m with
  | map form fields => rfl
  | _ => cases hm

/-- Whether a message is served: neither too early nor a second introduction. -/
def isServed (m : Node) (s : Session) : Bool :=
  (s.server.greeted || asks m Method.introductionName || asks m "exit") &&
    !(s.server.greeted && asks m Method.introductionName)

theorem handle_served (hm : m.isMap = true) (hs : isServed m s = true) : (handle m).run.run s = (do
      match ← serve (← methodOf (m.field? "method")) m with
      | some result => reply (idOf m) fun id => Rpc.response id result
      | none => pure () : Serving Unit).run.run s := by
  obtain ⟨hready, honce⟩ := Bool.and_eq_true_iff.mp hs
  rw [Bool.not_eq_true'] at honce
  rw [handle_run hm, if_neg, if_neg (by rw [honce]; simp)]
  intro hearly
  simp only [Bool.and_eq_true, Bool.not_eq_true'] at hearly
  rw [hearly.1.1, hearly.1.2, hearly.2] at hready
  cases hready

/-- What is logged and answered if a message is not served. -/
def refusal (s : Session) : LogEntry × Int × String :=
  if s.server.greeted then
    (.warning "Client sent duplicate initialization", invalidRequest, "Client sent duplicate initialization")
  else (.warning "Client sent a request/notification without initializing", notIntroduced, "")

theorem handle_refused (hm : m.isMap = true) (hs : isServed m s = false) : (handle m).run.run s =
    (do log [(refusal s).1]
        reply (idOf m) fun id => Rpc.errorResponse id (refusal s).2.1 (refusal s).2.2 (.record []) :
      Serving Unit).run.run s := by
  rw [handle_run hm, refusal]
  cases hgreeted : s.server.greeted with
  | false =>
    obtain ⟨hin, hexit⟩ : asks m Method.introductionName = false ∧ asks m "exit" = false := by
      simpa [isServed, hgreeted] using hs
    rw [hin, hexit, if_pos (by decide)]
    rfl
  | true =>
    have hin : asks m Method.introductionName = true := by simpa [isServed, hgreeted] using hs
    rw [hin, if_neg (by simp), if_pos (by decide)]
    rfl

/-- The session after the method of a message, and what is answered then. -/
inductive Handling (m : Node) (s : Session) : Session → List Node → Prop
  | refused {answers : List Node} (hs : isServed m s = false) : Handling m s s answers
  | failed (hmethod : ∀ method, methodOf (m.field? "method") = .ok method → method = .missing) :
    Handling m s s []
  | served {method : Method} {answers} (hs : isServed m s = true)
      (hmethod : methodOf (m.field? "method") = .ok method)
      (hnone : ((serve method m).run.run s).1 = .ok none → answers = []) :
    Handling m s ((serve method m).run.run s).2 answers

/-- What is left of a message after its method is at most an answer. -/
theorem handle_cases (m s) : ∃ after answers events, Handling m s after answers ∧
    IsAnswer m answers ∧ ((handle m).run.run s).2 = { after with events, sent := after.sent ++ answers } ∧
      ∀ f, ((handle m).run.run s).1 = .error f → answers = [] := by
  cases hm : m.isMap with
  | false =>
    have hfailed : (handle m).run.run s = (.error .noMember, s) ∧ m.field? "method" = none := by
      cases m with
      | map form fields => cases hm
      | _ => exact ⟨rfl, rfl⟩
    refine ⟨s, [], s.events, .failed ?_, isAnswer_nil m, ?_, fun _ _ => rfl⟩
    · rw [hfailed.2]
      rintro _ ⟨⟩
      rfl
    · rw [hfailed.1, append_nil]
  | true =>
    cases hs : isServed m s with
    | false =>
      rw [handle_refused hm hs, run_bind (log_run _ s)]
      obtain ⟨answers, hreply, hanswers, herror⟩ := @reply_isAnswer m
        (fun id => Rpc.errorResponse id (refusal s).2.1 (refusal s).2.2 (.record [])) (fun _ => rfl) _
      exact ⟨s, answers, _, .refused hs, hanswers, hreply, herror⟩
    | true =>
      rw [handle_served hm hs]
      cases hmethod : methodOf (m.field? "method") with
      | error f =>
        refine ⟨s, [], s.events, .failed ?_, isAnswer_nil m, ?_, fun _ _ => rfl⟩
        · rw [hmethod]
          exact nofun
        · rw [append_nil]
          rfl
      | ok method =>
        rw [run_lift_bind]
        have hserved := fun answers hnone => @Handling.served m s method answers hs hmethod hnone
        cases hrun : (serve method m).run.run s with
        | mk r t =>
          rw [hrun] at hserved
          cases r with
          | error f =>
            rw [run_bind_error hrun]
            refine ⟨t, [], t.events, hserved [] fun _ => rfl, isAnswer_nil m, ?_, fun _ _ => rfl⟩
            rw [append_nil]
          | ok result =>
            rw [run_bind hrun]
            cases result with
            | none =>
              refine ⟨t, [], t.events, hserved [] fun _ => rfl, isAnswer_nil m, ?_, fun _ _ => rfl⟩
              rw [append_nil]
              rfl
            | some result =>
              obtain ⟨answers, hreply, hanswers, herror⟩ :=
                @reply_isAnswer m (fun id => Rpc.response id result) (fun _ => rfl) t
              exact ⟨t, answers, t.events, hserved answers (fun hnone => by cases hnone), hanswers, hreply, herror⟩

theorem handleNoting_eq (m : Node) (s : Session) :
    ∃ events, handleNoting m s = { ((handle m).run.run s).2 with events } := by
  unfold handleNoting
  cases (handle m).run.run s with
  | mk r t => cases r <;> exact ⟨_, rfl⟩

theorem handleNoting_cases (m s) : ∃ after answers events, Handling m s after answers ∧
    IsAnswer m answers ∧ handleNoting m s = { after with events, sent := after.sent ++ answers } := by
  obtain ⟨after, answers, events, hcase, hanswers, hend, _⟩ := handle_cases m s
  obtain ⟨events', heq⟩ := handleNoting_eq m s
  rw [hend] at heq
  exact ⟨after, answers, events', hcase, hanswers, heq⟩

variable (site : Site) (catalog : Language.Catalog)

/-- A question that comes too early, two introductions, a method that is none, a message
without a number, and a shutdown. -/
def sampleMessages : List Node := [
  .record [("id", .num 1), ("method", .str "textDocument/hover")],
  .record [("id", .str "a"), ("method", .str "initialize")],
  .record [("id", .null), ("method", .str "initialize")],
  .record [("id", .num 4), ("method", .str "exit")],
  .record [("method", .str "initialized")],
  .record [("id", .num 6), ("method", .str "shutdown")]]

/-- A place without files. -/
def emptySite : Site := { workspace := { files := [], replies := [] } }

end CwlService.Server
