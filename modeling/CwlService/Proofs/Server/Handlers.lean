import CwlService.Proofs.Document.Accesses
import CwlService.Server.Handle

/-! # What serving a message leaves as it is

A handler looks things up, and then it may open and close documents, write files and tell the
client about problems. What these steps leave as it is, the handler leaves as it is, also if it
fails half-way. Only an introduction and a shutdown change what the server is ready for, and no
handler answers: what it sends by itself has no number. -/
namespace CwlService.Server

open Serving

/-! ## Looking up -/

/-- The document that is open at an address. -/
def openAt (s : Server) (uri : Node) : Option Document :=
  (s.documents.find? fun e => e.1.same uri).map (·.2)

/-- The document that is found at an address, if it is one. -/
def documentAt? (s : Server) (uri : Node) : Option Document := if uri.isKey then openAt s uri else none

theorem document_run (uri : Node) (s : Session) : (document uri).run.run s =
    (match documentAt? s.server uri with
      | some d => .ok d
      | none => .error (if uri.isKey then .missingKey uri else .wrongKind), s) := by
  unfold document documentAt? openAt
  cases uri.isKey with
  | false => rfl
  | true =>
    simp only [Bool.not_true, Bool.false_eq_true, if_false, run_get_bind]
    cases s.server.documents.find? fun e => e.1.same uri <;> rfl

/-- Work that looks things up, and does nothing else that counts. -/
def Looks {α : Type} (w : Serving α) (result : Server → Option α) : Prop :=
  ∀ s, ∃ r events, w.run.run s = (r, { s with events }) ∧ r.toOption = result s.server

namespace Looks

variable {α β : Type}

theorem pure (a : α) : Looks (Pure.pure a) fun _ => some a := fun s => ⟨.ok a, s.events, rfl, rfl⟩

theorem throw (f) : Looks (throw f : Serving α) fun _ => none := fun s => ⟨.error f, s.events, rfl, rfl⟩

theorem lift (e : Except Fault α) : Looks (liftM e : Serving α) fun _ => e.toOption := by
  intro s
  cases e with
  | error f => exact ⟨.error f, s.events, rfl, rfl⟩
  | ok a => exact ⟨.ok a, s.events, rfl, rfl⟩

theorem log (entries : List LogEntry) : Looks (log entries) fun _ => some () :=
  fun _ => ⟨.ok (), _, rfl, rfl⟩

theorem bind {w} {result : Server → Option α} {next : α → Serving β}
    {results : α → Server → Option β} (hw : Looks w result)
    (hnext : ∀ a, Looks (next a) (results a)) :
    Looks (w >>= next) fun s => (result s).bind fun a => results a s := by
  intro s
  obtain ⟨r, events, hrun, hr⟩ := hw s
  dsimp only
  rw [← hr]
  cases r with
  | error f => exact ⟨.error f, events, run_bind_error hrun, rfl⟩
  | ok a =>
    obtain ⟨r, events', hrun', hr'⟩ := hnext a { s with events }
    exact ⟨r, events', (run_bind hrun).trans hrun', hr'⟩

theorem after {w next} {result : Server → Option β} (hw : Looks w fun _ => some ())
    (hnext : Looks next result) : Looks (w >>= fun _ => next) result :=
  hw.bind fun _ => hnext

theorem map {w} {result : Server → Option α} (f : α → β) (hw : Looks w result) :
    Looks (f <$> w) fun s => (result s).map f := by
  have hbind := hw.bind fun a => pure (f a)
  rw [← map_eq_pure_bind] at hbind
  simpa only [Option.map_eq_bind, Function.comp_def] using hbind

theorem congr {w} {result result' : Server → Option α} (hw : Looks w result)
    (h : ∀ s, result s = result' s) : Looks w result' := funext h ▸ hw

theorem document (uri : Node) : Looks (document uri) fun s => documentAt? s uri := by
  intro s
  refine ⟨_, s.events, document_run uri s, ?_⟩
  change _ = documentAt? s.server uri
  cases documentAt? s.server uri <;> rfl

end Looks

/-- The first of the changes, if there is one. -/
def firstChange? : Node → Option Node
  | .seq _ items => items.head?.map (·.2)
  | .text t _ => t.toList.head?.map fun c => .str (String.singleton c)
  | _ => none

theorem noteFullTexts_looks (cut : Bool) : Looks (noteFullTexts cut) fun _ => some () := by
  cases cut
  · exact .pure ()
  · exact .log _

theorem firstChange_looks (changes) : Looks (firstChange changes) fun _ => firstChange? changes := by
  cases changes with
  | seq form items =>
    refine (noteFullTexts_looks _).after ?_
    cases items with
    | nil => exact .throw .outOfRange
    | cons i rest => exact .pure i.2
  | map form es => exact (noteFullTexts_looks _).after (.throw _)
  | text t styled =>
    refine (noteFullTexts_looks _).after ?_
    dsimp only [firstChange?]
    cases t.toList.head? with
    | none => exact .throw .outOfRange
    | some c => exact .pure _
  | _ => exact .throw _

theorem changedParts_looks (m) : Looks (changedParts m) fun s => (target m).toOption.bind fun found =>
    (fieldOf found.1 "contentChanges").toOption.bind fun changes => (firstChange? changes).bind fun change =>
      (changesPart change).toOption.bind fun _ => (documentAt? s found.2.2).bind fun d =>
        (fieldOf change "text").toOption.bind fun text => some (found.2.2, d, text) := by
  refine (Looks.lift _).bind fun found => (Looks.lift _).bind fun changes => ?_
  refine (firstChange_looks changes).bind fun change => (Looks.lift _).bind fun part => ?_
  exact (noteFullTexts_looks part).after ((Looks.document _).bind fun d => (Looks.lift _).bind fun text => .pure _)

theorem question_looks (m) : Looks (question m) fun s => (target m).toOption.bind fun found =>
    (fieldOf found.1 "position").toOption.bind fun position => (placeOf position).toOption.bind fun place =>
      (documentAt? s found.2.2).bind fun d => some (found.2.2, d, place) := by
  refine (Looks.lift _).bind fun found => (Looks.lift _).bind fun position => ?_
  exact (Looks.lift _).bind fun place => (Looks.document _).bind fun d => .pure _

/-! ## Steps of handlers -/

/-- A course on which events are noted at any time. -/
def Notes (c : Course Session) : Prop := ∀ (s : Session) (events : List Event), c.Leads s { s with events }

variable {c : Course Session}

theorem Notes.looks (hc : Notes c) {α : Type} {w} {result : Server → Option α} (h : Looks w result) :
    Goes c w := by
  intro s
  obtain ⟨r, events, hrun, _⟩ := h s
  rw [hrun]
  exact hc s events

/-- The number that a message carries. -/
def idOf (m : Node) : Option Node := m.field? "id"

theorem serveCompletion_takes (hc : Notes c) (m : Node) : Goes c (serveCompletion m) := by
  refine .bind (hc.looks (question_looks m)) fun ⟨_, d, place⟩ => .bind .get fun s => ?_
  refine .bind (.lift _) fun ⟨labels, logs⟩ => .bind (hc.looks (.log _)) fun _ => ?_
  cases labels <;> exact .pure _

theorem serveDefinition_takes (hc : Notes c) (m : Node) : Goes c (serveDefinition m) := by
  refine .bind (hc.looks (question_looks m)) fun ⟨_, d, place⟩ => .bind .get fun s => ?_
  refine .bind (.lift _) fun uri => ?_
  cases uri <;> exact .pure _

/-- When the symbols of a document are asked for, a drawing is written or nothing is changed. -/
theorem serveOutline_state (m : Node) (s : Session) : ((serveOutline m).run.run s).2 = s ∨
    ∃ uri text written, ((serveOutline m).run.run s).2 = { s with
      written
      server.site.workspace := s.server.site.workspace.write
        (drawingPath s.server.site.workspace.scratch uri) text } := by
  unfold serveOutline
  cases target m with
  | error f => exact .inl rfl
  | ok found =>
    have hrun := document_run found.2.2 s
    rw [run_lift_bind]
    dsimp only
    cases hd : documentAt? s.server found.2.2 with
    | none =>
      rw [hd] at hrun
      rw [run_bind_error hrun]
      exact .inl rfl
    | some d =>
      rw [hd] at hrun
      rw [run_bind hrun, run_map]
      unfold writeDrawing
      cases d.uri.text? with
      | none => exact .inl rfl
      | some uri =>
        dsimp only
        by_cases hhalf : (uri.toList.any fun c => (Text.half? c).isSome) = true
        · rw [if_pos hhalf]
          exact .inl rfl
        · rw [if_neg hhalf, run_get_bind]
          split <;> exact .inr ⟨uri, _, _, rfl⟩

/-- Methods that only look something up. -/
def Method.looks : Method → Bool
  | .introduced | .completion | .definition | .missing | .unknown _ => true
  | _ => false

theorem Notes.serve (hc : Notes c) (m) : ∀ {method : Method}, method.looks = true → Goes c (serve method m)
  | .introduced, _ => .pure _
  | .completion, _ => .map _ (serveCompletion_takes hc m)
  | .definition, _ => .map _ (serveDefinition_takes hc m)
  | .missing, _ => .bind (hc.looks (.log _)) fun _ => .pure _
  | .unknown _, _ => .bind (hc.looks (.log _)) fun _ => .pure _

theorem log_run (entries : List LogEntry) (s : Session) : (log entries).run.run s =
    (.ok (), { s with events := s.events ++ entries.map .log }) := rfl

/-- What is answered goes a course, if that leads on where there is nothing to answer. -/
theorem answered_takes (hc : Notes c) {h : Document.Hovered} {s : Session} (hheld : h.outcome = none →
      ∀ t : Session, t.server.engine = s.server.engine → c.Leads t { t with held := true }) :
    c.Leads s ((answered h).run.run s).2 := by
  unfold answered
  rw [run_bind (log_run h.logs s)]
  refine c.trans (hc s (s.events ++ h.logs.map .log)) ?_
  cases houtcome : h.outcome with
  | none => exact hheld houtcome _ rfl
  | some outcome => cases outcome <;> exact c.refl _

/-- A course on which texts are worked on: whatever is done to the open documents and told about
them, it goes on. -/
structure OfTexts (c : Course Session) : Prop where
  notes : Notes c
  documents : ∀ s documents, c.Leads s { s with server.documents := documents }
  update : ∀ (d : Document) text catalog, Goes c (onSite (d.update text catalog))
  sent : ∀ s message, idOf message = none → c.Leads s { s with sent := s.sent ++ [message] }

namespace OfTexts

variable (hc : OfTexts c)

include hc

theorem keep (uri : Node) (d : Document) : Goes c (keep uri d) :=
  .ite (.bind (.throw _) fun _ s => hc.documents s _) fun s => hc.documents s _

theorem publish (uri : Node) (d : Document) : Goes c (publish uri d) := by
  refine .bind .get fun t => ?_
  have hsend : Goes c (modify fun s => { s with sent := s.sent ++ [Rpc.notification
      (.str "textDocument/publishDiagnostics")
      (Protocol.problems t.server.listed uri d.problems)] } : Serving Unit) := by
    refine fun s => hc.sent s _ ?_
    simp [idOf, Rpc.notification, Rpc.versioned, Node.record, Node.dict, Node.field?,
      Node.Entries.field?, Node.isName]
  exact .ite (.bind (.throw _) fun _ => hsend) hsend

theorem opened (m : Node) : Goes c (serveOpened m) := by
  refine .bind (.lift _) fun found => .bind .get fun s => ?_
  refine .bind (hc.update _ _ _) fun u => .bind (hc.notes.looks (.log _)) fun _ => .bind (.lift _) fun _ => ?_
  exact .bind (hc.keep _ _) fun _ => .bind (hc.publish _ _) fun _ => .pure _

theorem changed (m : Node) : Goes c (serveChanged m) := by
  refine .bind (hc.notes.looks (changedParts_looks m)) fun found => .bind .get fun s => ?_
  refine .bind (hc.update _ _ _) fun u => .bind (hc.notes.looks (.log _)) fun _ => .bind (hc.keep _ _) fun _ => ?_
  exact .bind (.lift _) fun _ => .bind (hc.publish _ _) fun _ => .pure _

theorem closed (m : Node) : Goes c (serveClosed m) := by
  refine .bind (.lift _) fun ⟨_, _, uri⟩ => .bind (.map _ (hc.notes.looks (.document uri))) fun _ => ?_
  exact .bind (fun s => hc.documents s _) fun _ => .pure _

theorem shown (uri : Node) {h : Document.Hovered} {s : Session} (hheld : h.outcome = none →
      ∀ t : Session, t.server.engine = s.server.engine → c.Leads t { t with held := true }) :
    c.Leads s ((shown uri h).run.run s).2 := by
  unfold Server.shown Serving.keep
  cases uri.isKey with
  | false => exact c.refl s
  | true => exact c.trans (hc.documents s (put uri h.document s.server.documents)) (answered_takes hc.notes hheld)

end OfTexts

/-! ## What the server is ready for -/

/-- A session goes on: the server is as ready as before, and nothing was answered. Only a script
that does not end holds it. -/
structure GoesOn (s s' : Session) : Prop where
  greeted : s'.server.greeted = s.server.greeted
  running : s'.server.running = s.server.running
  engine : s'.server.engine = s.server.engine
  held : s.server.engine.Returns → s'.held = s.held
  sent : ∃ notices, s'.sent = s.sent ++ notices ∧ ∀ n ∈ notices, idOf n = none

namespace GoesOn

theorem refl (s : Session) : GoesOn s s := ⟨rfl, rfl, rfl, fun _ => rfl, [], by simp, by simp⟩

theorem trans {s t u} (h : GoesOn s t) (h' : GoesOn t u) : GoesOn s u := by
  obtain ⟨notices, hsent, hnotices⟩ := h.sent
  obtain ⟨more, hsent', hmore⟩ := h'.sent
  refine ⟨h'.greeted.trans h.greeted, h'.running.trans h.running, h'.engine.trans h.engine,
    fun hs => (h'.held (h.engine ▸ hs)).trans (h.held hs), notices ++ more, ?_, ?_⟩
  · rw [hsent', hsent, List.append_assoc]
  · intro n hn
    rcases List.mem_append.mp hn with hn | hn
    · exact hnotices n hn
    · exact hmore n hn

end GoesOn

end CwlService.Server
