import CwlService.Proofs.Outcome
import CwlService.Workspace.Files

/-! # Where links lead

A link that is followed leaves the reader of linked files alone, or it reads one of the texts
that there are. A reader keeps something of what it has read; where that changes nothing about
the texts to come, links lead to the same whenever they are followed. -/
namespace CwlService.Workspace

open List

/-- The texts that links can lead to. -/
def linkable (w : Workspace) : List String :=
  (w.files.filterMap fun f => f.2.map Text.newlinesText) ++ w.replies.filterMap fun r =>
    match r.2 with
    | .body bytes => Text.ofBytes? bytes
    | .refused => none

/-- Where a link leads: to a text, or to a problem. -/
structure Reached where
  path : String
  file : Option Path
  text : Except String String

/-- The text of a link to a path, given what is there. -/
def textAt (target : String) : Entry → Except String String
  | .nothing => .error ("Missing document: " ++ target)
  | .directory => .error ("Linked document must be file: " ++ target)
  | .file text => .ok (Text.newlinesText text)

/-- Where a link leads, before the text there is read. -/
def reach (w : Workspace) (doc : Node) (target : String) : Except Fault Reached :=
  match Uri.hasScheme? target with
  | none => throw .badValue
  | some true =>
    match w.replies.lookup target with
    | none => throw .unreachable
    | some .refused => pure ⟨target, none, .error ("Missing URL: " ++ target)⟩
    | some (.body bytes) =>
      match Text.ofBytes? bytes with
      | none => throw .undecodable
      | some contents => pure ⟨target, none, .ok contents⟩
  | some false =>
    (w.resolve doc target).bind fun p => (w.find p).map fun found => ⟨p.text, some p, textAt target found⟩

/-- What comes of a link: the data of a text, or one problem. -/
def readAt (loc : Option Span) (r : Yaml.Reader) :
    Except Fault Reached → Except Fault (Linked × List Diagnostic) × Yaml.Reader
  | .error f => (.error f, r)
  | .ok ⟨path, file, .error problem⟩ => (.ok (⟨path, file, "", .map .plain []⟩, [.error loc problem]), r)
  | .ok ⟨path, file, .ok contents⟩ =>
    (((Document.readLinked contents).run.run r).1.map fun n => (⟨path, file, contents, n⟩, []),
      ((Document.readLinked contents).run.run r).2)

variable {target text : String} {w : Workspace} {P : Yaml.Reader → Prop} {r r' : Yaml.Reader}

theorem follow_run (w : Workspace) (doc target loc r) :
    (w.follow doc target loc).run.run r = readAt loc r (w.reach doc target) := by
  unfold follow reach
  cases Uri.hasScheme? target with
  | none => rfl
  | some web =>
    dsimp only
    cases web with
    | true =>
      cases w.replies.lookup target with
      | none => rfl
      | some reply =>
        cases reply with
        | refused => rfl
        | body bytes =>
          dsimp only
          cases Text.ofBytes? bytes with
          | none => rfl
          | some contents => exact run_map _ _ r
    | false =>
      cases w.resolve doc target with
      | error f => rfl
      | ok p =>
        rw [run_lift_bind]
        dsimp only [Except.bind]
        cases w.find p with
        | error f => rfl
        | ok found =>
          rw [run_lift_bind]
          cases found with
          | file text => exact run_map _ _ r
          | _ => rfl

theorem mem_files_of_entryAt {names} (h : w.entryAt names = .file text) :
    (names, some text) ∈ w.files := by
  unfold entryAt at h
  split at h
  · rename_i found hfind
    cases h
    have hnames := List.find?_some hfind
    rw [← eq_of_beq hnames]
    exact mem_of_find?_eq_some hfind
  · cases h
  · split at h <;> cases h

theorem text_linkable {p} (h : w.find p = .ok (.file text)) : Text.newlinesText text ∈ w.linkable := by
  unfold find at h
  split at h
  · cases h
  have hlook : w.look p = .file text := Except.ok.inj h
  unfold look at hlook
  split at hlook
  · exact mem_append_left _ (mem_filterMap.mpr ⟨_, mem_files_of_entryAt hlook, rfl⟩)
  · cases hlook

theorem reply_linkable {bytes} (h : w.replies.lookup target = some (.body bytes))
    (htext : Text.ofBytes? bytes = some text) : text ∈ w.linkable := by
  obtain ⟨l₁, l₂, hreplies, _⟩ := lookup_eq_some_iff.mp h
  refine mem_append_right _ (mem_filterMap.mpr ⟨(target, .body bytes), ?_, htext⟩)
  rw [hreplies]
  simp

theorem reach_linkable {doc path file} (h : w.reach doc target = .ok ⟨path, file, .ok text⟩) : text ∈ w.linkable := by
  unfold reach at h
  split at h
  · cases h
  · split at h
    · cases h
    · cases h
    · rename_i hreply
      split at h
      · cases h
      · cases h
        exact reply_linkable hreply ‹_›
  · obtain ⟨p, _, h⟩ := bind_eq_ok h
    obtain ⟨found, hfound, h⟩ := map_eq_ok h
    cases found with
    | file text =>
      cases h
      exact text_linkable hfound
    | _ => cases h

theorem followNode_run (w : Workspace) (doc target : Node) (loc : Option Span) : ∃ reached,
    (∀ path file text, reached = .ok ⟨path, file, .ok text⟩ → text ∈ w.linkable) ∧
      ∀ r, (w.followNode doc target loc).run.run r = readAt loc r reached := by
  have hthrow : ∀ f : Fault, ∃ reached, (∀ path file text, reached = .ok ⟨path, file, .ok text⟩ → text ∈ w.linkable) ∧
      ∀ r, (throw f : Document.Reads _).run.run r = readAt loc r reached := fun f => ⟨.error f, nofun, fun _ => rfl⟩
  unfold followNode
  split
  · exact ⟨_, fun _ _ _ => reach_linkable, follow_run w doc _ loc⟩
  · split
    · exact hthrow _
    · split
      · exact hthrow _
      · exact hthrow _
  · exact hthrow _
  · exact hthrow _
  · exact hthrow _
  · split
    · exact hthrow _
    · exact hthrow _

/-- No problem, or one at a given span. -/
def OneAt (loc : Option Span) (ds : List Diagnostic) : Prop := ds = [] ∨ ∃ d, ds = [d] ∧ d.span = loc

/-- A link that is followed has one problem at most, at its own span. -/
theorem followNode_oneAt (w : Workspace) (doc target : Node) (loc : Option Span) (r : Yaml.Reader) :
    Gives (fun v => OneAt loc v.2) ((w.followNode doc target loc).run.run r).1 := by
  obtain ⟨reached, -, hrun⟩ := followNode_run w doc target loc
  rw [hrun]
  rcases reached with f | ⟨path, file, problem | contents⟩
  · exact .throw f
  · exact .pure (.inr ⟨_, rfl, rfl⟩)
  · exact .map (.any _) fun _ _ => .inl rfl

theorem follow_node (w : Workspace) (doc : Node) (hscheme : Uri.hasScheme? target = some false)
    (loc : Option Span) (r : Yaml.Reader) : ((w.follow doc target loc).run.run r).1.map (·.1.node) =
      match w.resolve doc target >>= w.find with
      | .error f => .error f
      | .ok (.file text) => ((Document.readLinked (Text.newlinesText text)).run.run r).1
      | .ok _ => .ok (.map .plain []) := by
  rw [follow_run, reach, hscheme]
  cases w.resolve doc target with
  | error f => rfl
  | ok p =>
    dsimp only [bind, Except.bind]
    cases w.find p with
    | error f => rfl
    | ok found =>
      cases found with
      | file text =>
        dsimp only [Except.map, textAt, readAt]
        cases ((Document.readLinked (Text.newlinesText text)).run.run r).1 <;> rfl
      | _ => rfl

/-- The place of a link only matters for what is said about it. -/
theorem followNode_node (w : Workspace) (doc target : Node) (loc : Option Span) (r : Yaml.Reader) :
    ((w.followNode doc target loc).run.run r).1.map (·.1.node) =
      ((w.followNode doc target none).run.run r).1.map (·.1.node) := by
  unfold followNode
  split
  · rw [follow_run, follow_run]
    rcases w.reach doc _ with f | ⟨path, file, problem | contents⟩ <;> rfl
  all_goals rfl

/-- Readers that all give the same data for some texts, and are left as such readers. -/
def Alike (texts : List String) (r : Yaml.Reader) (P : Yaml.Reader → Prop) : Prop :=
  P r ∧ ∀ text ∈ texts, ∀ r', P r' →
    ((Document.readLinked text).run.run r').1 = ((Document.readLinked text).run.run r).1 ∧
      P ((Document.readLinked text).run.run r').2

theorem followNode_alike (h : Alike w.linkable r P) (doc target loc) (hr' : P r') :
    ((w.followNode doc target loc).run.run r').1 = ((w.followNode doc target loc).run.run r).1 ∧
      P ((w.followNode doc target loc).run.run r').2 := by
  obtain ⟨reached, hlinkable, hrun⟩ := followNode_run w doc target loc
  rw [hrun, hrun]
  rcases reached with f | ⟨path, file, problem | contents⟩
  · exact ⟨rfl, hr'⟩
  · exact ⟨rfl, hr'⟩
  · obtain ⟨hdata, hleft⟩ := h.2 contents (hlinkable _ _ _ rfl) r' hr'
    rw [readAt, readAt, hdata]
    exact ⟨rfl, hleft⟩

/-! ## Readers that stay steady -/

/-- What a linked text counts as, given what was read. -/
def judged (other : Node) : Except Yaml.Failure Node → Except Fault Node
  | .ok n => .ok n
  | .error (.problem p) => if p.stage == .references then .error (.text (.problem p)) else .ok other
  | .error e => .error (.text e)

theorem readOr_run (other text r) : (Document.readOr other text).run.run r =
      (judged other ((Yaml.Reader.load text).run.run r).1, ((Yaml.Reader.load text).run.run r).2) := by
  cases hload : (Yaml.Reader.load text).run.run r with
  | mk e r' =>
    have hlift : (liftM (Yaml.Reader.load text).run : Document.Reads _).run.run r = (.ok e, r') := by
      rw [ExceptT.run_liftM, StateT.run_map, hload]
      rfl
    rw [Document.readOr, run_bind hlift]
    cases e with
    | ok n => rfl
    | error f =>
      cases f with
      | problem p =>
        simp only [judged]
        split <;> rfl
      | _ => rfl

theorem readLinked_run (text : String) (r : Yaml.Reader) : (Document.readLinked text).run.run r =
      (judged .null ((Yaml.Reader.load text).run.run r).1, ((Yaml.Reader.load text).run.run r).2) :=
  readOr_run .null text r

/-- Readers for which it does not matter what they have read of a workspace before, nor how the
lines of a file end. -/
structure Steady (w : Workspace) (P : Yaml.Reader → Prop) : Prop where
  linked : ∀ text ∈ w.linkable, ∀ r r', P r → P r' →
    ((Yaml.Reader.load text).run.run r').1 = ((Yaml.Reader.load text).run.run r).1 ∧
      P ((Yaml.Reader.load text).run.run r').2
  written : ∀ path text, w.find path = .ok (.file text) → ∀ r, P r →
    ((Yaml.Reader.load text).run.run r).1 = ((Yaml.Reader.load (Text.newlinesText text)).run.run r).1 ∧
      P ((Yaml.Reader.load text).run.run r).2

theorem Steady.alike (h : w.Steady P) (hr : P r) : Alike w.linkable r P := by
  refine ⟨hr, fun text htext r' hr' => ?_⟩
  obtain ⟨hdata, hleft⟩ := h.linked text htext r r' hr hr'
  rw [readLinked_run, readLinked_run, hdata]
  exact ⟨rfl, hleft⟩

/-- A file that a link led to has the same data when it is read as it is written. -/
theorem Steady.load_of_readLinked (h : w.Steady P) {path} (hfind : w.find path = .ok (.file text))
    (hr : P r) (hr' : P r') {n} (hn : n.isNull = false)
    (hread : ((Document.readLinked (Text.newlinesText text)).run.run r).1 = .ok n) :
    ((Yaml.Reader.load text).run.run r').1 = .ok n := by
  rw [(h.written path text hfind r' hr').1, (h.linked _ (text_linkable hfind) r r' hr hr').1]
  rw [readLinked_run] at hread
  cases hload : ((Yaml.Reader.load (Text.newlinesText text)).run.run r).1 with
  | ok m =>
    rw [hload] at hread
    rw [Except.ok.inj hread]
  | error f =>
    rw [hload] at hread
    unfold judged at hread
    split at hread
    · contradiction
    · split at hread
      · cases hread
      · cases hread
        cases hn
    · cases hread

theorem file_of_follow {doc loc l ds} (hscheme : Uri.hasScheme? target ≠ some true)
    (h : ((w.follow doc target loc).run.run r).1 = .ok (l, ds)) (hnode : l.node ≠ .map .plain []) :
    ∃ path text, w.resolve doc target = .ok path ∧ w.find path = .ok (.file text) ∧
      ((Document.readLinked (Text.newlinesText text)).run.run r).1 = .ok l.node := by
  have hdata : ((w.follow doc target loc).run.run r).1.map (·.1.node) = .ok l.node := by
    rw [h]
    rfl
  cases hhas : Uri.hasScheme? target with
  | none =>
    rw [follow_run, reach, hhas] at h
    cases h
  | some web =>
    cases web with
    | true => exact absurd hhas hscheme
    | false =>
      rw [follow_node w doc hhas] at hdata
      split at hdata
      · cases hdata
      · rename_i text hfound
        obtain ⟨path, hresolve, hfind⟩ := bind_eq_ok hfound
        exact ⟨path, text, hresolve, hfind, hdata⟩
      · exact absurd (Except.ok.inj hdata).symm hnode

end CwlService.Workspace
