import CwlService.Proofs.Job.Files
import CwlService.Proofs.Server.OpenDocuments

/-! # Job files while a server runs

A message can do little to files: a drawing is written when the outline of a document is asked
for, and a job file when something is shown. A job file of the user outlives any run of
messages, with two exceptions. It is lost if a question is asked about a document whose job
file it is by a path that goes back out of a missing directory, and it is written over once the
writer of data has got stuck on it. -/
namespace CwlService.Server

open Serving

/-! ## Work that leaves files alone -/

/-- The files and the writer of data stay as they are. -/
def calm : Course Session where
  Leads s t := t.server.site.workspace = s.server.site.workspace ∧ t.server.site.jobWriter = s.server.site.jobWriter
  refl _ := ⟨rfl, rfl⟩
  trans h h' := ⟨h'.1.trans h.1, h'.2.trans h.2⟩

theorem calm_ofTexts : OfTexts calm where
  notes _ _ := ⟨rfl, rfl⟩
  documents _ _ := ⟨rfl, rfl⟩
  update d text catalog s := by
    obtain ⟨-, _, _, hsite⟩ := @Document.update_frame catalog s.server.site d text
    exact ⟨by rw [onSite_run, hsite], by rw [onSite_run, hsite]⟩
  sent _ _ _ := ⟨rfl, rfl⟩

/-- What a message does to the files and the writer of data: nothing, or a drawing is written,
or something is shown of an open document. -/
inductive Effect (s : Server) (m : Node) (after : Site) : Prop
  | none (hworkspace : after.workspace = s.site.workspace) (hwriter : after.jobWriter = s.site.jobWriter)
  | drawing (uri text : String)
      (hworkspace : after.workspace =
        s.site.workspace.write (drawingPath s.site.workspace.scratch uri) text)
      (hwriter : after.jobWriter = s.site.jobWriter)
  | hover {uri : Node} {d place} (hmethod : methodOf (m.field? "method") = .ok .hover)
      (haddress : address? m = some uri) (hopen : documentAt? s uri = some d)
      (hworkspace : after.workspace = ((d.hover s.engine place).run s.site).2.workspace)
      (hwriter : after.jobWriter = ((d.hover s.engine place).run s.site).2.jobWriter)

theorem Effect.of_calm {α : Type} {w : Serving α} (h : Goes calm w) (m : Node) (t : Session) :
    Effect t.server m (w.run.run t).2.server.site :=
  .none (h t).1 (h t).2

theorem serveOutline_effect (m : Node) (s : Session) :
    Effect s.server m ((serveOutline m).run.run s).2.server.site := by
  obtain hsame | ⟨uri, text, _, hdrawn⟩ := serveOutline_state m s
  · rw [hsame]
    exact .none rfl rfl
  · rw [hdrawn]
    exact .drawing uri text rfl rfl

variable {doc m : Node} {t : String} {file scratch stuck : Path} {start : Session}

theorem serveHover_effect (hmethod : methodOf (m.field? "method") = .ok .hover) (s : Session) :
    Effect s.server m ((serveHover m).run.run s).2.server.site := by
  obtain ⟨f, events, hend⟩ | ⟨uri, d, place, events, haddress, hd, hend⟩ := serveHover_cases m s
  · rw [hend]
    exact .none rfl rfl
  · rw [hend]
    obtain ⟨hworkspace, hwriter⟩ := calm_ofTexts.shown uri fun _ _ _ => ⟨rfl, rfl⟩
    exact .hover hmethod haddress hd hworkspace hwriter

theorem serve_effect {method} (hmethod : methodOf (m.field? "method") = .ok method) (s : Session) :
    Effect s.server m ((serve method m).run.run s).2.server.site := by
  have hmap {w : Serving Node} (hw : Effect s.server m (w.run.run s).2.server.site) :
      Effect s.server m ((some <$> w).run.run s).2.server.site := by
    rw [map_run]
    exact hw
  cases method with
  | introduction => exact .none rfl rfl
  | shutdown => exact .none rfl rfl
  | opened => exact hmap (.of_calm (calm_ofTexts.opened m) m s)
  | changed => exact hmap (.of_calm (calm_ofTexts.changed m) m s)
  | closed => exact hmap (.of_calm (calm_ofTexts.closed m) m s)
  | outline => exact hmap (serveOutline_effect m s)
  | hover => exact serveHover_effect hmethod s
  | _ => exact .of_calm (calm_ofTexts.notes.serve m rfl) m s

theorem handleNoting_effect (m s) : Effect s.server m (handleNoting m s).server.site := by
  obtain ⟨after, answers, events, hcase, _, heq⟩ := handleNoting_cases m s
  rw [heq]
  cases hcase with
  | refused _ => exact .none rfl rfl
  | failed _ => exact .none rfl rfl
  | served _ hmethod _ => exact serve_effect hmethod s

/-! ## Drawings -/

theorem flat_append {root} (names : List String) {name} (h : name ≠ "..") :
    (Path.mk root (names ++ [name])).flat = names.foldl Path.step [] ++ [name] := by
  simp [Path.flat, Path.step, h]

theorem ne_of_getLast? {s c d} (hs : s.toList.getLast? = some c) (ht : t.toList.getLast? = some d)
    (h : c ≠ d) : s ≠ t := by
  rintro rfl
  exact h (Option.some.inj (hs.symm.trans ht))

theorem getLast?_append_text (s : String) {c} (h : t.toList.getLast? = some c) :
    (s ++ t).toList.getLast? = some c := by
  rw [String.toList_append, List.getLast?_append, h]
  rfl

theorem exists_names_of_path (h : Job.path scratch doc = .ok file) :
    ∃ init stem, ∃ absolute : Bool, file.names = scratch.names ++
      if absolute then init ++ [stem ++ Job.extension] else (init ++ [stem ++ Job.extension]).drop 1 := by
  unfold Job.path at h
  obtain ⟨p, _, h⟩ := bind_eq_ok h
  unfold Path.withSuffix? at h
  cases hlast : p.names.getLast? with
  | none => simp [hlast] at h
  | some n =>
    simp only [hlast] at h
    cases h
    exact ⟨p.names.dropLast, Path.stem n, _, rfl⟩

/-- The job file of a document is below the scratch directory and has its extension, unless it is
that directory. -/
theorem flat_of_path (h : Job.path scratch doc = .ok file) :
    file.flat = scratch.flat ∨ ∃ names stem, file.flat = names ++ [stem ++ Job.extension] := by
  have hname (stem : String) : stem ++ Job.extension ≠ ".." :=
    ne_of_getLast? (getLast?_append_text stem (c := 'l') rfl) (d := '.') rfl (by decide)
  obtain ⟨init, stem, absolute, hnames⟩ := exists_names_of_path h
  have hflat (names : List String) (heq : file.names = names ++ [stem ++ Job.extension]) :
      ∃ names stem, file.flat = names ++ [stem ++ Job.extension] :=
    ⟨_, stem, by rw [Path.flat, heq]; exact @flat_append file.root names _ (hname stem)⟩
  cases absolute with
  | true => exact .inr (hflat (scratch.names ++ init) (by simpa using hnames))
  | false =>
    cases init with
    | nil =>
      left
      rw [Path.flat, hnames]
      simp [Path.flat]
    | cons n init => exact .inr (hflat (scratch.names ++ init) (by simpa using hnames))

theorem flat_ne_drawingPath (h : Job.path scratch doc = .ok file) (uri : String) :
    file.flat ≠ (drawingPath scratch uri).flat := by
  have hdrawing : (drawingPath scratch uri).flat = scratch.flat ++ [Text.Md5.ofText uri ++ ".json"] :=
    flat_append _ (ne_of_getLast? (getLast?_append_text _ (c := 'n') rfl) (d := '.') rfl (by decide))
  rw [hdrawing]
  rcases flat_of_path h with hflat | ⟨names, stem, hflat⟩
  · rw [hflat]
    simp
  · rw [hflat]
    intro heq
    have hlast := (List.append_inj' heq rfl).2
    exact ne_of_getLast? (getLast?_append_text stem (c := 'l') rfl) (getLast?_append_text _ (c := 'n') rfl)
      (by decide) (List.cons.inj hlast).1

/-! ## Runs -/

/-- What happens while a server runs: a message comes, or the user edits files. -/
inductive Turn where
  | message (m : Node)
  | edit (files : List (List String × Option String))

def Turn.apply (s : Session) : Turn → Session
  | .message m => handleNoting m s
  | .edit files => { s with server.site.workspace.files := files }

/-- What a past leads to. What happened last is first in it. -/
def afterTurns (start : Session) : List Turn → Session
  | [] => start
  | t :: earlier => t.apply (afterTurns start earlier)

/-- The writer of data got stuck on a file while a message was served. -/
def GotStuck (start : Session) (past : List Turn) (names : List String) : Prop :=
  ∃ later m earlier, past = later ++ .message m :: earlier ∧
    (afterTurns start earlier).server.site.jobWriter = none ∧
    (afterTurns start (.message m :: earlier)).server.site.jobWriter.map (·.path.flat) = some names

/-- A message asks about an open document whose job file is under these names, but by a path
that goes back out of a directory that is not there. -/
def LeadsAround (s : Server) (m : Node) (names : List String) : Prop :=
  methodOf (m.field? "method") = .ok .hover ∧
    ∃ uri d p, address? m = some uri ∧ documentAt? s uri = some d ∧
      Job.path s.site.workspace.scratch d.uri = .ok p ∧ p.flat = names ∧
      s.site.workspace.passes [] p.names = false

instance (s : Server) (m : Node) (names : List String) : Decidable (LeadsAround s m names) :=
  decidable_of_iff (((methodOf (m.field? "method")).toOption == some .hover &&
    (address? m).any fun uri => (documentAt? s uri).any fun d =>
      (Job.path s.site.workspace.scratch d.uri).toOption.any fun p =>
        p.flat == names && !s.site.workspace.passes [] p.names) = true) <| by
    have hok {α : Type} {x : Except Fault α} {a : α} : x.toOption = some a ↔ x = .ok a := by
      cases x <;> simp [Except.toOption]
    simp only [Bool.and_eq_true, beq_iff_eq, Option.any_eq_true, Bool.not_eq_true', hok, LeadsAround]
    constructor
    · rintro ⟨hmethod, uri, huri, d, hd, p, hp, hflat, hpasses⟩
      exact ⟨hmethod, uri, d, p, huri, hd, hp, hflat, hpasses⟩
    · rintro ⟨hmethod, uri, d, p, huri, hd, hp, hflat, hpasses⟩
      exact ⟨hmethod, uri, huri, d, hd, p, hp, hflat, hpasses⟩

theorem handleNoting_writer (m : Node) (s : Session)
    (h : s.server.site.jobWriter.map StuckWriter.path = some stuck) :
    (handleNoting m s).server.site.jobWriter.map StuckWriter.path = some stuck := by
  cases handleNoting_effect m s with
  | none _ hwriter => rw [hwriter, h]
  | drawing _ _ _ hwriter => rw [hwriter, h]
  | @hover uri d place _ _ _ _ hwriter =>
    rw [hwriter]
    cases (Document.hover_effect d s.server.engine place s.server.site).1 with
    | none _ _ hsame => rw [hsame, h]
    | asks _ _ _ hasks => exact hasks.writer h

variable {past : List Turn}

theorem gotStuck_of_writer (hstart : start.server.site.jobWriter = none)
    (h : (afterTurns start past).server.site.jobWriter.map StuckWriter.path = some stuck) :
    GotStuck start past stuck.flat := by
  induction past with
  | nil =>
    rw [afterTurns, hstart] at h
    cases h
  | cons t past ih =>
    have hlater (hpast : GotStuck start past stuck.flat) : GotStuck start (t :: past) stuck.flat := by
      obtain ⟨later, m, earlier, rfl, hnone, hsome⟩ := hpast
      exact ⟨t :: later, m, earlier, rfl, hnone, hsome⟩
    cases t with
    | edit files => exact hlater (ih h)
    | message m =>
      cases hwriter : (afterTurns start past).server.site.jobWriter with
      | none =>
        refine ⟨[], m, past, rfl, hwriter, ?_⟩
        obtain ⟨w, hw, rfl⟩ := Option.map_eq_some_iff.mp h
        rw [hw]
        rfl
      | some w =>
        have hbefore : (afterTurns start past).server.site.jobWriter.map StuckWriter.path = some w.path := by
          rw [hwriter]
          rfl
        have hsame : w.path = stuck := by
          have hafter := handleNoting_writer m _ hbefore
          exact Option.some.inj (hafter.symm.trans h)
        exact hlater (ih (hsame ▸ hbefore))

theorem doc_of_job {d : Document} {job} (h : d.job = .ok job) : job.doc = d.uri := by
  unfold Document.job at h
  split at h
  · cases h
    rfl
  · cases h

theorem writer_of_gotStuck {names} (h : GotStuck start past names) :
    (afterTurns start past).server.site.jobWriter.map (·.path.flat) = some names := by
  obtain ⟨later, stuck, earlier, rfl, -, hstuck⟩ := h
  induction later with
  | nil => exact hstuck
  | cons t later ih =>
    cases t with
    | edit files => exact ih
    | message m =>
      obtain ⟨w, hw, hflat⟩ := Option.map_eq_some_iff.mp ih
      have hpath : (afterTurns start (later ++ .message stuck :: earlier)).server.site.jobWriter.map
          StuckWriter.path = some w.path := by
        rw [hw]
        rfl
      obtain ⟨w', hw', hsame⟩ := Option.map_eq_some_iff.mp (handleNoting_writer m _ hpath)
      refine Option.map_eq_some_iff.mpr ⟨w', hw', ?_⟩
      rw [hsame, hflat]

/-- A job file of the user, of any document, open or not, is as it was after every message of
every run, however the user edits files in between, unless the writer of data got stuck on it
earlier or the message asks about a document whose path leads to it out of a missing
directory. -/
theorem custom_job_file_kept {start : Session} (hstart : start.server.site.jobWriter = none)
    (past : List Turn) (m : Node) {doc : Node} {file : Path} {text : String}
    (hpath : Job.path (afterTurns start past).server.site.workspace.scratch doc = .ok file)
    (hfile : (afterTurns start past).server.site.workspace.entryAt file.flat = .file text)
    (hcustom : Job.isCustom text = true) (hwriter : ¬ GotStuck start past file.flat)
    (haround : ¬ LeadsAround (afterTurns start past).server m file.flat) :
    (afterTurns start (.message m :: past)).server.site.workspace.entryAt file.flat = .file text := by
  have hfree : ∀ w, (afterTurns start past).server.site.jobWriter = some w → w.path.flat ≠ file.flat := by
    intro w hw heq
    refine hwriter (heq ▸ gotStuck_of_writer hstart ?_)
    rw [hw]
    rfl
  rw [afterTurns, Turn.apply]
  generalize afterTurns start past = s at *
  cases handleNoting_effect m s with
  | none hworkspace _ => rw [hworkspace, hfile]
  | drawing uri written hworkspace _ =>
    rw [hworkspace]
    exact Workspace.file_of_listed (Workspace.listed_write (flat_ne_drawingPath hpath uri)) hfile
  | @hover uri d place hmethod haddress hopen hworkspace _ =>
    rw [hworkspace]
    cases (Document.hover_effect d s.server.engine place s.server.site).1 with
    | none _ hsame _ => rw [hsame, hfile]
    | @asks job hjob kept? _ hasks =>
      have hdoc : job.doc = d.uri := doc_of_job hjob
      have hprotected : Protected job.doc file.flat text s.server.site :=
        { file := hfile
          writer := hfree
          direct := by
            intro p hp hflat
            cases hpasses : s.server.site.workspace.passes [] p.names with
            | true => rfl
            | false =>
              exact absurd ⟨hmethod, uri, d, p, haddress, hopen, hdoc ▸ hp, hflat, hpasses⟩ haround }
      exact (hasks.protected hprotected hcustom).file

/-! ## Two documents and one job file -/

/-- A language in which a text with expressions can be written as the standard output. -/
def outputCatalog : Language.Catalog :=
  [(Language.latest, ⟨Language.processTypes.map fun t =>
    (.str t, .record (.str t) false [("stdout", false, [.expression])])⟩)]

def outputText : String :=
  "class: CommandLineTool\ninputs: {}\noutputs: []\nstdout: $(inputs.x)"

def hoverMessage (uri : String) : Node :=
  textMessage "textDocument/hover" uri [] [("position", .record [("line", .num 3), ("character", .num 10)])]

def introduction : Node := .record [("id", .num 1), ("method", .str "initialize")]

def newSession : Session := { server := { site := emptySite, catalog := outputCatalog } }

/-- The job file of the document at `/a.cwl`, with a text that cannot be read. -/
def brokenJobFile : List (List String × Option String) :=
  [(["scratch", "a.benten.test.job.yml"], some "#custom\n[")]

/-- Two documents are open, and the user has made the job file of the first. -/
def jobFilePast : List Turn :=
  [.edit brokenJobFile, .message (openingMessage "file:///b/../a.cwl" outputText),
    .message (openingMessage "file:///a.cwl" outputText), .message introduction]

/-- The text of that file once the document at the address was hovered. -/
def jobFileAfterHover (uri : String) : Workspace.Entry :=
  (afterTurns newSession (.message (hoverMessage uri) :: jobFilePast)).server.site.workspace.entryAt
    ["scratch", "a.benten.test.job.yml"]

theorem custom_job_file_kept_sample :
    jobFileAfterHover "file:///a.cwl" = .file "#custom\n[" := by
  let file : Path := ⟨"/", ["scratch", "a.benten.test.job.yml"]⟩
  let s := (afterTurns newSession jobFilePast).server
  have hfacts : (Job.path s.site.workspace.scratch (.str "file:///a.cwl")).toOption = some file ∧
      s.site.workspace.entryAt file.flat = .file "#custom\n[" ∧ s.site.jobWriter.isNone = true ∧
      ¬ LeadsAround s (hoverMessage "file:///a.cwl") file.flat := by decide +kernel
  obtain ⟨hpath, hfile, hnone, haround⟩ := hfacts
  have hwriter : ¬ GotStuck newSession jobFilePast file.flat := by
    intro h
    have hsome := writer_of_gotStuck h
    rw [Option.isNone_iff_eq_none.mp hnone] at hsome
    cases hsome
  exact custom_job_file_kept rfl jobFilePast _ (eq_ok_of_toOption hpath) hfile (by decide +kernel)
    hwriter haround

/-- The second document lies at the same place but its address leads around, over a directory that
does not exist: its job is not seen there, and a new one takes its place. -/
theorem custom_job_file_lost :
    jobFileAfterHover "file:///b/../a.cwl" = .file "inputs: {}\noutputs: {}\n" := by
  decide +kernel

end CwlService.Server
