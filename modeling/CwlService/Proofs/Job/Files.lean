import CwlService.Proofs.Document.Accesses
import CwlService.Proofs.Workspace.Writing

/-! # Job files of the user

An access to sample data does not write to a job file that starts with `#custom`, since it
looks at the file first. It still does so in two cases: where the path of the job file leads
back out of a directory that is not there, for then no file is seen, and where the writer of
data has been stuck on that file since it failed there. -/
namespace CwlService

/-- A file that work on a document spares: the writer of data is not stuck on it, and if it is
the job file of the document its path leads straight to it. -/
structure Protected (doc : Node) (names : List String) (text : String) (s : Site) : Prop where
  file : s.workspace.entryAt names = .file text
  writer : ∀ w, s.jobWriter = some w → w.path.flat ≠ names
  direct : ∀ p, Job.path s.workspace.scratch doc = .ok p → p.flat = names →
    s.workspace.passes [] p.names = true

variable {doc : Node} {names : List String} {text : String} {s s' : Site}

theorem Protected.transfer (h : Protected doc names text s) (hspares : s.workspace.Spares names s'.workspace)
    (hwriter : ∀ w, s'.jobWriter = some w → w.path.flat ≠ names) : Protected doc names text s' where
  file := hspares.file text h.file
  writer := hwriter
  direct := by
    intro p hp hflat
    rw [hspares.scratch] at hp
    exact hspares.passes (h.direct p hp hflat)

theorem Protected.of_same (h : Protected doc names text s) (hworkspace : s'.workspace = s.workspace)
    (hwriter : s'.jobWriter = s.jobWriter) : Protected doc names text s' :=
  h.transfer (hworkspace ▸ .refl names _) (hwriter ▸ h.writer)

namespace Work

/-! ## Writing data -/

theorem prepare_run (names path s) :
    ∃ r w, (prepare path).run.run s = (r, { s with workspace := w }) ∧ s.workspace.Spares names w := by
  have hmade := Workspace.makeDirectory_spares names s.workspace path.names.dropLast
  unfold prepare
  dsimp only
  by_cases hnames : (path.names.dropLast.any fun n => n.toList.contains '\x00') = true
  · rw [if_pos hnames]
    exact ⟨_, s.workspace, rfl, .refl names _⟩
  · rw [if_neg hnames, run_get_bind]
    cases hr : s.workspace.makeDirectory path.names.dropLast with
    | mk w r =>
      rw [hr] at hmade
      cases r with
      | error f => exact ⟨_, w, rfl, hmade⟩
      | ok u =>
        by_cases hname : path.name.toList.contains '\x00' = true
        · simp only [hname]
          exact ⟨_, w, rfl, hmade⟩
        · simp only [hname]
          by_cases hlong : Workspace.isLong path.name = true
          · simp only [hlong]
            exact ⟨_, w, rfl, hmade⟩
          · simp only [hlong]
            exact ⟨_, w, rfl, hmade⟩

theorem writeFile_run (names) {path} (hne : names ≠ path.flat) (text s) :
    ∃ r w, (writeFile path text).run.run s = (r, { s with workspace := w }) ∧ s.workspace.Spares names w := by
  unfold writeFile
  rw [run_get_bind]
  cases hentry : s.workspace.entryAt path.flat with
  | directory => exact ⟨_, s.workspace, rfl, .refl names _⟩
  | file old => exact ⟨_, _, rfl, Workspace.write_spares text hne (by rw [hentry]; exact nofun)⟩
  | nothing => exact ⟨_, _, rfl, Workspace.write_spares text hne (by rw [hentry]; exact nofun)⟩

theorem writeData_protected (h : Protected doc names text s) {path} (hne : names ≠ path.flat)
    (data : Node) : Protected doc names text ((writeData path data).run.run s).2 := by
  obtain ⟨r, w, hprepare, hspares⟩ := prepare_run names path s
  have hprepared : Protected doc names text { s with workspace := w } := h.transfer hspares h.writer
  unfold writeData
  cases r with
  | error f =>
    rw [run_bind_error hprepare]
    exact hprepared
  | ok u =>
    rw [run_bind hprepare, run_get_bind]
    generalize ({ s with workspace := w } : Site) = t at hprepared
    cases hwriter : t.jobWriter with
    | none =>
      cases hdata : t.writes t.readers.jobs.dialect .saved data with
      | ok written =>
        obtain ⟨r, w, hwrite, hspares⟩ := writeFile_run names hne written t
        dsimp only
        rw [hwrite]
        exact hprepared.transfer hspares hprepared.writer
      | error f =>
        obtain ⟨r, w, hwrite, hspares⟩ := writeFile_run names hne "" t
        dsimp only
        cases r with
        | error f =>
          rw [run_bind_error hwrite]
          exact hprepared.transfer hspares hprepared.writer
        | ok u =>
          rw [run_bind hwrite, run_modify_bind]
          refine hprepared.transfer hspares fun stuck hstuck => ?_
          cases hstuck
          exact Ne.symm hne
    | some stuck =>
      have hother := hprepared.writer stuck hwriter
      cases hdata : t.writes t.readers.jobs.dialect .saved data with
      | ok written =>
        dsimp only
        refine hprepared.transfer (Workspace.overwrite_spares _ _ (Ne.symm hother)) fun w hw => ?_
        cases hw
        exact hother
      | error f =>
        dsimp only
        exact hprepared

/-! ## A writer that is stuck -/

theorem writeData_writer (path : Path) (data : Node) {file}
    (h : s.jobWriter.map StuckWriter.path = some file) :
    ((writeData path data).run.run s).2.jobWriter.map StuckWriter.path = some file := by
  obtain ⟨stuck, hstuck, rfl⟩ := Option.map_eq_some_iff.mp h
  obtain ⟨r, w, hprepare, -⟩ := prepare_run [] path s
  unfold writeData
  cases r with
  | error f =>
    rw [run_bind_error hprepare]
    exact h
  | ok u =>
    rw [run_bind hprepare, run_get_bind]
    simp only [hstuck]
    cases s.writes s.readers.jobs.dialect .saved data with
    | ok written => rfl
    | error f => rfl

end Work

/-! ## Asking for sample data -/

namespace Job

variable {job : Job} {kept? : Option Node}

theorem fileText_of_direct {w file} (hpath : path w.scratch job.doc = .ok file)
    (hpasses : w.passes [] file.names = true) (hentry : w.entryAt file.flat = .file text) {text?}
    (h : job.fileText w = .ok text?) : text? = some text := by
  have hlook : w.look file = .file text := by rw [Workspace.look, if_pos hpasses, hentry]
  have hread : (w.find file >>= textOf) = .ok text? := by
    rw [← h, fileText, hpath]
    rfl
  unfold Workspace.find at hread
  split at hread
  · cases hread
  · rw [hlook] at hread
    have htext : textOf (.file text) = .ok text? := hread
    rw [textOf] at htext
    split at htext
    · cases htext
      rfl
    · cases htext

theorem loaded_unchanged (text : String) (s : Site) :
    (loaded text s).2.workspace = s.workspace ∧ (loaded text s).2.jobWriter = s.jobWriter := by
  unfold loaded Work.readJob
  rw [run_get_bind]
  generalize Document.reading _ = read
  exact ⟨rfl, rfl⟩

theorem generated_unchanged (job : Job) (s : Site) :
    (job.generated s).2.workspace = s.workspace ∧ (job.generated s).2.jobWriter = s.jobWriter := by
  unfold generated Work.draw
  rw [run_get_bind]
  exact ⟨rfl, rfl⟩

/-- What an access does to the surroundings: it leaves the files and the writer as they are, or it
writes new data, if no file of the user is seen. -/
theorem data_cases (job : Job) (s kept?) :
    ∃ t, t.workspace = s.workspace ∧ t.jobWriter = s.jobWriter ∧
      ((job.data.run.run (s, kept?)).2.1 = t ∨ ∃ file text? n, path s.workspace.scratch job.doc = .ok file ∧
        job.fileText s.workspace = .ok text? ∧ text?.filter isCustom = none ∧
          (job.data.run.run (s, kept?)).2.1 = ((Work.writeData file n).run.run t).2) := by
  cases hfile : job.fileText s.workspace with
  | error f => exact ⟨s, rfl, rfl, .inl (by rw [data_of_error hfile])⟩
  | ok text? =>
    obtain ⟨file, hpath⟩ := path_of_fileText hfile
    cases htext : text?.filter isCustom with
    | some found =>
      obtain ⟨rfl, hfound⟩ := Option.filter_eq_some_iff.mp htext
      obtain ⟨hworkspace, hwriter⟩ := loaded_unchanged found s
      exact ⟨_, hworkspace, hwriter, .inl (by rw [data_of_custom hfile hfound])⟩
    | none =>
      cases kept? with
      | some n => exact ⟨s, rfl, rfl, .inl (by rw [data_of_kept hfile htext])⟩
      | none =>
        obtain ⟨hworkspace, hwriter⟩ := generated_unchanged job s
        refine ⟨_, hworkspace, hwriter, ?_⟩
        rw [data_of_nothing hfile hpath htext, renewed]
        cases job.generated s with
        | mk r t =>
          cases r with
          | error f => exact .inl rfl
          | ok n => exact .inr ⟨file, text?, n, hpath, rfl, htext, rfl⟩

theorem data_protected (h : Protected job.doc names text s) (hcustom : isCustom text = true) :
    Protected job.doc names text (job.data.run.run (s, kept?)).2.1 := by
  obtain ⟨t, hworkspace, hwriter, ht⟩ := data_cases job s kept?
  have hsame := h.of_same hworkspace hwriter
  obtain rfl | ⟨file, text?, n, hpath, hfile, htext, heq⟩ := ht
  · exact hsame
  · have hne : names ≠ file.flat := by
      rintro rfl
      have hseen := fileText_of_direct hpath (h.direct file hpath rfl) h.file hfile
      rw [hseen, Option.filter_some_pos hcustom] at htext
      cases htext
    rw [heq]
    exact Work.writeData_protected hsame hne n

theorem data_writer (job : Job) (kept? : Option Node) {stuck}
    (h : s.jobWriter.map StuckWriter.path = some stuck) :
    (job.data.run.run (s, kept?)).2.1.jobWriter.map StuckWriter.path = some stuck := by
  obtain ⟨t, _, hwriter, ht⟩ := data_cases job s kept?
  rw [← hwriter] at h
  obtain rfl | ⟨file, _, n, _, _, _, heq⟩ := ht
  · exact h
  · rw [heq]
    exact Work.writeData_writer file n h

end Job

namespace Document

theorem Asks.protected {job s t} (hasks : Asks job s t) (h : Protected job.doc names text s.1)
    (hcustom : Job.isCustom text = true) :
    Protected job.doc names text t.1 := by
  induction hasks with
  | refl => exact h
  | access _ ih => exact Job.data_protected ih hcustom
  | draw draws readers _ ih => exact ih.of_same rfl rfl

theorem Asks.writer {job s t} (hasks : Asks job s t) {stuck}
    (h : s.1.jobWriter.map StuckWriter.path = some stuck) :
    t.1.jobWriter.map StuckWriter.path = some stuck := by
  induction hasks with
  | refl => exact h
  | access _ ih => exact Job.data_writer job _ ih
  | draw draws readers _ ih => exact ih

end Document
end CwlService
