import CwlService.Job.Data
import CwlService.Proofs.Outcome

/-! # What an access to sample data does

An access looks at the job file first. A file of the user is read, and what it holds is kept.
Otherwise the data that are kept answer, and only if there are none are new ones drawn, kept
and written. -/
namespace CwlService.Job

/-- The text that stands at a path, if a file is there. -/
def textOf : Workspace.Entry → Except Fault (Option String)
  | .file text => if Text.isReadable text then pure (some text) else throw .undecodable
  | .directory => throw .isDirectory
  | .nothing => pure none

/-- The text of the job file, if there is one. -/
def fileText (job : Job) (w : Workspace) : Except Fault (Option String) := do
  textOf (← w.find (← path w.scratch job.doc))

/-- What a job file with a text of the user holds. -/
def loaded (text : String) (s : Site) : Except Fault Node × Site :=
  (Work.readJob (Text.newlinesText text)).run.run s

/-- New data for the process of a job. -/
def generated (job : Job) (s : Site) : Except Fault Node × Site :=
  (Work.draw (Sample.data s.workspace job.doc job.process job.types)).run.run s

/-- New data that are written to a file. -/
def renewed (job : Job) (file : Path) (s : Site) : Except Fault Node × Site :=
  match job.generated s with
  | (.error f, s') => (.error f, s')
  | (.ok n, s') =>
    let w := (Work.writeData file n).run.run s'
    (w.1.map fun _ => n, w.2)

variable {job : Job} {s : Site} {kept? : Option Node} {file : Path}

theorem onSite_run {α : Type} (w : Work α) (s : Site) (kept? : Option Node) :
    (onSite w).run.run (s, kept?) = ((w.run.run s).1, (w.run.run s).2, kept?) := by
  unfold onSite
  rw [ExceptT.run_bind, StateT.run_bind]
  rfl

theorem readFile?_run (file : Path) (s : Site) :
    (Work.readFile? file).run.run s = (s.workspace.find file >>= textOf, s) := by
  unfold Work.readFile?
  rw [run_get_bind]
  cases s.workspace.find file with
  | error f => rfl
  | ok e =>
    rw [run_lift_bind]
    cases e with
    | file text =>
      dsimp only [textOf, bind, Except.bind]
      split <;> rfl
    | directory => rfl
    | nothing => rfl

variable {text? : Option String}

theorem data_run (hpath : path s.workspace.scratch job.doc = .ok file)
    (htext : job.fileText s.workspace = .ok text?) : job.data.run.run (s, kept?) =
      (match text?.filter isCustom with
        | some text => do
          let n ← onSite (Work.readJob (Text.newlinesText text))
          modify fun s => (s.1, kept n)
          pure n
        | none => job.keptOrNew file : Task Node).run.run (s, kept?) := by
  have hread := onSite_run (Work.readFile? file) s kept?
  have hfile : (s.workspace.find file >>= textOf) = .ok text? := by
    rw [← htext, fileText, hpath]
    rfl
  rw [readFile?_run, hfile] at hread
  unfold data
  rw [run_get_bind, hpath, run_lift_bind]
  exact run_bind hread

theorem path_of_fileText {w} (h : job.fileText w = .ok text?) :
    ∃ file, path w.scratch job.doc = .ok file := by
  cases hpath : path w.scratch job.doc with
  | error f =>
    rw [fileText, hpath] at h
    cases h
  | ok file => exact ⟨file, rfl⟩

theorem data_of_error {f} (h : job.fileText s.workspace = .error f) :
    job.data.run.run (s, kept?) = (.error f, s, kept?) := by
  unfold data
  unfold fileText at h
  rw [run_get_bind]
  cases hpath : path s.workspace.scratch job.doc with
  | error g =>
    rw [hpath] at h
    cases h
    rfl
  | ok file =>
    rw [hpath] at h
    have hfile : (s.workspace.find file >>= textOf) = .error f := h
    have hread := onSite_run (Work.readFile? file) s kept?
    rw [readFile?_run, hfile] at hread
    rw [run_lift_bind, run_bind_error hread]

theorem data_of_custom {text} (h : job.fileText s.workspace = .ok (some text))
    (hcustom : isCustom text = true) : job.data.run.run (s, kept?) =
      ((loaded text s).1, (loaded text s).2, match (loaded text s).1 with
        | .ok n => kept n
        | .error _ => kept?) := by
  obtain ⟨file, hpath⟩ := path_of_fileText h
  have hload := onSite_run (Work.readJob (Text.newlinesText text)) s kept?
  rw [data_run hpath h, Option.filter_some_pos hcustom]
  unfold loaded
  cases hr : (Work.readJob (Text.newlinesText text)).run.run s with
  | mk r s' =>
    rw [hr] at hload
    cases r with
    | error f => exact run_bind_error hload
    | ok n => exact run_bind hload

theorem data_of_kept {n} (h : job.fileText s.workspace = .ok text?)
    (hcustom : text?.filter isCustom = none) : job.data.run.run (s, some n) = (.ok n, s, some n) := by
  obtain ⟨file, hpath⟩ := path_of_fileText h
  rw [data_run hpath h, hcustom]
  rfl

/-- Without a file of the user and with nothing kept, new data are drawn, kept and written. -/
theorem data_of_nothing (h : job.fileText s.workspace = .ok text?)
    (hpath : path s.workspace.scratch job.doc = .ok file) (hcustom : text?.filter isCustom = none) :
    job.data.run.run (s, none) =
      ((job.renewed file s).1, (job.renewed file s).2, (job.generated s).1.toOption) := by
  have hdraw := onSite_run (Work.draw (Sample.data s.workspace job.doc job.process job.types)) s none
  rw [data_run hpath h, hcustom]
  dsimp only
  unfold keptOrNew renewed generated
  rw [run_get_bind]
  dsimp only
  rw [run_get_bind]
  cases hr : (Work.draw (Sample.data s.workspace job.doc job.process job.types)).run.run s with
  | mk r s' =>
    rw [hr] at hdraw
    cases r with
    | error f => exact run_bind_error hdraw
    | ok n =>
      have hwrite := onSite_run (Work.writeData file n) s' (some n)
      rw [run_bind hdraw, run_modify_bind]
      dsimp only
      cases hw : (Work.writeData file n).run.run s' with
      | mk q s'' =>
        rw [hw] at hwrite
        cases q with
        | error f => exact run_bind_error hwrite
        | ok u => exact run_bind hwrite

end CwlService.Job
