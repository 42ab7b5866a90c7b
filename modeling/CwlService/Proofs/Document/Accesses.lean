import CwlService.Proofs.Document.Renewed
import CwlService.Proofs.Job.Data

/-! # Sample data over time

A document gets new texts, its sample data are asked for, and around it files are edited and
other documents are worked on. What the data are each time follows from the past: a job file
of the user counts as long as it is there, and what it held last is still used when it is
not, until the document gets a new text. Only where no such file was read since then are the
data those that were drawn for the document. -/
namespace CwlService.Document

/-- What happens to a document. -/
inductive Happening where
  /-- It gets a new text. -/
  | newText (text : Node)
  /-- Its sample data are asked for. -/
  | access
  /-- Things change around it. -/
  | around (site : Site)

/-- A document and what is around it. -/
abbrev Moment := Document × Site

namespace Happening

def isText : Happening → Bool
  | .newText _ => true
  | _ => false

/-- What comes after a moment. -/
def apply (catalog : Language.Catalog) (now : Moment) : Happening → Moment
  | .newText text =>
    let r := (now.1.update text catalog).run now.2
    (r.1.document, r.2)
  | .access =>
    let r := (now.1.perform Job.data).run now.2
    (r.1.2, r.2)
  | .around site => (now.1, site)

end Happening

/-- What a past leads to. What happened last is first in it. -/
def after (catalog : Language.Catalog) (start : Moment) : List Happening → Moment
  | [] => start
  | h :: earlier => h.apply catalog (after catalog start earlier)

/-- The answer when sample data are asked for. -/
def asked (now : Moment) : Except Fault Node := ((now.1.perform Job.data).run now.2).1.1

/-- What is in the job file of the user, if there is one. -/
def customData? (now : Moment) : Option (Except Fault Node) :=
  match now.1.job.bind fun job => job.fileText now.2.workspace with
  | .ok text? => (text?.filter Job.isCustom).map fun text => (Job.loaded text now.2).1
  | .error _ => none

/-- The data that were last read from a job file of the user since the document got its text.
Null counts as no data. -/
def recalled (catalog : Language.Catalog) (start : Moment) : List Happening → Option Node
  | [] => none
  | .newText _ :: _ => none
  | .around _ :: earlier => recalled catalog start earlier
  | .access :: earlier =>
    match customData? (after catalog start earlier) with
    | some (.ok n) => Job.kept n
    | _ => recalled catalog start earlier

/-- Data were drawn for a job at some access since the document got its text. -/
inductive Drawn (catalog : Language.Catalog) (start : Moment) (job : Job) (n : Node) :
    List Happening → Prop
  | access {earlier} (hdraw : (job.generated (after catalog start earlier).2).1 = .ok n) :
      Drawn catalog start job n (.access :: earlier)
  | earlier {h earlier} (htext : h.isText = false) (hdrawn : Drawn catalog start job n earlier) :
      Drawn catalog start job n (h :: earlier)

/-! ## A new text -/

variable (d : Document) (path : List Node) (engine : Script.Engine) (place : Caret)

theorem update_sample (text : Node) (catalog : Language.Catalog) (site : Site) :
    ((d.update text catalog).run site).1.document.sample = none := by
  obtain ⟨⟨_, _, _, _, _, hdocument⟩, -⟩ := @update_frame catalog site d text
  rw [hdocument]

/-! ## An access -/

theorem perform_run {α : Type} {d : Document} {job} (hjob : d.job = .ok job)
    (task : Job → Job.Task α) (s : Site) : (d.perform task).run s =
      let r := (task job).run.run (s, d.sample)
      ((r.1, { d with sample := r.2.2 }), r.2.1) := by
  unfold perform
  rw [hjob]
  rfl

theorem perform_of_no_job {α : Type} {d : Document} {f} (hjob : d.job = .error f)
    (task : Job → Job.Task α) (s : Site) : (d.perform task).run s = ((.error f, d), s) := by
  unfold perform
  rw [hjob]
  rfl

variable {catalog : Language.Catalog} {start now : Moment} {job : Job}

theorem asked_eq (hjob : now.1.job = .ok job) : asked now = (job.data.run.run (now.2, now.1.sample)).1 := by
  rw [asked, perform_run hjob]

theorem access_apply (hjob : now.1.job = .ok job) : Happening.access.apply catalog now =
      ({ now.1 with sample := (job.data.run.run (now.2, now.1.sample)).2.2 },
        (job.data.run.run (now.2, now.1.sample)).2.1) := by
  simp only [Happening.apply, perform_run hjob]

theorem access_job (now : Moment) : (Happening.access.apply catalog now).1.job = now.1.job := by
  cases hjob : now.1.job with
  | error f => simp only [Happening.apply, perform_of_no_job hjob, hjob]
  | ok job => rw [access_apply hjob, ← hjob]; rfl

theorem customData?_eq (hjob : now.1.job = .ok job) {text?}
    (hfile : job.fileText now.2.workspace = .ok text?) :
    customData? now = (text?.filter Job.isCustom).map fun text => (Job.loaded text now.2).1 := by
  rw [customData?, hjob]
  simp only [Except.bind, hfile]

theorem customData?_of_error (hjob : now.1.job = .ok job) {f}
    (hfile : job.fileText now.2.workspace = .error f) : customData? now = none := by
  rw [customData?, hjob]
  simp only [Except.bind, hfile]

/-- What is kept of sample data is what was recalled or, if nothing was, what was drawn. -/
def Remembers (recalled? kept? : Option Node) (drawn : Node → Prop) : Prop :=
  match recalled? with
  | some n => kept? = some n
  | none => ∀ n, kept? = some n → drawn n

namespace Remembers

variable {recalled? kept? : Option Node} {drawn drawn' : Node → Prop}

theorem same (n? : Option Node) (drawn : Node → Prop) : Remembers n? n? drawn := by
  cases n? with
  | some n => rfl
  | none => exact fun n hn => nomatch hn

theorem mono (h : Remembers recalled? kept? drawn) (hmono : ∀ n, drawn n → drawn' n) :
    Remembers recalled? kept? drawn' := by
  cases recalled? with
  | some n => exact h
  | none => exact fun n hn => hmono n (h n hn)

theorem recalled_eq_none (h : Remembers recalled? none drawn) : recalled? = none := by
  cases recalled? with
  | some n => exact nomatch (h : none = some n)
  | none => rfl

end Remembers

theorem remembers_access {past} (hjob : (after catalog start past).1.job = .ok job)
    (h : Remembers (recalled catalog start past) (after catalog start past).1.sample
      fun n => Drawn catalog start job n past) :
    Remembers (recalled catalog start (.access :: past)) (after catalog start (.access :: past)).1.sample
      fun n => Drawn catalog start job n (.access :: past) := by
  have hearlier : Remembers (recalled catalog start past) (after catalog start past).1.sample
      fun n => Drawn catalog start job n (.access :: past) :=
    h.mono fun n hn => .earlier rfl hn
  have hdrawn (n : Node) : (job.generated (after catalog start past).2).1 = .ok n →
      Drawn catalog start job n (.access :: past) := .access
  generalize hnow : after catalog start past = now at hjob hearlier hdrawn
  simp only [after, recalled, hnow, access_apply hjob]
  cases hfile : job.fileText now.2.workspace with
  | error f =>
    rw [customData?_of_error hjob hfile, Job.data_of_error hfile]
    exact hearlier
  | ok text? =>
    rw [customData?_eq hjob hfile]
    cases hcustom : text?.filter Job.isCustom with
    | some text =>
      obtain ⟨rfl, htext⟩ := Option.filter_eq_some_iff.mp hcustom
      rw [Job.data_of_custom hfile htext]
      cases hloaded : (Job.loaded text now.2).1 with
      | error f => simpa [hloaded] using hearlier
      | ok n => simpa [hloaded] using Remembers.same (Job.kept n) _
    | none =>
      obtain ⟨file, hpath⟩ := Job.path_of_fileText hfile
      cases hsample : now.1.sample with
      | some n =>
        rw [Job.data_of_kept hfile hcustom]
        simpa [hsample] using hearlier
      | none =>
        rw [hsample] at hearlier
        rw [Job.data_of_nothing hfile hpath hcustom, hearlier.recalled_eq_none]
        intro n hn
        cases hnew : (job.generated now.2).1 with
        | error f => simp [hnew, Except.toOption] at hn
        | ok m =>
          obtain rfl : m = n := by simpa [hnew, Except.toOption] using hn
          exact hdrawn m hnew

theorem remembers (catalog : Language.Catalog) (uri : Node) (site : Site) (past : List Happening)
    {job} (hjob : (after catalog ({ uri }, site) past).1.job = .ok job) :
    Remembers (recalled catalog ({ uri }, site) past) (after catalog ({ uri }, site) past).1.sample
      fun n => Drawn catalog ({ uri }, site) job n past := by
  induction past with
  | nil => cases hjob
  | cons h past ih =>
    cases h with
    | newText text =>
      simp only [recalled, after, Happening.apply, update_sample]
      exact fun n hn => nomatch hn
    | around site => exact (ih hjob).mono fun n hn => .earlier rfl hn
    | access =>
      rw [after, access_job] at hjob
      exact remembers_access hjob (ih hjob)

/-! ## A question about a place -/

/-- Sample data are asked for, any number of times, and other samples are drawn in between. -/
inductive Asks (job : Job) : Site × Option Node → Site × Option Node → Prop
  | refl (s) : Asks job s s
  | access {s t} (h : Asks job s t) : Asks job s (job.data.run.run t).2
  | draw {s t} (draws : Nat) (readers : Readers) (h : Asks job s t) :
      Asks job s ({ t.1 with draws, readers }, t.2)

theorem Asks.trans {s t u} (h : Asks job s t) (h' : Asks job t u) : Asks job s u := by
  induction h' with
  | refl => exact h
  | access _ ih => exact .access ih
  | draw draws readers _ ih => exact .draw draws readers ih

def asking (job : Job) : Course (Site × Option Node) := ⟨Asks job, .refl, .trans⟩

namespace Asking

variable {α β : Type}

theorem data : Goes (asking job) job.data := fun s => .access (.refl s)

theorem draw (d : Sample.Draw α) : Goes (asking job) (Job.onSite (Work.draw d)) := by
  intro s
  rw [Job.onSite_run]
  exact .draw _ _ (.refl s)

theorem tryCatch {x : Job.Task α} {f : Fault → Job.Task α} (hx : Goes (asking job) x)
    (hf : ∀ e, Goes (asking job) (f e)) : Goes (asking job) (MonadExcept.tryCatch x f) := by
  intro s
  have hs := hx s
  cases hrun : x.run.run s with
  | mk r t =>
    have hx : StateT.run x s = (r, t) := hrun
    rw [hrun] at hs
    change Asks job s ((ExceptT.tryCatch x f).run.run s).2
    rw [ExceptT.tryCatch, ExceptT.run_mk, StateT.run_bind, hx]
    cases r with
    | error e => exact hs.trans (hf e t)
    | ok a => exact hs

theorem mapM {f : α → Job.Task β} (hf : ∀ a, Goes (asking job) (f a)) (l : List α) :
    Goes (asking job) (l.mapM f) := by
  induction l with
  | nil => exact .pure _
  | cons a l ih =>
    rw [List.mapM_cons]
    exact .bind (hf a) fun b => .bind ih fun bs => .pure _

theorem inputs : Goes (asking job) job.inputs := .bind data fun _ => .lift _

theorem outputs : Goes (asking job) job.outputs := .bind data fun _ => .lift _

theorem stepInputs : Goes (asking job) (job.stepInputs path) := by
  unfold Job.stepInputs
  refine .bind (.lift _) fun step => .bind inputs fun values => .bind (.lift _) fun node =>
    .bind (.lift _) fun steps => ?_
  split
  · exact .throw _
  · refine .bind (.lift _) fun node => .bind (.lift _) fun ports =>
      .bind (mapM (fun p => .bind (.lift _) fun v => .pure _) _) fun given =>
        .bind (.lift _) fun own => .pure _

theorem selfOf (inputs outputs) : Goes (asking job) (Document.selfOf job path inputs outputs) := by
  unfold Document.selfOf
  refine .ite ?_ (.ite ?_ (.ite (stepInputs path) (.pure _)))
  · exact .ite (.bind (.lift _) fun k => .bind (.lift _) fun v => .pure _)
      (.ite (.bind (.lift _) fun k => .bind (.lift _) fun v => .pure _) (.pure _))
  · exact .bind (.lift _) fun name => .bind (draw _) fun v => .pure _

theorem selfOrNothing (inputs outputs : Node) :
    Goes (asking job) (Document.selfOrNothing job path inputs outputs) := by
  refine tryCatch (selfOf path inputs outputs) fun f => ?_
  split
  · exact .pure _
  · exact .pure _
  · exact .throw _

theorem evaluated (library : Node) (text : String) (path : List Node) :
    Goes (asking job) (Document.evaluated engine job library text path) := by
  unfold Document.evaluated
  exact .bind inputs fun _ => .bind outputs fun _ => .bind (selfOrNothing _ _ _) fun _ =>
    .ite (.bind (.lift _) fun _ => .pure _) (.pure _)

end Asking

theorem Asks.past (catalog : Language.Catalog) {d} (hjob : d.job = .ok job) {s t} (h : Asks job s t)
    (hd : d.sample = s.2) : ∃ asks : List Happening, (∀ h ∈ asks, h.isText = false) ∧
      after catalog (d, s.1) asks = ({ d with sample := t.2 }, t.1) := by
  induction h with
  | refl =>
    refine ⟨[], by simp, ?_⟩
    rw [after, ← hd]
  | @access t h ih =>
    obtain ⟨asks, hasks, hafter⟩ := ih
    refine ⟨.access :: asks, by simpa [Happening.isText] using hasks, ?_⟩
    have hjob' : ({ d with sample := t.2 } : Document).job = .ok job := hjob
    rw [after, hafter, access_apply hjob']
  | @draw t draws readers h ih =>
    obtain ⟨asks, hasks, hafter⟩ := ih
    refine ⟨.around { t.1 with draws, readers } :: asks, by simpa [Happening.isText] using hasks, ?_⟩
    rw [after, hafter]
    rfl

theorem after_append (catalog : Language.Catalog) (start : Moment) (later past : List Happening) :
    after catalog start (later ++ past) = after catalog (after catalog start past) later := by
  induction later with
  | nil => rfl
  | cons h later ih => rw [List.cons_append, after, after, ih]

/-! ## Scripts that end -/

section

variable {engine} (hengine : engine.Returns)
include hengine

theorem isSome_evaluate (c : Expression.Context) (kind : Expression.FragmentKind) (body : String) :
    (Expression.evaluate engine c kind body).isSome = true := by
  unfold Expression.evaluate
  split
  · rfl
  split
  · rfl
  split
  · dsimp only
    split
    · rfl
    · rw [Option.isSome_map]
      exact hengine _ _ _
  · rfl

theorem isSome_evaluateAll (c : Expression.Context) (fs : List Expression.Fragment) :
    (Expression.evaluateAll engine c fs).isSome = true := by
  induction fs with
  | nil => rfl
  | cons f rest ih =>
    obtain ⟨r, hr⟩ := Option.isSome_iff_exists.mp (isSome_evaluate hengine c f.kind f.text)
    obtain ⟨more, hmore⟩ := Option.isSome_iff_exists.mp ih
    rw [Expression.evaluateAll, hr, hmore]
    cases r <;> rfl

theorem evaluated_returns {job library text path s r t}
    (h : (evaluated engine job library text path).run.run s = (.ok r, t)) : r.isSome = true := by
  unfold evaluated at h
  obtain ⟨_, _, _, h⟩ := of_run_bind h
  obtain ⟨_, _, _, h⟩ := of_run_bind h
  obtain ⟨_, _, _, h⟩ := of_run_bind h
  dsimp only at h
  split at h
  · obtain ⟨_, _, _, h⟩ := of_run_bind h
    cases h
    exact isSome_evaluateAll hengine _ _
  · cases h
    rfl

end

/-! ## Questions about a place -/

/-- What a question about a place does: it leaves the document, the files and the writer of
data as they are, or it asks for sample data. -/
inductive HoverEffect (d : Document) (s : Site) (d' : Document) (s' : Site) : Prop
  | none (hdocument : d' = d) (hworkspace : s'.workspace = s.workspace)
      (hwriter : s'.jobWriter = s.jobWriter)
  | asks {job : Job} (hjob : d.job = .ok job) (kept? : Option Node) (hdocument : d' = { d with sample := kept? })
      (hasks : Asks job (s, d.sample) (s', kept?))

theorem showType_unchanged (definition : Node) (s : Site) :
    ((Work.showType definition).run.run s).2.workspace = s.workspace ∧
      ((Work.showType definition).run.run s).2.jobWriter = s.jobWriter := by
  unfold Work.showType
  rw [run_get_bind]
  cases s.writes s.readers.links.dialect .shown definition with
  | error f => exact ⟨rfl, rfl⟩
  | ok text => exact ⟨rfl, rfl⟩

theorem hover_effect (s : Site) :
    HoverEffect d s ((d.hover engine place).run s).1.document ((d.hover engine place).run s).2 ∧
      (engine.Returns → ((d.hover engine place).run s).1.outcome.isSome = true) := by
  unfold hover
  cases d.hint? place with
  | error f => exact ⟨.none rfl rfl rfl, fun _ => rfl⟩
  | ok hint? =>
    cases hint? with
    | none => exact ⟨.none rfl rfl rfl, fun _ => rfl⟩
    | some hint =>
      cases hint with
      | expression text path span =>
        cases hjob : d.job with
        | error f =>
          simp only [hintHover, StateT.run_bind, perform_of_no_job hjob]
          exact ⟨.none rfl rfl rfl, fun _ => rfl⟩
        | ok job =>
          have hasks : Asks job (s, d.sample) _ := Asking.evaluated engine d.analysis.library text path (s, d.sample)
          simp only [hintHover, StateT.run_bind, perform_run hjob]
          cases hrun : (Document.evaluated engine job d.analysis.library text path).run.run (s, d.sample) with
          | mk r t =>
            rw [hrun] at hasks
            rcases r with f | _ | r
            · exact ⟨.asks hjob t.2 rfl hasks, fun _ => rfl⟩
            · exact ⟨.asks hjob t.2 rfl hasks, fun hengine => evaluated_returns hengine hrun⟩
            · exact ⟨.asks hjob t.2 rfl hasks, fun _ => rfl⟩
      | dataType names definition =>
        cases definition with
        | none => exact ⟨.none rfl rfl rfl, fun _ => rfl⟩
        | some definition =>
          obtain ⟨hworkspace, hwriter⟩ := showType_unchanged definition s
          exact ⟨.none rfl hworkspace hwriter, fun _ => rfl⟩
      | _ => exact ⟨.none rfl rfl rfl, fun _ => rfl⟩

/-- All that a question about a place does to a document is to ask for its sample data. -/
theorem hover_past (catalog : Language.Catalog) (s : Site) :
    ∃ asks : List Happening, (∀ h ∈ asks, h.isText = false) ∧
      after catalog (d, s) asks =
        (((d.hover engine place).run s).1.document, ((d.hover engine place).run s).2) := by
  cases (hover_effect d engine place s).1 with
  | none hdocument _ _ =>
    rw [hdocument]
    exact ⟨[.around _], by simp [Happening.isText], rfl⟩
  | asks hjob kept? hdocument hasks =>
    rw [hdocument]
    exact hasks.past catalog hjob rfl

/-- What sample data are at any time. A document that is no process has none, and a job file
that cannot be looked at is a fault. A job file of the user answers with what it holds. Where
it is no file of the user, the answer is still what such a file held when it was last read
since the document got its text; and only if there was none is it what was drawn for the
document, at an earlier access since then or now. -/
theorem asked_of_past (catalog : Language.Catalog) (uri : Node) (site : Site) (past : List Happening) :
    (∀ f, (after catalog ({ uri }, site) past).1.job = .error f →
      asked (after catalog ({ uri }, site) past) = .error f) ∧
    (∀ job, (after catalog ({ uri }, site) past).1.job = .ok job →
      match job.fileText (after catalog ({ uri }, site) past).2.workspace with
      | .error f => asked (after catalog ({ uri }, site) past) = .error f
      | .ok text? =>
        match text?.filter Job.isCustom, recalled catalog ({ uri }, site) past with
        | some text, _ =>
          asked (after catalog ({ uri }, site) past) =
            (Job.loaded text (after catalog ({ uri }, site) past).2).1
        | none, some n => asked (after catalog ({ uri }, site) past) = .ok n
        | none, none =>
          (∃ n, Drawn catalog ({ uri }, site) job n past ∧
            asked (after catalog ({ uri }, site) past) = .ok n) ∨
          ∃ file, Job.path (after catalog ({ uri }, site) past).2.workspace.scratch job.doc = .ok file ∧
            asked (after catalog ({ uri }, site) past) =
              (job.renewed file (after catalog ({ uri }, site) past).2).1) ∧
    ∀ engine place, ∃ asks : List Happening, (∀ h ∈ asks, h.isText = false) ∧
      after catalog ({ uri }, site) (asks ++ past) =
        let hovered := ((after catalog ({ uri }, site) past).1.hover engine place).run
          (after catalog ({ uri }, site) past).2
        (hovered.1.document, hovered.2) := by
  refine ⟨fun f hjob => ?_, fun job hjob => ?_, fun engine place => ?_⟩
  · rw [asked, perform_of_no_job hjob]
  · have hremembers := remembers catalog uri site past hjob
    generalize after catalog ({ uri }, site) past = now at hjob hremembers
    cases hfile : job.fileText now.2.workspace with
    | error f => rw [asked_eq hjob, Job.data_of_error hfile]
    | ok text? =>
      cases hcustom : text?.filter Job.isCustom with
      | some text =>
        obtain ⟨rfl, htext⟩ := Option.filter_eq_some_iff.mp hcustom
        simp only [hcustom, asked_eq hjob, Job.data_of_custom hfile htext]
      | none =>
        obtain ⟨file, hpath⟩ := Job.path_of_fileText hfile
        cases hrecalled : recalled catalog ({ uri }, site) past with
        | some n =>
          rw [hrecalled] at hremembers
          have hsample : now.1.sample = some n := hremembers
          simp only [hcustom, asked_eq hjob, hsample, Job.data_of_kept hfile hcustom]
        | none =>
          rw [hrecalled] at hremembers
          simp only [hcustom]
          cases hsample : now.1.sample with
          | some n =>
            refine .inl ⟨n, hremembers n hsample, ?_⟩
            rw [asked_eq hjob, hsample, Job.data_of_kept hfile hcustom]
          | none =>
            refine .inr ⟨file, hpath, ?_⟩
            rw [asked_eq hjob, hsample, Job.data_of_nothing hfile hpath hcustom]
  · obtain ⟨asks, hasks, hafter⟩ := hover_past _ engine place catalog _
    exact ⟨asks, hasks, (after_append _ _ _ _).trans hafter⟩

/-! ## A file that is gone -/

/-- A job file of the user. -/
def customSite : Site :=
  { emptySite with
    workspace.files := [(["scratch", "a.benten.test.job.yml"], some "#custom\ninputs: 5")] }

/-- A document gets a text, and its data are asked for while the user has a job file, which is
then taken away. -/
def outdatedPast : List Happening :=
  [.around emptySite, .access, .around customSite, .newText (.str "inputs: {x: int}")]

/-- What the file held is still the answer, and not data for the input of the document. -/
theorem asked_of_outdated :
    let now := after bareCatalog ({ uri := .str "file:///a.cwl" }, emptySite) outdatedPast
    (customData? now).isNone = true ∧
      ((asked now).toOption.bind (·.field? "inputs")).any (·.same (.num 5)) = true ∧
      (now.1.job.toOption.bind fun job => (job.generated now.2).1.toOption.bind (·.field? "inputs")).any
        (·.isMap) = true := by
  refine ⟨?_, ?_, ?_⟩ <;> decide +kernel

end CwlService.Document
