import CwlService.Proofs.Analysis.Contracts
import CwlService.Proofs.Document.Renewed

/-! # Completing the source of a port

A hint for a source only says which step or workflow it belongs to. What is known of these is
looked up when it is asked for, long after the way through the document. Once that has come to its
end, every step belongs to a workflow, so everything is found, and it depends on what is typed alone
whether there is an answer. There is none for a source that is not begun. -/
namespace CwlService

open List

/-- What is typed so far, if the hint is for a source. -/
def Hint.typed? : Hint → Option Node
  | .stepSource _ typed => some typed
  | .outputSource _ typed => some typed
  | _ => none

namespace Analysis

/-! ## Steps and workflows that are referred to -/

/-- A step, if it is begun, belongs to a workflow that is known. -/
def Owned (owners : Nat × List (Option Nat)) (step : Nat) : Prop :=
  ∀ owner, owners.2[step]? = some owner → ∃ w, owner = some w ∧ w < owners.1

/-- The step or the workflow that a hint refers to is known. -/
def Refers (owners : Nat × List (Option Nat)) : Option Hint → Prop
  | some (.stepSource s _) => s < owners.2.length
  | some (.outputSource w _) => w < owners.1
  | _ => True

theorem Refers.mono {owners owners' h} (hrefers : Refers owners h)
    (hworkflows : owners.1 ≤ owners'.1) (hsteps : owners.2.length ≤ owners'.2.length) : Refers owners' h := by
  rcases h with _ | h
  · trivial
  cases h with
  | stepSource s n => exact Nat.lt_of_lt_of_le hrefers hsteps
  | outputSource w n => exact Nat.lt_of_lt_of_le hrefers hworkflows
  | _ => trivial

/-- Nothing that is referred to gets lost, and steps that are begun belong to a workflow in the end. -/
structure Grows (a b : Analysis) : Prop where
  workflows : a.owners.1 ≤ b.owners.1
  steps : a.owners.2.length ≤ b.owners.2.length
  owned : ∀ i, Owned a.owners i → Owned b.owners i
  hints : (∀ h ∈ a.hints, Refers a.owners h.2) → ∀ h ∈ b.hints, Refers b.owners h.2

namespace Grows

variable {a b c : Analysis}

theorem of_owners (howners : b.owners = a.owners)
    (hhints : (∀ h ∈ a.hints, Refers a.owners h.2) → ∀ h ∈ b.hints, Refers a.owners h.2) : Grows a b :=
  ⟨Nat.le_of_eq (congrArg (·.1) howners.symm), Nat.le_of_eq (congrArg (·.2.length) howners.symm),
    by rw [howners]; exact fun _ => id, by rw [howners]; exact hhints⟩

theorem trans (hab : Grows a b) (hbc : Grows b c) : Grows a c :=
  ⟨Nat.le_trans hab.workflows hbc.workflows, Nat.le_trans hab.steps hbc.steps, fun i h => hbc.owned i (hab.owned i h),
    fun h => hbc.hints (hab.hints h)⟩

theorem hint (span) {h} (hrefers : Refers a.owners h) : Grows a (a.after (Walk.hint span h)) := by
  refine .of_owners rfl fun ha k hk => ?_
  rcases mem_append.mp hk with hk | hk
  · exact ha k hk
  · rw [mem_singleton.mp hk]
    exact hrefers

theorem openWorkflow (w : Workflow) : Grows a (a.after (Walk.openWorkflow w)) := by
  have howners : (a.after (Walk.openWorkflow w)).owners = (a.workflows.length + 1, a.steps.map (·.owner)) :=
    Prod.ext length_append rfl
  have hmore : a.owners.1 ≤ (a.after (Walk.openWorkflow w)).owners.1 := by rw [howners]; exact Nat.le_succ _
  refine ⟨hmore, Nat.le_refl _, fun i h owner howner => ?_, fun h k hk => (h k hk).mono hmore (Nat.le_refl _)⟩
  obtain ⟨w, rfl, hw⟩ := h owner howner
  exact ⟨w, rfl, Nat.lt_of_lt_of_le hw hmore⟩

theorem owners_openStep (id : Node) :
    (a.after (Walk.openStep id)).owners = (a.owners.1, a.owners.2 ++ [none]) :=
  Prod.ext rfl map_append

theorem attach {id w} (h : Grows (a.after (Walk.openStep id)) b) (hw : w < a.owners.1) :
    Grows a (b.after (Walk.attach w a.steps.length)) := by
  obtain ⟨hhints, -, howners⟩ := after_attach b w a.steps.length
  obtain ⟨hworkflows, hsteps, howned, hrefers⟩ := h
  have hlength : a.owners.2.length = a.steps.length := length_map _
  rw [owners_openStep] at hworkflows hsteps howned hrefers
  rw [length_append] at hsteps
  constructor <;> rw [howners]
  · exact hworkflows
  · rw [length_modify]
    exact Nat.le_of_succ_le hsteps
  · intro i hi owner howner
    by_cases hstep : a.steps.length = i
    · rw [hstep, List.getElem?_modify_eq] at howner
      obtain ⟨_, -, rfl⟩ := Option.map_eq_some_iff.mp howner
      exact ⟨w, rfl, Nat.lt_of_lt_of_le hw hworkflows⟩
    · rw [List.getElem?_modify_ne _ _ hstep] at howner
      refine howned i (fun owner' howner' => hi owner' ?_) owner howner
      -- any other step was begun before
      rw [List.getElem?_append] at howner'
      split at howner'
      · exact howner'
      · rw [List.getElem?_singleton, if_neg (by omega)] at howner'
        cases howner'
  · intro h k hk
    rw [hhints] at hk
    refine (hrefers (fun k hk => (h k hk).mono (Nat.le_refl _) ?_) k hk).mono (Nat.le_refl _) ?_
    · exact (sublist_append_left _ _).length_le
    · rw [length_modify]
      exact Nat.le_refl _

end Grows

/-- The step and the workflow around are known. -/
def Stands (ctx : Context) (a : Analysis) : Prop :=
  (∀ w, ctx.workflow = some w → w < a.owners.1) ∧ ∀ s, ctx.step = some s → s < a.owners.2.length

def growing : Invariant where
  Lasts := Grows
  Left _ _ := True
  Allows _ := True
  Around := Stands
  refl _ := .of_owners rfl id
  trans := .trans
  left _ := trivial
  left_trans _ := id
  placed _ := trivial
  same hhints _ howners := .of_owners howners fun h => hhints ▸ h
  report _ := .of_owners rfl id
  hint {_ _ h} hplain := .hint _ (by
    rcases h with _ | h
    · trivial
    cases h with
    | stepSource | outputSource => cases hplain
    | _ => trivial)
  around h hgrows hworkflow hstep :=
    ⟨fun w hw => Nat.lt_of_lt_of_le (h.1 w (hworkflow ▸ hw)) hgrows.workflows,
      fun s hs => Nat.lt_of_lt_of_le (h.2 s (hstep ▸ hs)) hgrows.steps⟩
  stepSource h hs span n := .hint span (h.2 _ hs)
  outputSource h hw span n := .hint span (h.1 _ hw)
  workflow {_ a} w h := by
    refine ⟨.openWorkflow w, ?_, h.2⟩
    rintro _ ⟨⟩
    show a.workflows.length < (a.workflows ++ _).length
    simp
  step {_ a} id h := by
    refine ⟨h.1, ?_⟩
    rintro _ ⟨⟩
    rw [Grows.owners_openStep]
    simp [owners]
  left_of_step := id
  attached h hw hgrows := hgrows.attach (h.1 _ hw)

/-- Nothing has to be given to a visit. -/
def anywhere (env : Setting) : Contract env growing where
  Admits _ _ _ _ _ _ := True
  leaf _ _ _ _ := trivial
  expression _ _ := .hint _ trivial
  field _ _ _ _ _ _ _ _ _ _ _ := trivial
  standsFor _ _ _ := ⟨fun _ _ => trivial, fun _ _ _ _ => trivial⟩
  item _ _ _ _ _ _ _ _ _ _ _ := trivial
  entry _ _ _ _ _ _ _ _ _ _ _ _ _ _ _ := trivial

theorem walk_grows (env : Setting) (loaded : Yaml.Reader.Loaded) (a : Analysis) :
    Keeps growing a (walk env loaded) Any :=
  .lift_bind fun _ _ => .discarded (visitTo_keeps (anywhere env) _ trivial ⟨nofun, nofun⟩)

/-- All that hints refer to is known, and every step belongs to a workflow. -/
def Settled (a : Analysis) : Prop := (∀ i, Owned a.owners i) ∧ ∀ h ∈ a.hints, Refers a.owners h.2

theorem settled_of_nil {a : Analysis} (hsteps : a.steps = []) (hhints : a.hints = []) : a.Settled := by
  constructor
  · intro i owner howner
    simp [owners, hsteps] at howner
  · rw [hhints]
    exact fun _ h => absurd h not_mem_nil

theorem Grows.settled {a b} (h : Grows a b) (ha : a.Settled) : b.Settled :=
  ⟨fun i => h.owned i (ha.1 i), h.hints ha.2⟩

end Analysis

namespace Document

variable {catalog : Language.Catalog} {site : Site}

theorem settled_of_update {d : Document} {text}
    (h : ((d.update text catalog).run site).1.outcome.isOk = true) :
    ((d.update text catalog).run site).1.document.analysis.Settled := by
  rw [update_run] at h ⊢
  cases hread : (readText text).run site with
  | mk r site' =>
    rw [hread] at h
    cases r with
    | error f => cases h
    | ok found =>
      dsimp only at h ⊢
      revert h
      refine explore_cases _ found.1 found.2 (fun _ _ => Analysis.settled_of_nil rfl rfl) (fun _ _ _ h => nomatch h) ?_
      intro form es language logs _ _ r h
      have hgrows : Analysis.growing.Kept _ _ r.1 :=
        Analysis.walk_grows _ found.1 (beginning found.2 es) site'.readers.links
      obtain ⟨_, _, hwalked⟩ := walked_eq { ({ d.forgotten with text := text.text?.getD "" } : Document) with
        problems := found.2, process := some found.1.full, analysis := beginning found.2 es } found.1 logs r.1
      dsimp only at h ⊢
      rw [hwalked]
      generalize r.1 = outcome at hgrows h
      obtain ⟨_ | _, a⟩ := outcome
      · cases h
      · exact hgrows.1.settled (Analysis.settled_of_nil rfl rfl)

/-! ## Answers -/

/-- What can be completed as a source: a text with at most one slash. Of data that is no text, a
collection without a slash among its members is taken for nothing typed. -/
def Completable : Node → Prop
  | .text s _ => s.toList.count '/' ≤ 1
  | .seq _ items => ∀ i ∈ items, i.2.isName "/" = false
  | .map _ es => ∀ e ∈ es, e.1.isName "/" = false
  | .set _ members => ∀ m ∈ members, m.isName "/" = false
  | _ => False

theorem sourceLabels_isOk (w : Workflow) (known step typed) :
    (w.sourceLabels known step typed).isOk = true ↔ Completable typed := by
  have hchoice : ∀ {α : Type} (b : Bool) (x : α),
      (if b = true then throw .noMember else pure x : Except Fault α).isOk = true ↔ b = false := by
    intro α b x
    cases b with
    | true => exact ⟨nofun, nofun⟩
    | false => exact ⟨fun _ => rfl, fun _ => rfl⟩
  unfold Workflow.sourceLabels Completable
  cases typed with
  | text s styled =>
    have hlength := Text.length_parts '/' s
    dsimp only
    match hparts : Text.parts '/' s with
    | [] => exact absurd hparts (Text.parts_ne_nil _ _)
    | [_] | [_, _] => rw [hparts] at hlength; exact ⟨fun _ => by simp at hlength; omega, fun _ => rfl⟩
    | _ :: _ :: _ :: _ => rw [hparts] at hlength; exact ⟨nofun, fun h => by simp at hlength; omega⟩
  | seq form items => exact (hchoice _ _).trans (by simp)
  | map form es => exact (hchoice _ _).trans (by simp)
  | set form members => exact (hchoice _ _).trans (by simp)
  | _ => exact ⟨nofun, nofun⟩

theorem hintLabels_isOk {a} (ha : a.Settled) {span h} (hh : (span, some h) ∈ a.hints) {typed}
    (htyped : h.typed? = some typed) (w : Workspace) :
    (hintLabels w a h).isOk = true ↔ Completable typed := by
  have hlogs : ∀ x : Except Fault (Option (List Node)),
      (x >>= fun v => pure (v, ([] : List LogEntry))).isOk = x.isOk := by
    intro x
    cases x <;> rfl
  have hlabels : ∀ {i : Nat}, i < a.workflows.length → ∀ step : Option Node,
      ((sourceLabels a (some i) step typed).isOk = true ↔ Completable typed) := by
    intro i hi step
    rw [sourceLabels, Option.bind_some, List.getElem?_eq_getElem hi]
    exact sourceLabels_isOk _ _ _ _
  have hrefers := ha.2 _ hh
  cases h with
  | stepSource s n =>
    cases htyped
    have hs : s < a.steps.length := (length_map _).symm ▸ hrefers
    obtain ⟨i, howner, hi⟩ := ha.1 s a.steps[s].owner (by simp [Analysis.owners, hs])
    rw [hintLabels, hlogs, List.getElem?_eq_getElem hs, Option.bind_some, howner]
    exact hlabels hi _
  | outputSource i n =>
    cases htyped
    rw [hintLabels, hlogs]
    exact hlabels hrefers _
  | _ => cases htyped

theorem mem_of_hintAt {place hints h} (hat : hintAt place hints = .ok (some h)) : ∃ span, (span, some h) ∈ hints := by
  induction hints with
  | nil => cases hat
  | cons k rest ih =>
    obtain ⟨_ | span, k⟩ := k
    · cases hat
    · rw [hintAt] at hat
      cases hin : place.isIn span with
      | error f => rw [hin] at hat; cases hat
      | ok inside =>
        rw [hin] at hat
        cases inside with
        | true =>
          cases hat
          exact ⟨_, mem_cons_self⟩
        | false =>
          obtain ⟨span', hmem⟩ := ih hat
          exact ⟨span', mem_cons_of_mem _ hmem⟩

/-- What is typed at a place where a source can be completed. -/
def sourceAt (d : Document) (place : Caret) : Option Node := (d.hint? place).toOption.join.bind Hint.typed?

/-- Once a text is worked on to the end, it depends on what is typed alone whether a source can be
completed: there is an answer for a text with at most one slash, and none for a source that is not
begun. -/
theorem completion_isOk_iff (d : Document) (text : Node) (catalog : Language.Catalog) (site : Site)
    (h : ((d.update text catalog).run site).1.outcome.isOk = true) (w : Workspace) (place : Caret) (typed : Node)
    (hplace : ((d.update text catalog).run site).1.document.sourceAt place = some typed) :
    (((d.update text catalog).run site).1.document.completion w place).isOk = true ↔ Completable typed := by
  have hsettled := settled_of_update h
  generalize ((d.update text catalog).run site).1.document = d' at hsettled hplace
  unfold sourceAt at hplace
  cases hhint : d'.hint? place with
  | error f => rw [hhint] at hplace; cases hplace
  | ok hint =>
    rw [hhint] at hplace
    obtain ⟨k, rfl, htyped⟩ := Option.bind_eq_some_iff.mp hplace
    obtain ⟨span, hmem⟩ := mem_of_hintAt hhint
    rw [completion, hhint]
    exact hintLabels_isOk hsettled hmem htyped w

/-- A language of workflows whose steps list what they take. -/
def portLanguage : Language :=
  ⟨[(.str "CommandLineTool", .record (.str "CommandLineTool") false []),
    (.str "ExpressionTool", .record (.str "ExpressionTool") false []),
    (.str "Workflow", .record (.str "Workflow") false
      [("class", true, [.any]), ("steps", true, [.listOrMap (.str "steps") [.record (.str "WorkflowStep") false
        [("run", true, [.any]), ("in", false, [.listOrMap (.str "in") [.any] ⟨.str "id", .str "source"⟩])]]
        ⟨.str "id", .null⟩])])]⟩

/-- A workflow with a source that is not begun and one that is. -/
def begunText : Node := .str "class: Workflow\nsteps:\n  s:\n    run: \x7b\x7d\n    in:\n      x:\n      y: s/o"

/-- What becomes of a document with that text. -/
def begun : Updated := ((update { uri := .str "a.cwl" } begunText [(Language.latest, portLanguage)]).run emptySite).1

theorem completion_isOk_iff_begun :
    (begun.document.sourceAt (.ofPlace ⟨6, 6⟩)).isSome = true ∧
    (begun.document.completion emptySite.workspace (.ofPlace ⟨6, 6⟩)).isOk = false ∧
    (begun.document.completion emptySite.workspace (.ofPlace ⟨6, 9⟩)).isOk = true := by
  -- all at once, so that the text is read only once
  have heval : begun.outcome.isOk = true ∧
      ((begun.document.sourceAt (.ofPlace ⟨6, 6⟩)).any fun n => n.isNull) = true ∧
      ((begun.document.sourceAt (.ofPlace ⟨6, 9⟩)).any fun n => n.isName "s/o") = true := by
    decide +kernel
  obtain ⟨hok, hnull, hname⟩ := heval
  obtain ⟨n, hn, hnull⟩ := (Option.any_eq_true _ _).mp hnull
  obtain ⟨m, hm, hname⟩ := (Option.any_eq_true _ _).mp hname
  obtain ⟨styled, rfl⟩ := Node.isName_iff.mp hname
  have hcompletion := completion_isOk_iff { uri := .str "a.cwl" } begunText
    [(Language.latest, portLanguage)] emptySite hok
    emptySite.workspace
  refine ⟨by rw [hn]; rfl, Bool.eq_false_iff.mpr fun h => ?_, (hcompletion _ _ hm).mpr ?_⟩
  · have hnone := (hcompletion _ _ hn).mp h
    cases n with
    | null => exact hnone
    | _ => cases hnull
  · show "s/o".toList.count '/' ≤ 1
    decide

end Document
end CwlService
