import CwlService.Proofs.Analysis.Findings
import CwlService.Proofs.Language.Roles
import CwlService.Proofs.Workspace.Links

/-! # What a part of the way adds

A part of the way through a document that comes to an end adds its findings to what is known,
wherever it starts. What it adds is put together from what its parts add. -/
namespace CwlService.Analysis

open List

/-! ## Parts that come to an end -/

/-- A part of the way that comes to an end, with what is known and the reader of linked files
before and after it. -/
def Ends {α : Type} (x : Walk α) (s : Analysis × Yaml.Reader) (v : α) (s' : Analysis × Yaml.Reader) : Prop :=
  (x.run.run s.1).run s.2 = ((.ok v, s'.1), s'.2)

variable {e : Except Fault α} {a : α} {r : Yaml.Reader} {P : Yaml.Reader → Prop}

namespace Ends

variable {α β : Type} {s s' s'' : Analysis × Yaml.Reader}

theorem bind {x} {y : α → Walk β} {b} (h : Ends (x >>= y) s b s'') :
    ∃ a s', Ends x s a s' ∧ Ends (y a) s' b s'' := by
  unfold Ends at h ⊢
  rw [ExceptT.run_bind, StateT.run_bind] at h
  cases hx : (x.run.run s.1).run s.2 with
  | mk p r =>
    obtain ⟨r', a'⟩ := p
    simp only [StateT.run_bind, hx] at h
    cases r' with
    | error f => cases h
    | ok a => exact ⟨a, (a', r), rfl, h⟩

theorem pure {a b : α} (h : Ends (Pure.pure a) s b s') : b = a ∧ s' = s := by
  obtain ⟨a', r'⟩ := s'
  cases h
  exact ⟨rfl, rfl⟩

theorem lift (h : Ends (liftM e) s a s') : e = .ok a ∧ s' = s := by
  obtain ⟨a', r'⟩ := s'
  cases e with
  | error f => cases h
  | ok b =>
    cases h
    exact ⟨rfl, rfl⟩

theorem modify {f : Analysis → Analysis} {u : Unit} (h : Ends (modify f) s u s') : s' = (f s.1, s.2) := by
  obtain ⟨a', r'⟩ := s'
  cases h
  rfl

theorem get {a} (h : Ends get s a s') : a = s.1 ∧ s' = s := by
  obtain ⟨a', r'⟩ := s'
  cases h
  exact ⟨rfl, rfl⟩

end Ends

theorem workflow_of_theWorkflow {ctx : Context} {w} (h : ctx.theWorkflow = .ok w) : ctx.workflow = some w := by
  unfold Context.theWorkflow at h
  split at h <;> cases h
  assumption

theorem step_of_theStep {ctx : Context} {s} (h : ctx.theStep = .ok s) : ctx.step = some s := by
  unfold Context.theStep at h
  split at h <;> cases h
  assumption

/-! ## What is added -/

/-- A reader of linked files after links were followed. -/
def linksAfter (env : Setting) (r : Yaml.Reader) (earlier : List (Node × Option Span)) : Yaml.Reader :=
  earlier.foldl (fun r l => ((env.workspace.followNode env.doc l.1 l.2).run.run r).2) r

/-- Links lead to the same whatever links were followed before. -/
def SteadyLinks (env : Setting) (r : Yaml.Reader) : Prop := ∀ earlier target span,
  ((env.workspace.followNode env.doc target span).run.run (linksAfter env r earlier)).1 =
    ((env.workspace.followNode env.doc target span).run.run r).1

theorem linksAfter_alike {env} (h : Workspace.Alike env.workspace.linkable r P)
    (earlier : List (Node × Option Span)) : P (linksAfter env r earlier) := by
  have hafter : ∀ r', P r' → P (linksAfter env r' earlier) := by
    induction earlier with
    | nil => exact fun _ hr' => hr'
    | cons l rest ih => exact fun r' hr' => ih _ (Workspace.followNode_alike h env.doc l.1 l.2 hr').2
  exact hafter r h.1

theorem steadyLinks_of_alike {env} (h : Workspace.Alike env.workspace.linkable r P) :
    SteadyLinks env r := fun earlier target span =>
  (Workspace.followNode_alike h env.doc target span (linksAfter_alike h earlier)).1

/-- The reader of linked files somewhere on the way. -/
def Scene.after (S : Scene) (earlier : List (Node × Option Span)) : Yaml.Reader :=
  linksAfter S.env S.start earlier

/-- What the way through a document relies on. -/
structure Scene.Sound (S : Scene) : Prop where
  steady : SteadyLinks S.env S.start
  meaning : S.env.meaning = S.env.language.inference
  orderly : S.env.language.orderly = true
  prefixes : Node.AllMaps Node.TextKeys S.namespaces

/-- What holds all along the way. -/
structure Standing (S : Scene) (s : Analysis × Yaml.Reader) : Prop where
  reader : ∃ earlier, s.2 = S.after earlier
  namespaces : s.1.namespaces = S.namespaces
  typeKeys : ∀ e ∈ s.1.types, ∃ name, e.1 = Node.str name

/-- Wherever a type of data was looked for without doubt, all types that the document imports
were known. -/
structure Informed (S : Scene) (a : Analysis) : Prop where
  hints : ∀ span names definition, (span, some (.dataType names definition)) ∈ a.hints →
    S.doubtful span = false → ∀ t ∈ S.types, (names.any fun n => n.isName t) = true
  types : ∀ t, Node.Entries.hasField a.types t = true → t ∈ S.types

/-- The problem of a type that was looked for in doubt. -/
def Scene.Doubted (S : Scene) (d : Diagnostic) : Prop :=
  ∃ span names, d = expecting span names ∧ S.doubtful span = true

/-- Problems that were added, and doubted ones besides. -/
def Scene.Added (S : Scene) (problems added problems' : List Diagnostic) : Prop :=
  ∃ doubted, problems'.Perm (problems ++ added ++ doubted) ∧ ∀ d ∈ doubted, S.Doubted d

namespace Scene.Added

variable {S : Scene} {ps ps' ps'' ds es : List Diagnostic}

theorem of_perm (h : ps'.Perm (ps ++ ds)) : S.Added ps ds ps' := ⟨[], by simpa using h, by simp⟩

theorem doubt (h : S.Added ps ds ps') (hdoubted : ∀ d ∈ ds, S.Doubted d) : S.Added ps [] ps' := by
  obtain ⟨doubted, hperm, hall⟩ := h
  refine ⟨ds ++ doubted, by simpa using hperm, ?_⟩
  intro d hd
  exact (mem_append.mp hd).elim (hdoubted d) (hall d)

theorem trans (h : S.Added ps ds ps') (h' : S.Added ps' es ps'') : S.Added ps (ds ++ es) ps'' := by
  obtain ⟨doubted, hperm, hdoubted⟩ := h
  obtain ⟨doubted', hperm', hdoubted'⟩ := h'
  refine ⟨doubted ++ doubted', ?_, ?_⟩
  · refine (hperm'.trans ((hperm.append_right _).append_right _)).trans ?_
    simp only [append_assoc]
    refine .append_left _ (.append_left _ ?_)
    rw [← append_assoc, ← append_assoc]
    exact .append_right _ perm_append_comm
  · intro d hd
    exact (mem_append.mp hd).elim (hdoubted d) (hdoubted' d)

theorem congr (h : S.Added ps ds ps') (hperm : ds.Perm es) : S.Added ps es ps' := by
  obtain ⟨doubted, hproblems, hdoubted⟩ := h
  exact ⟨doubted, hproblems.trans ((hperm.append_left _).append_right _), hdoubted⟩

end Scene.Added

/-- A step that gets an interface, if there is one. -/
def given (i : Option Interface) (s : Step) : Step := { s with interface := i.getD s.interface }

/-- A workflow that gets steps. -/
def withSteps (attached : List (Node × Interface)) (w : Workflow × Workflow.Steps) :
    Workflow × Workflow.Steps :=
  (w.1, attached.foldl (fun s a => Workflow.Steps.put s a.1 a.2) w.2)

theorem given_none : given none = id := rfl

theorem withSteps_nil : withSteps [] = id := rfl

/-- What is known afterwards: what was known before, and the findings. Of the steps and the
workflows that were there, only those around can change. -/
structure Found (S : Scene) (ctx : Context) (f : Findings) (s s' : Analysis × Yaml.Reader) : Prop where
  standing : Standing S s'
  hints : s.1.hints <+: s'.1.hints
  stepCount : s.1.steps.length ≤ s'.1.steps.length
  workflowCount : s.1.workflows.length ≤ s'.1.workflows.length
  problems : Informed S s'.1 → S.Added s.1.problems f.problems s'.1.problems
  types : ∀ t, Node.Entries.hasField s'.1.types t = true ↔
    Node.Entries.hasField s.1.types t = true ∨ t ∈ f.imports
  steps : ∀ i < s.1.steps.length, s'.1.steps[i]? =
    s.1.steps[i]?.map (given (if ctx.step = some i then f.interface else none))
  workflows : ∀ i < s.1.workflows.length, s'.1.workflows[i]? =
    s.1.workflows[i]?.map (withSteps (if ctx.workflow = some i then f.attached else []))

/-- A part of the way that adds its findings, wherever it starts, and gives what it should. -/
def Finds {α : Type} (S : Scene) (ctx : Context) (x : Walk α) (f : Findings) (Q : α → Prop) : Prop :=
  ∀ s v s', Ends x s v s' → Standing S s → Found S ctx f s s' ∧ Q v

namespace Found

variable {S : Scene} {ctx : Context} {f g : Findings} {s s' s'' : Analysis × Yaml.Reader}

theorem refl (h : Standing S s) : Found S ctx {} s s := by
  refine ⟨h, prefix_refl _, Nat.le_refl _, Nat.le_refl _, fun _ => .of_perm (by simp), by simp, ?_, ?_⟩
  · intro i _
    rw [ite_self, given_none, Option.map_id, id]
  · intro i _
    rw [ite_self, withSteps_nil, Option.map_id, id]

theorem informed (h : Found S ctx f s s') (hs : Informed S s'.1) : Informed S s.1 where
  hints span names definition hmem := hs.hints span names definition (h.hints.subset hmem)
  types t ht := hs.types t ((h.types t).mpr (.inl ht))

theorem trans (h : Found S ctx f s s') (h' : Found S ctx g s' s'') : Found S ctx (f ++ g) s s'' := by
  refine ⟨h'.standing, h.hints.trans h'.hints, Nat.le_trans h.stepCount h'.stepCount,
    Nat.le_trans h.workflowCount h'.workflowCount, ?_, ?_, ?_, ?_⟩
  · intro hs
    exact (h.problems (h'.informed hs)).trans (h'.problems hs)
  · intro t
    rw [h'.types, h.types, Findings.imports_append, mem_append, or_assoc]
  · intro i hi
    rw [h'.steps i (Nat.lt_of_lt_of_le hi h.stepCount), h.steps i hi, Option.map_map]
    congr 1
    funext step
    split
    · cases hg : g.interface <;> simp [given, hg]
    · rfl
  · intro i hi
    rw [h'.workflows i (Nat.lt_of_lt_of_le hi h.workflowCount), h.workflows i hi, Option.map_map]
    congr 1
    funext w
    split
    · simp [withSteps]
    · rfl

/-- Findings that concern neither a step nor a workflow are the same everywhere. -/
theorem anywhere (h : Found S ctx f s s') (hinterface : f.interface = none)
    (hattached : f.attached = []) (ctx') : Found S ctx' f s s' := by
  refine ⟨h.standing, h.hints, h.stepCount, h.workflowCount, h.problems, h.types, ?_, ?_⟩
  · intro i hi
    rw [h.steps i hi, hinterface, ite_self, ite_self]
  · intro i hi
    rw [h.workflows i hi, hattached, ite_self, ite_self]

/-- What is around counts only as a step and as a workflow. -/
theorem inside {ctx'} (h : Found S ctx f s s') (hstep : ctx.step = ctx'.step)
    (hworkflow : ctx.workflow = ctx'.workflow) : Found S ctx' f s s' := by
  refine ⟨h.standing, h.hints, h.stepCount, h.workflowCount, h.problems, h.types, ?_, ?_⟩
  · rw [← hstep]
    exact h.steps
  · rw [← hworkflow]
    exact h.workflows

/-- The order of problems and of imports does not matter, and the problems are those of
informed visits. -/
theorem congr (h : Found S ctx f s s') (hproblems : Informed S s'.1 → f.problems.Perm g.problems)
    (himports : ∀ t, t ∈ f.imports ↔ t ∈ g.imports) (hinterface : f.interface = g.interface)
    (hattached : f.attached = g.attached) : Found S ctx g s s' := by
  refine ⟨h.standing, h.hints, h.stepCount, h.workflowCount, ?_, ?_, ?_, ?_⟩
  · exact fun hs => (h.problems hs).congr (hproblems hs)
  · intro t
    rw [h.types, himports]
  · rw [← hinterface]
    exact h.steps
  · rw [← hattached]
    exact h.workflows

theorem doubt (h : Found S ctx f s s') (hdoubted : ∀ d ∈ f.problems, S.Doubted d) :
    Found S ctx { f with problems := [] } s s' :=
  ⟨h.standing, h.hints, h.stepCount, h.workflowCount, fun hs => (h.problems hs).doubt hdoubted, h.types,
    h.steps, h.workflows⟩

end Found

namespace Finds

variable {α β : Type} {S : Scene} {ctx : Context} {f g : Findings} {Q : α → Prop} {R : β → Prop}

theorem pure {a} (h : Q a) : Finds S ctx (Pure.pure a) {} Q := by
  intro s v s' hends hs
  obtain ⟨rfl, rfl⟩ := hends.pure
  exact ⟨.refl hs, h⟩

theorem throw (fault : Fault) : Finds S ctx (throw fault : Walk α) f Q := by
  intro s v s' hends
  cases hends

variable {y : α → Walk β}

theorem throw_bind (fault : Fault) : Finds S ctx (MonadExcept.throw fault >>= y) f R := by
  intro s v s' hends
  obtain ⟨a, s₁, hx, _⟩ := hends.bind
  cases hx

variable {x : Walk α}

theorem bind (hx : Finds S ctx x f Q)
    (hy : ∀ a, Q a → Finds S ctx (y a) g R) : Finds S ctx (x >>= y) (f ++ g) R := by
  intro s v s'' hends hs
  obtain ⟨a, s', hx', hy'⟩ := hends.bind
  obtain ⟨hfound, ha⟩ := hx s a s' hx' hs
  obtain ⟨hfound', hv⟩ := hy a ha s' v s'' hy' hfound.standing
  exact ⟨hfound.trans hfound', hv⟩

theorem nothing_bind (hx : Finds S ctx x {} Q)
    (hy : ∀ a, Q a → Finds S ctx (y a) g R) : Finds S ctx (x >>= y) g R := by
  rw [← Findings.empty_append g]
  exact hx.bind hy

theorem discarded (h : Finds S ctx x f Q) : Finds S ctx (discard x) f fun _ => True := by
  have hbind : discard x = x >>= fun _ => Pure.pure () := by
    rw [Functor.discard, LawfulFunctor.map_const, Function.comp, bind_pure_comp]
  rw [hbind, ← Findings.append_empty f]
  exact h.bind fun _ _ => .pure trivial

theorem lift_bind {e : Except Fault α} (hy : ∀ a, e = .ok a → Finds S ctx (y a) g R) :
    Finds S ctx (liftM e >>= y) g R := by
  intro s v s'' hends hs
  obtain ⟨a, s', hx, hy'⟩ := hends.bind
  obtain ⟨he, rfl⟩ := hx.lift
  exact hy a he s' v s'' hy' hs

theorem get_bind {y : Analysis → Walk β} (hy : ∀ a r, Standing S (a, r) → Finds S ctx (y a) g R) :
    Finds S ctx (get >>= y) g R := by
  intro s v s'' hends hs
  obtain ⟨a, s', hx, hy'⟩ := hends.bind
  obtain ⟨rfl, rfl⟩ := hx.get
  exact hy _ _ hs s' v s'' hy' hs

theorem ite {c : Prop} [Decidable c] {x y} (hx : c → Finds S ctx x f Q)
    (hy : ¬c → Finds S ctx y f Q) : Finds S ctx (if c then x else y) f Q := by
  split
  · rename_i h; exact hx h
  · rename_i h; exact hy h

theorem imp (h : Finds S ctx x f Q) {Q' : α → Prop} (hQ : ∀ a, Q a → Q' a) : Finds S ctx x f Q' := by
  intro s v s' hends hs
  obtain ⟨hfound, hv⟩ := h s v s' hends hs
  exact ⟨hfound, hQ v hv⟩

theorem anywhere (h : Finds S ctx x f Q) (hinterface : f.interface = none)
    (hattached : f.attached = []) (ctx' : Context) : Finds S ctx' x f Q := by
  intro s v s' hends hs
  obtain ⟨hfound, hv⟩ := h s v s' hends hs
  exact ⟨hfound.anywhere hinterface hattached ctx', hv⟩

theorem congr (h : Finds S ctx x f Q) (hproblems : f.problems.Perm g.problems)
    (himports : ∀ t, t ∈ f.imports ↔ t ∈ g.imports) (hinterface : f.interface = g.interface)
    (hattached : f.attached = g.attached) : Finds S ctx x g Q := by
  intro s v s' hends hs
  obtain ⟨hfound, hv⟩ := h s v s' hends hs
  exact ⟨hfound.congr (fun _ => hproblems) himports hinterface hattached, hv⟩

theorem inside {ctx'} (h : Finds S ctx x f Q) (hstep : ctx.step = ctx'.step)
    (hworkflow : ctx.workflow = ctx'.workflow) : Finds S ctx' x f Q := by
  intro s v s' hends hs
  obtain ⟨hfound, hv⟩ := h s v s' hends hs
  exact ⟨hfound.inside hstep hworkflow, hv⟩

variable {find : α → Findings}

/-- Part after part; what is handed on keeps a property. -/
theorem foldlM {visit : β → α → Walk β} :
    ∀ {xs} (_ : ∀ b, ∀ x ∈ xs, R b → Finds S ctx (visit b x) (find x) R) {b} (_ : R b),
      Finds S ctx (xs.foldlM visit b) (.all find xs) R
  | [], _, _, hb => .pure hb
  | x :: xs, hvisit, b, hb => by
    rw [foldlM_cons, Findings.all_cons]
    refine .bind (hvisit b x (by simp) hb) fun b' hb' => ?_
    exact .foldlM (fun c y hy => hvisit c y (mem_cons_of_mem _ hy)) hb'

theorem forM {visit : α → Walk Unit} :
    ∀ {xs} (_ : ∀ x ∈ xs, Finds S ctx (visit x) (find x) fun _ => True),
      Finds S ctx (xs.forM visit) (.all find xs) fun _ => True
  | [], _ => .pure trivial
  | x :: _, hvisit =>
    .bind (hvisit x (by simp)) fun _ _ => .forM fun y hy => hvisit y (mem_cons_of_mem _ hy)

theorem modify {change : Analysis → Analysis}
    (h : ∀ a, a.hints <+: (change a).hints ∧ (change a).problems = a.problems ∧
      (change a).types = a.types ∧ (change a).namespaces = a.namespaces ∧
      (change a).workflows = a.workflows ∧ (change a).steps = a.steps) :
    Finds S ctx (modify change) {} fun _ => True := by
  intro s v s' hends hs
  obtain rfl := hends.modify
  obtain ⟨hhints, hproblems, htypes, hnamespaces, hworkflows, hsteps⟩ := h s.1
  have hrefl : Found S ctx {} s s := .refl hs
  refine ⟨⟨⟨hs.reader, hnamespaces.trans hs.namespaces, by rw [htypes]; exact hs.typeKeys⟩, hhints,
    Nat.le_of_eq (congrArg length hsteps.symm), Nat.le_of_eq (congrArg length hworkflows.symm), fun _ =>
    .of_perm (by simp [hproblems]), by simp [htypes], ?_, ?_⟩, trivial⟩
  · rw [hsteps]
    exact hrefl.steps
  · rw [hworkflows]
    exact hrefl.workflows

theorem hint (span) (h : Option Hint) : Finds S ctx (Walk.hint span h) {} fun _ => True :=
  .modify fun _ => ⟨prefix_append _ _, rfl, rfl, rfl, rfl, rfl⟩

theorem report (d) : Finds S ctx (Walk.report d) { problems := [d] } fun _ => True := by
  intro s v s' hends hs
  obtain rfl := hends.modify
  have hrefl : Found S ctx {} s s := .refl hs
  exact ⟨⟨⟨hs.reader, hs.namespaces, hs.typeKeys⟩, prefix_refl _, Nat.le_refl _, Nat.le_refl _,
    fun _ => .of_perm (.refl _), by simp, hrefl.steps, hrefl.workflows⟩, trivial⟩

theorem reportAll : ∀ ds : List Diagnostic, Finds S ctx (Walk.reportAll ds) { problems := ds } fun _ => True
  | [] => .pure trivial
  | d :: ds => .bind (.report d) fun _ _ => reportAll ds

theorem reported (r : Reported α) :
    Finds S ctx (Walk.reported r) { problems := r.1 } fun a => r.2 = .ok a := by
  rw [← Findings.append_empty { problems := r.1 }]
  refine .bind (.reportAll r.1) fun _ _ => ?_
  intro s v s' hends hs
  obtain ⟨hv, rfl⟩ := Ends.lift hends
  exact ⟨.refl hs, hv⟩

end Finds

end CwlService.Analysis
