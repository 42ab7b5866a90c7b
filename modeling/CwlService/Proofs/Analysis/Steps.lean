import CwlService.Proofs.Analysis.Documents
import CwlService.Proofs.Node.Listed

/-! # What is known of the steps of a workflow

The way through a workflow leads to each of its steps, and the interface that a step gets is
that of the process that it runs: its own, or what a link leads to. -/
namespace CwlService

open List

/-- A process is found by its name, if those before it have names: one that is not there has none. -/
theorem findNamed_process {l} (hl : l.ListsSteps) {kind styled all} :
    ∀ (kinds : List String), (∀ t ∈ kinds, t ∈ Language.processTypes) → kind ∈ kinds →
      Gives (fun v => ∃ documented fields, l.get? kind = some (.record (.str kind) documented fields) ∧
        v = .yes (.typed (.record (.str kind) documented fields)))
        (findNamed l (.text kind styled) all (kinds.map fun t => (l.get? t).getD .missing))
  | t :: rest, hkinds, hkind => by
    rw [forall_mem_cons] at hkinds
    rw [map_cons]
    cases hget : l.get? t with
    | none => exact .throw_bind _ _
    | some u =>
      obtain ⟨documented, fields, rfl⟩ := hl.roots t hkinds.1 u hget
      refine .bind (.pure (P := (· = Node.str t)) rfl) fun n hn => ?_
      rw [hn, Node.same_text]
      refine .ite (fun hname => .pure ?_) fun hname => findNamed_process hl rest hkinds.2 ?_
      · cases show t = kind by simpa [Node.isName] using hname
        exact ⟨documented, fields, hget, rfl⟩
      · refine (mem_cons.mp hkind).resolve_left ?_
        rintro rfl
        simp [Node.isName] at hname

variable {l : Language} {styled : Bool} {m : Meaning}

theorem infer_process (hl : l.ListsSteps) {kind} (hkind : kind ∈ Language.processTypes) {node}
    (hclass : node.field? "class" = some (.text kind styled))
    (h : infer l node (Language.processTypes.map fun t => (l.get? t).getD .missing) none none = .ok m) :
    ∃ documented fields, l.get? kind = some (.record (.str kind) documented fields) ∧
      m = .typed (.record (.str kind) documented fields) := by
  cases node with
  | map form es =>
    have hexplicit : explicitType (.map form es) none none = some (.text kind styled) := by
      unfold explicitType
      rw [hclass]
      rfl
    have hnamed : isNamespaced (.text kind styled) = .ok false := by
      simp only [Language.processTypes, mem_cons, not_mem_nil, or_false] at hkind
      rcases hkind with rfl | rfl | rfl <;> simp [isNamespaced, pure, Except.pure]
    have hfound := @findNamed_process l hl kind styled
      (Language.processTypes.map fun t => (l.get? t).getD .missing) _ (fun _ ht => ht) hkind
    rcases infer_named hexplicit h with ⟨htrue, _⟩ | ⟨_, v, hv, rfl⟩
    · cases hnamed.symm.trans htrue
    · obtain ⟨documented, fields, hget, rfl⟩ := hfound v hv
      exact ⟨documented, fields, hget, rfl⟩
  | _ => cases hclass

theorem infer_workflow (hl : l.ListsSteps) {node}
    (hclass : node.field? "class" = some (.text "Workflow" styled))
    (h : infer l node (Language.processTypes.map fun t => (l.get? t).getD .missing) none none = .ok m) :
    ∃ documented fields, l.get? "Workflow" = some (.record (.str "Workflow") documented fields) ∧
      m = .typed (.record (.str "Workflow") documented fields) :=
  infer_process hl (by simp [Language.processTypes]) hclass h

/-- A list, or a map that does not name its type, is taken for the listing that it should be. -/
theorem infer_listing (l : Language) {node} (hnode : node.isMap = true ∨ node.isSeq = true)
    (hclass : node.field? "class" = none) (types : List CwlType) (mapKey : MapKey)
    (key : Option Node) :
    infer l node [.listOrMap (.str "steps") types mapKey] key none =
      .ok (.typed (.listOrMap (.str "steps") types mapKey)) := by
  rw [infer_eq, explicitType_of_no_class hclass]
  cases node with
  | map form es => rfl
  | seq form items => rfl
  | _ => simp [Node.isMap, Node.isSeq] at hnode

/-! ## The ports of a process -/

namespace Interface

open Listing

/-- The names of ports: the keys of a map, or the ids in a list. -/
def portNames : Node → List Node
  | .map _ es => es.map (·.1)
  | .seq _ items => (keyed (.str "id") items).map (·.1)
  | _ => []

/-- Each item of a list has an id that is a key, or a place to report that it has none. -/
def portsTold : Node → Bool
  | .seq form items => items.all (tellable (.str "id") false form)
  | _ => true

def HasPorts (names : NameSet) (n : Node) : Prop :=
  ∀ k, names.contains k = true ↔ ∃ m ∈ portNames n, m.same k = true

theorem isOk_ports (n : Node) : (ports n).2.isOk = portsTold n := by
  cases n with
  | seq form items =>
    rw [portsTold, ← isOk_ofItems_seq]
    simp only [ports, asMap]
    cases (ofItems (.seq form items) (.str "id") false 0 items [] []).2 <;> rfl
  | _ => rfl

theorem hasPorts {n names} (h : (ports n).2 = .ok names) : HasPorts names n := by
  obtain ⟨es, hes, rfl⟩ := map_eq_ok h
  intro k
  rw [NameSet.contains_ofList]
  cases n with
  | map form es =>
    cases hes
    simp [portNames, ofEntries]
  | seq form items =>
    have hany := Table.isSome_get? (Table.setAll [] (keyed (.str "id") items)) k
    rw [Table.get?_setAll, show Table.get? [] k = none from rfl, Option.or_none,
      Table.isSome_get?, any_reverse] at hany
    rw [keys_eq, pairs_ofItems hes]
    simpa [portNames, any_eq_true] using (Bool.eq_iff_iff.mp hany).symm
  | _ =>
    cases hes
    rfl

/-- A process has an interface exactly if its ports can be told, and then one with their names. -/
theorem ofProcess_ports (process : Node) :
    let part (name : String) : Node := (process.field? name).getD .null
    (ofProcess process).2.isOk = (portsTold (part "inputs") && portsTold (part "outputs")) ∧
      ∀ i, (ofProcess process).2 = .ok i →
        HasPorts i.inputs (part "inputs") ∧ HasPorts i.outputs (part "outputs") := by
  dsimp only
  cases process with
  | map form es =>
    rw [Node.field?, Node.field?, ← isOk_ports, ← isOk_ports]
    have hin := fun names => @hasPorts ((Node.Entries.field? es "inputs").getD .null) names
    have hout := fun names => @hasPorts ((Node.Entries.field? es "outputs").getD .null) names
    unfold ofProcess
    dsimp only
    generalize ports ((Node.Entries.field? es "inputs").getD .null) = first,
      ports ((Node.Entries.field? es "outputs").getD .null) = second at hin hout ⊢
    obtain ⟨ds, _ | inputs⟩ := first <;> obtain ⟨ds', _ | outputs⟩ := second
    case ok.ok =>
      refine ⟨rfl, ?_⟩
      rintro _ ⟨⟩
      exact ⟨hin _ rfl, hout _ rfl⟩
    all_goals exact ⟨rfl, fun _ h => by cases h⟩
  | _ =>
    refine ⟨rfl, ?_⟩
    rintro _ ⟨⟩
    simp [HasPorts, Node.field?, portNames, NameSet.empty, NameSet.contains]

end Interface

namespace Analysis

open Node (AllMaps)
open Workspace (judged readAt follow_run readLinked_run)

variable {S : Scene}

theorem full_eq (n : Node) : Yaml.Reader.Loaded.full ⟨n, []⟩ = n := by
  cases n with
  | map form es => exact congrArg (Node.map form) (append_nil es)
  | _ => rfl

variable {s s' : Analysis × Yaml.Reader} {fields : Fields} {node : Node} {find : Finder} {i : Interface}
  {es : Node.Entries} {form : Form}

theorem Ends.discard {α : Type} {x : Walk α} (h : Ends (Functor.discard x) s () s') : ∃ v, Ends x s v s' := by
  rw [Functor.discard, LawfulFunctor.map_const, Function.comp, ← bind_pure_comp] at h
  obtain ⟨v, s₁, hx, hpure⟩ := h.bind
  obtain ⟨_, rfl⟩ := hpure.pure
  exact ⟨v, hx⟩

theorem reportAll_run (ds a r) :
    ((Walk.reportAll ds).run.run a).run r = ((.ok (), { a with problems := a.problems ++ ds }), r) := by
  induction ds generalizing a with
  | nil => rw [append_nil]; rfl
  | cons d ds ih =>
    have hrest := ih { a with problems := a.problems ++ [d] }
    rw [append_assoc] at hrest
    exact hrest

theorem visitLink_run (env target extension value) (asHint : Link → Hint) (a r) :
    ((visitLink env target extension value asHint).run.run a).run r =
      match (env.workspace.followNode env.doc target value).run.run r with
      | (.error f, r') => ((.error f, a), r')
      | (.ok (l, ds), r') => ((.ok l.node, { a with
          problems := a.problems ++ ds
          hints := a.hints ++ [(value,
            some (asHint ⟨target.text?.getD "", l.file, l.contents, extension⟩))] }), r') := by
  have hlinks : ((Walk.withLinks (env.workspace.followNode env.doc target value)).run.run a).run r =
      (fun p => ((p.1, a), p.2)) ((env.workspace.followNode env.doc target value).run.run r) := rfl
  rw [visitLink, ExceptT.run_bind, StateT.run_bind, StateT.run_bind, hlinks]
  obtain ⟨e, r'⟩ := (env.workspace.followNode env.doc target value).run.run r
  cases e with
  | error f => rfl
  | ok found =>
    dsimp only
    change ((((Walk.reportAll found.2 >>= fun _ => _) : Walk Node).run.run a).run r') = _
    rw [ExceptT.run_bind, StateT.run_bind, StateT.run_bind, reportAll_run]
    rfl

/-- The process that a step runs, as the way through a document sees it. -/
structure Scene.Runs (S : Scene) (run process : Node) : Prop where
  meant : ∃ m value, process = stepProcess m run (S.linked m value) ∧
    if run.isText then ∃ extension, m = .linkedFile run extension else m.Fits run fun _ => True

theorem taken_run {record} (hrecord : record.isName "WorkflowStep" = true) (hS : S.Sound) {k child}
    (hk : k.isName "run" = true) {key} (h : (S.taken record fields k child key).2 = some m) :
    if child.isText then ∃ extension, m = .linkedFile child extension else m.Fits child fun _ => True := by
  obtain ⟨styled, rfl⟩ := Node.isName_iff.mp hk
  obtain ⟨styled', rfl⟩ := Node.isName_iff.mp hrecord
  unfold Scene.taken at h
  cases htext : child.isText with
  | true =>
    simp only [htext] at h
    cases h
    exact ⟨_, rfl⟩
  | false =>
    simp only [htext, Bool.and_false, Bool.false_eq_true, if_false] at h ⊢
    cases hget : fields.get? "run" with
    | none =>
      simp only [hget] at h
      split_ifs at h
      cases h
      exact .namespaced _
    | some f =>
      simp only [hget] at h
      split_ifs at h
      · cases h
        exact .namespaced _
      · have hm := eq_ok_of_toOption h
        rw [hS.meaning] at hm
        exact infer_gives_of_class _ _ _ _ _ (fun _ _ => trivial) (fun _ _ _ _ _ _ => trivial) m hm

theorem fieldFindings_run (hS : S.Sound) (hfind : find.Confined) {record}
    (hrecord : record.isName "WorkflowStep" = true)
    (hfields : CwlType.fieldsOrderly (record.isName "Workflow") fields = true)
    {map key value named e} (hchild : AllMaps Tidy e.2) (hrun : e.1.isName "run" = true)
    (h : (S.fieldFindings find record fields node map key value named e).interface = some i) :
    ∃ process ds i', S.Runs e.2 process ∧ Interface.ofProcess process = (ds, .ok i') ∧
      i.outputs = i'.outputs := by
  unfold Scene.fieldFindings at h
  dsimp only at h
  split at h
  · cases h
  · rename_i m hm
    have hnone := hfind.interface (taken_orderly hS hfields hchild hm) (fieldRole_ne_step record e.1)
    simp only [Findings.interface_append, hnone, Option.or_none] at h
    simp only [Scene.runFindings, hrecord, hrun, Bool.and_self, if_true] at h
    generalize hprocess : stepProcess m e.2 (S.linked m _) = process at h
    cases hof : Interface.ofProcess process with
    | mk ds r =>
      rw [hof] at h
      cases r with
      | error f => cases h
      | ok i' =>
        cases h
        exact ⟨process, ds, i', ⟨m, _, hprocess.symm, taken_run hrecord hS hrun hm⟩, hof, rfl⟩

/-- Only a step finds an interface, and it finds it in its field `run`. -/
theorem findOne_interface {map key value}
    (h : (S.findOne find m node map key value).interface = some i) :
    ∃ name documented fields, m = .typed (.record name documented fields) ∧
      name.isName "WorkflowStep" = true ∧ ∃ entries named e, recordEntries node map = some entries ∧
        entries.find? (fun e => e.1.isName "run") = some e ∧
        (S.fieldFindings find name fields node map key value named e).interface = some i := by
  cases m with
  | typed t =>
    cases t with
    | record name documented fields =>
      refine ⟨name, documented, fields, rfl, ?_⟩
      change (S.recordFindings find name fields node map key value).interface = some i at h
      unfold Scene.recordFindings at h
      split at h
      · cases h
      · rename_i entries hentries
        dsimp only at h
        split at h
        · rename_i hname
          obtain ⟨e, he, hi⟩ := Option.bind_eq_some_iff.mp h
          exact ⟨hname, entries, _, e, hentries, he, hi⟩
        · cases h
    | array name types =>
      change (S.arrayFindings find types node).interface = some i at h
      unfold Scene.arrayFindings at h
      split at h <;> cases h
    | listOrMap name types mapKey =>
      change (S.listingFindings find name types mapKey node).interface = some i at h
      unfold Scene.listingFindings at h
      dsimp only at h
      split at h <;> cases h
    | _ => cases h
  | _ => cases h

theorem entryFindings_interface (hS : S.Sound) {depth name types}
    (htypes : ∀ t ∈ types, t.orderly (itemRole name) = true) {mapKey l e} (he : EntryTidy l e)
    (hmap : e.value.isMap = true)
    (h : (S.entryFindings (S.findTo (depth + 1)) name types mapKey l e).interface = some i) :
    ∃ run process ds i', e.value.field? "run" = some run ∧ S.Runs run process ∧
      Interface.ofProcess process = (ds, .ok i') ∧ i.outputs = i'.outputs := by
  unfold Scene.entryFindings at h
  split at h
  · cases h
  · rename_i m hm
    have hrole := entry_orderly hS htypes he hm
    split at h
    · cases h
    · obtain ⟨record, documented, fields, rfl, hrecord, entries, named, run, hentries, hrun, hi⟩ :=
        findOne_interface h
      have hfields : CwlType.fieldsOrderly (record.isName "Workflow") fields = true :=
        ((Bool.and_eq_true _ _).mp hrole).2
      have hmem := mem_of_find?_eq_some hrun
      have hname : run.1.isName "run" = true := by simpa using find?_some hrun
      obtain ⟨process, ds, i', hruns, hof, houtputs⟩ := fieldFindings_run hS (findTo_confined S depth) hrecord
        hfields ((recordEntries_tidy he.value hentries).2 run hmem).1 hname hi
      refine ⟨run.2, process, ds, i', ?_, hruns, hof, houtputs⟩
      cases hvalue : e.value with
      | map form es =>
        rw [hvalue] at hentries
        cases hentries
        rw [find?_map] at hrun
        obtain ⟨f, hf, rfl⟩ := Option.map_eq_some_iff.mp hrun
        exact Option.map_eq_some_iff.mpr ⟨f, hf, rfl⟩
      | _ => rw [hvalue] at hmap; cases hmap

/-- The steps that a workflow gets: one for each that is listed, with its interface. -/
theorem stepsOf_eq (hS : S.Sound) {depth required types predicate}
    (hfields : Fields.get? fields "steps" = some (required, [.listOrMap (.str "steps") types ⟨.str "id", predicate⟩]))
    {steps} (hsteps : es.field? "steps" = some steps)
    (hlisted : steps.isMap = true ∨ steps.isSeq = true) (hclass : steps.field? "class" = none) {l}
    (hl : (Listing.of steps (.str "id")).2 = .ok l) :
    S.stepsOf (S.findTo (depth + 1)) (.str "Workflow") fields (.map form es) none none none
        (es.map fun e => (e.1, e.2.2)) =
      l.entries.map fun e => (e.key, (S.entryFindings (S.findTo depth) (.str "steps") types
        ⟨.str "id", predicate⟩ l e).interface.getD {}) := by
  obtain ⟨e, he, rfl⟩ := Option.map_eq_some_iff.mp hsteps
  have hname : e.1.isName "steps" = true := by simpa using find?_some he
  obtain ⟨styled, hkey⟩ := Node.isName_iff.mp hname
  have hfind : (es.map fun e => (e.1, e.2.2)).find? (fun e => e.1.isName "steps") = some (e.1, e.2.2) := by
    rw [find?_map]
    exact Option.map_eq_some_iff.mpr ⟨e, he, rfl⟩
  have htaken : ∀ key : Option Span, S.taken (.str "Workflow") fields e.1 e.2.2 key =
      ([], some (.typed (.listOrMap (.str "steps") types ⟨.str "id", predicate⟩))) := by
    intro key
    rw [hkey]
    unfold Scene.taken
    simp only [hfields, hS.meaning, Language.inference]
    rw [infer_listing _ hlisted hclass]
    rfl
  unfold Scene.stepsOf
  rw [hfind, Option.map_some, Option.getD_some]
  unfold Scene.fieldFindings
  simp only [htaken, Findings.attached_append]
  change [] ++ ((S.listingFindings (S.findTo depth) (.str "steps") types ⟨.str "id", predicate⟩
    e.2.2).attached ++ []) = _
  unfold Scene.listingFindings
  dsimp only
  rw [hl]
  simp only [nil_append, append_nil]
  rfl

/-- A workflow that the way leads through is checked to the end, with the steps that it gets. -/
theorem walk_workflow (hS : S.Sound) (hl : S.env.language.ListsSteps) (htidy : AllMaps Tidy (.map form es))
    (hclass : es.field? "class" = some (.text "Workflow" styled)) (hs : Standing S s)
    (h : Ends (walk S.env ⟨.map form es, []⟩) s () s') : ∃ documented fields depth,
      S.env.language.get? "Workflow" = some (.record (.str "Workflow") documented fields) ∧
      Found S {} (S.recordFindings (S.findTo (depth + 2)) (.str "Workflow") fields (.map form es) none none none)
        s s' ∧ Checked ((es.field? "inputs").getD .null) ((es.field? "outputs").getD .null)
        ((es.field? "steps").getD .null) (S.stepsOf (S.findTo (depth + 2)) (.str "Workflow") fields
          (.map form es) none none none (es.map fun e => (e.1, e.2.2))) := by
  unfold walk at h
  obtain ⟨m, s₁, hmeaning, hvisit⟩ := h.bind
  obtain ⟨hm, rfl⟩ := hmeaning.lift
  rw [full_eq, ite_self, hS.meaning] at hm
  have hnamed : (Node.map form es).field? "class" = some (.text "Workflow" styled) := hclass
  obtain ⟨documented, fields, hflow, rfl⟩ := infer_workflow hl hnamed hm
  obtain ⟨v, hends⟩ := hvisit.discard
  obtain ⟨depth, hdepth⟩ : ∃ depth, visitDepth (.map form es) = depth + 3 :=
    ⟨100 * ((Node.map form es).depth + 1) - 3, by unfold visitDepth; omega⟩
  rw [hdepth] at hends
  have horderly : (CwlType.record (.str "Workflow") documented fields).orderly .plain = true :=
    S.env.language.orderly_of_get? hS.orderly hflow (by decide)
  rw [CwlType.orderly, Bool.and_eq_true] at horderly
  obtain ⟨hfound, _, hchecked⟩ := visitRecord_finds hS (visitTo_finds hS (depth + 2))
    (findTo_confined S (depth + 2)) horderly.2 htidy rfl none none none _ _ _ hends hs
  exact ⟨documented, fields, depth, hflow, hfound, hchecked rfl form es rfl⟩

/-- What a step gets from the process that it runs, once a link led to it. -/
def runs (a : Analysis) (step : Nat) (named : List String) (process : Node) : Except Fault (List String) × Analysis :=
  let (ds, i?) := Interface.ofProcess process
  match i? with
  | .error f => (.error f, { a with problems := a.problems ++ ds })
  | .ok i => (.ok named, { a with
      problems := a.problems ++ ds
      steps := a.steps.modify step fun s =>
        { s with interface := { i with inputs := i.inputs.union (named.map .str) } } })

theorem afterField_run {outer here step} (hstep : outer.theStep = .ok step) (target child : Node)
    (extension : Option String) (value : Option Span) (named : List String) (a : Analysis)
    (r : Yaml.Reader) :
    ((afterField (.str "WorkflowStep") (.str "run") (.linkedFile target extension) child value outer
      here named).run.run a).run r =
      (runs a step named here.linked, r) := by
  have hafter : afterField (.str "WorkflowStep") (.str "run") (.linkedFile target extension) child
    value outer here named = (do
      noteProcess (.str "WorkflowStep") (.str "run") here.linked outer named
      pure named) := rfl
  rw [hafter, noteProcess, if_pos (by decide), hstep, runs, Walk.reported]
  obtain ⟨ds, i?⟩ := Interface.ofProcess here.linked
  simp only [ExceptT.run_bind, StateT.run_bind, reportAll_run]
  cases i? <;> rfl

/-- A link in the field `run` of a step. It is a fault if there is no way to what it leads to or that
is no text, if a name in the text stands for nothing, and if the ports of what is read cannot be told
(`Interface.ofProcess_ports`). A target that is missing is one problem, and the step then has only
the inputs that are named. -/
theorem visitMeaning_run {env : Setting} {ctx : Context} {step : Nat} (hstep : ctx.theStep = .ok step) (depth : Nat)
    (target : String) (styled : Bool) (map : Option MapKey) (key value : Option Span) (named : List String)
    (a : Analysis) (r : Yaml.Reader) :
    let child : Node := .text target styled
    let run := (((visitMeaning (visitTo env (depth + 1)) (.str "WorkflowStep") (.str "run") child
      ctx map key value named
      (some (.linkedFile child (some ".cwl")))).run.run a).run r).1
    let hinted (file : Option Path) (contents : String) : Analysis :=
      { a with hints := a.hints ++ [(value, some (.link ⟨target, file, contents, some ".cwl"⟩))] }
    match env.workspace.reach env.doc target with
    | .error f => run = (.error f, a)
    | .ok ⟨_, file, .error problem⟩ => run = (.ok named, { hinted file "" with
        problems := a.problems ++ [.error value problem]
        steps := a.steps.modify step fun s => { s with interface := ⟨.union .empty (named.map .str), .empty⟩ } })
    | .ok ⟨_, file, .ok contents⟩ =>
      match judged .null ((Yaml.Reader.load contents).run.run r).1 with
      | .error f => run = (.error f, a)
      | .ok process => run = runs (hinted file contents) step named process := by
  intro child run hinted
  have hfollow : (env.workspace.followNode env.doc child value).run.run r =
    readAt value r (env.workspace.reach env.doc target) :=
    follow_run env.workspace env.doc target value r
  have hrun : run = match readAt value r (env.workspace.reach env.doc target) with
      | (.error f, _) => (.error f, a)
      | (.ok (l, ds), _) => runs { hinted l.file l.contents with problems := a.problems ++ ds } step named l.node := by
    rw [← hfollow]
    change ((((visitLink env child (some ".cwl") value .link >>= fun n => pure _) >>= fun _ => _ :
      Walk _).run.run a).run r).1 = _
    rw [bind_assoc, ExceptT.run_bind, StateT.run_bind, StateT.run_bind, visitLink_run]
    obtain ⟨e, r'⟩ := (env.workspace.followNode env.doc child value).run.run r
    cases e with
    | error f => rfl
    | ok found => exact congrArg Prod.fst (afterField_run hstep _ _ _ value _ _ r')
  rw [hrun]
  cases env.workspace.reach env.doc target with
  | error f => rfl
  | ok reached =>
    obtain ⟨path, file, text⟩ := reached
    cases text with
    | error problem =>
      have hempty : Interface.ofProcess (.map .plain []) = ([], .ok {}) := rfl
      dsimp only [readAt]
      rw [runs, hempty]
      dsimp only
      rw [append_nil]
    | ok contents =>
      dsimp only [readAt]
      rw [readLinked_run]
      dsimp only
      cases judged .null ((Yaml.Reader.load contents).run.run r).1 with
      | error f => rfl
      | ok process =>
        dsimp only [Except.map]
        rw [append_nil]

/-- A place where a name on the web is not there, and another cannot be reached. -/
def webbed : Setting :=
  { workspace := { files := [], replies := [("http://a/p.cwl", .refused)] }, doc := .null, language := ⟨[]⟩ }

theorem visitMeaning_run_webbed :
    let run (target : String) := (((visitMeaning (visitTo webbed 1) (.str "WorkflowStep") (.str "run") (.str target)
      { step := some 0 } none none none [] (some (.linkedFile (.str target) (some ".cwl")))).run.run {}).run
        { marked := false }).1
    (run "http://a/q.cwl").1 = .error .unreachable ∧ (run "http://a/p.cwl").1 = .ok [] ∧
      (run "http://a/p.cwl").2.problems = [.error none "Missing URL: http://a/p.cwl"] := by
  have hrun := fun target => @visitMeaning_run webbed { step := some 0 } 0 rfl 0 target false none none none [] {}
    { marked := false }
  have hlost := hrun "http://a/q.cwl"
  have hrefused := hrun "http://a/p.cwl"
  rw [show webbed.workspace.reach webbed.doc "http://a/q.cwl" = .error .unreachable by rfl] at hlost
  rw [show webbed.workspace.reach webbed.doc "http://a/p.cwl" =
    .ok ⟨"http://a/p.cwl", none, .error "Missing URL: http://a/p.cwl"⟩ by rfl] at hrefused
  exact ⟨congrArg Prod.fst hlost, congrArg Prod.fst hrefused, congrArg (·.2.problems) hrefused⟩

end Analysis
end CwlService
