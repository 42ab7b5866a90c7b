import CwlService.Proofs.Analysis.EntryOrder
import CwlService.Proofs.Sample.Data
import CwlService.Proofs.Workflow.Edges

/-! # Samples for connections

What a step of a workflow may take its values from is settled when the document is worked on,
and sample data are drawn later, with the processes of steps looked up once more. In a workflow
without problems there is a sample for whatever a step takes, unless it comes from a step whose
process is linked by a web address or imported: those are not looked up again. -/
namespace CwlService.Document

open Analysis (Scene Tidy Standing)
open Node (AllMaps)
open Sample (portsOf AtHand)
open Workflow (Resolvable sourceNodes)
open List

/-- What is listed in a part of a process; nothing if it cannot be listed. -/
def portsIn (process : Node) (name : String) : List ListingEntry := (portsOf process name).toOption.getD []

/-- What the inputs of a step take their values from, as they are looked up in its process. -/
def sourcesTaken (process step : Node) : List Node :=
  match Listing.get? (portsIn process "steps") step with
  | some s => (portsIn s.value "in").flatMap fun p => sourceNodes "source" p.value
  | none => []

/-- A step takes a value from a source, alone or in a list. -/
def Takes (process step : Node) (source : String) : Prop :=
  ∃ src ∈ sourcesTaken process step, src.text? = some source

/-- Whether a step links to its process by a web address or imports it. -/
def isElsewhere (run : Node) : Bool :=
  (run.text?.any fun target => Uri.hasScheme? target == some true) || (run.field? "$import").isSome

/-- A step of that name runs a process that is elsewhere. -/
def RunsElsewhere (process : Node) (name : String) : Prop :=
  ∃ s ∈ portsIn process "steps", s.key.isName name = true ∧ isElsewhere ((s.value.field? "run").getD .null) = true

instance (process step : Node) (source : String) : Decidable (Takes process step source) :=
  List.decidableBEx _ _

instance (process : Node) (name : String) : Decidable (RunsElsewhere process name) :=
  List.decidableBEx _ _

variable {name p source : String} {step : Node} {ds : List Diagnostic} {i : Interface}

theorem portsIn_eq {process ports} (h : portsOf process name = .ok ports) :
    portsIn process name = ports := by
  rw [portsIn, h]
  rfl

theorem mem_portsIn {process p} (h : p ∈ portsIn process name) :
    ∃ ports, portsOf process name = .ok ports ∧ p ∈ ports := by
  unfold portsIn at h
  cases hports : portsOf process name with
  | error f => rw [hports] at h; cases h
  | ok ports => rw [hports] at h; exact ⟨ports, rfl, h⟩

theorem Takes.exists_port {process} (h : Takes process step source) :
    ∃ s ports p src, Listing.get? (portsIn process "steps") step = some s ∧
      portsOf s.value "in" = .ok ports ∧ p ∈ ports ∧ src ∈ sourceNodes "source" p.value ∧
      src.text? = some source := by
  obtain ⟨src, hsrc, hsource⟩ := h
  unfold sourcesTaken at hsrc
  cases hstep : Listing.get? (portsIn process "steps") step with
  | none => rw [hstep] at hsrc; cases hsrc
  | some s =>
    rw [hstep] at hsrc
    obtain ⟨p, hp, hmem⟩ := mem_flatMap.mp hsrc
    obtain ⟨ports, hports, hlisted⟩ := mem_portsIn hp
    exact ⟨s, ports, p, src, rfl, hports, hlisted, hmem, hsource⟩

/-! ## The processes of steps -/

theorem exists_output {process} (h : Interface.ofProcess process = (ds, .ok i))
    (hp : i.outputs.contains (.str p) = true) : process.isMap = true ∧
      ∃ outs, portsOf process "outputs" = .ok outs ∧ ∃ o ∈ outs, o.key.isName p = true := by
  cases process with
  | map form es =>
    refine ⟨rfl, ?_⟩
    unfold Interface.ofProcess at h
    dsimp only at h
    split at h
    · cases h
    · cases hports : (Listing.asMap ((Node.Entries.field? es "outputs").getD .null) (.str "id")).2 with
      | error f =>
        simp only [Interface.ports, hports] at h
        cases h
      | ok outs =>
        simp only [Interface.ports, hports] at h
        cases h
        obtain ⟨k, hk, hsame⟩ := (NameSet.contains_ofList _ _).mp hp
        obtain ⟨o, ho, rfl⟩ := mem_map.mp hk
        exact ⟨outs, hports, o, ho, by simpa using hsame⟩
  | _ =>
    cases h
    cases hp

theorem itemOf_record (name : String) (value : Node) (rest : List (String × Node)) :
    Job.itemOf (.record ((name, value) :: rest)) (.str name) = .ok value := by
  simp [Job.itemOf, Node.record, Node.dict, Node.Entries.value?, Node.Entries.under?, Node.isName, pure, Except.pure]

section

variable {P : Yaml.Reader → Prop} {S : Scene}

/-- The process of a step is at hand when samples are drawn, unless it is elsewhere. -/
theorem atHand_of_runs (hsteady : S.env.workspace.Steady P) (hstart : P S.start) {run process}
    (hruns : S.Runs run process) (hof : Interface.ofProcess process = (ds, .ok i))
    (hp : i.outputs.contains (.str p) = true) (hhere : isElsewhere run = false) :
    AtHand S.env.workspace P S.env.doc run process := by
  obtain ⟨hmap, outs, houts, o, ho, hname⟩ := exists_output hof hp
  obtain ⟨m, value, hprocess, hmeant⟩ := hruns.meant
  unfold isElsewhere at hhere
  rw [Bool.or_eq_false_iff] at hhere
  cases htext : run.isText with
  | true =>
    simp only [htext, if_true] at hmeant
    obtain ⟨target, styled, rfl⟩ := Node.isText_iff.mp htext
    obtain ⟨extension, rfl⟩ := hmeant
    have hscheme : Uri.hasScheme? target ≠ some true := by simpa [Node.text?] using hhere.1
    have hfollowed : process = S.followed (.text target styled) value := hprocess
    unfold Scene.followed Scene.follow at hfollowed
    cases hfollow : ((S.env.workspace.followNode S.env.doc (.text target styled) value).run.run S.start).1 with
    | error f =>
      rw [hfollow] at hfollowed
      rw [hfollowed] at hmap
      cases hmap
    | ok linked =>
      obtain ⟨l, problems⟩ := linked
      rw [hfollow] at hfollowed
      have hnode : process = l.node := hfollowed
      have hsomething : l.node ≠ .map .plain [] := by
        intro hnone
        rw [hnode, hnone] at houts
        cases houts
        cases ho
      obtain ⟨path, text, hresolve, hfind, hread⟩ := Workspace.file_of_follow hscheme hfollow hsomething
      have hnull : process.isNull = false := by
        cases process with
        | null => cases hmap
        | _ => rfl
      rw [← hnode] at hread
      exact ⟨path, text, hresolve, hfind, fun r hr => hsteady.load_of_readLinked hfind hstart hr hnull hread⟩
  | false =>
    simp only [htext, Bool.false_eq_true, if_false] at hmeant
    -- only an import is taken for a link, so the process is the step's own
    have hown : process = run := by
      cases hmeant with
      | linkedFile himport => rw [himport] at hhere; cases hhere.2
      | linkedType himport => rw [himport] at hhere; cases hhere.2
      | _ => exact hprocess
    subst hown
    cases process with
    | map form es => rfl
    | _ => cases hmap

/-! ## Accepted sources -/

/-- The steps of a workflow as the way through it gets to know them. -/
def knownSteps (S : Scene) (depth : Nat) (fields : Fields) (form : Form) (es : Node.Entries) : Workflow.Steps :=
  Workflow.Steps.all (S.stepsOf (S.findTo (depth + 2)) (.str "Workflow") fields (.map form es) none none none
    (es.map fun e => (e.1, e.2.2)))

variable {form : Form} {styled : Bool} {s s' : Analysis × Yaml.Reader} {es : Node.Entries}
  {named : String → Prop}

theorem listed_of_maps {steps} (htidy : AllMaps Tidy steps) {es}
    (hes : (Listing.asMap steps (.str "id")).2 = .ok es) (hmaps : ∀ e ∈ es, e.value.isMap = true)
    (hsome : es ≠ []) : (steps.isMap = true ∨ steps.isSeq = true) ∧ steps.field? "class" = none := by
  cases steps with
  | seq form items => exact ⟨.inr rfl, rfl⟩
  | map form fields =>
    refine ⟨.inl rfl, ?_⟩
    cases hclass : Node.field? (.map form fields) "class" with
    | none => rfl
    | some c =>
      cases hes
      obtain ⟨hkey, _⟩ := htidy.1.className c hclass
      obtain ⟨e, he, _, rfl⟩ := Node.field?_eq_some hclass
      have hmap := hmaps _ (mem_map_of_mem he)
      cases hvalue : e.2.2 with
      | map form' es' => rw [hvalue] at hkey; cases hkey
      | _ => rw [hvalue] at hmap; cases hmap
  | _ =>
    cases hes
    exact absurd rfl hsome

/-- The steps of a workflow, once as they are visited and once as samples are drawn. -/
structure StepsListed (fields : Fields) (form : Form) (es : Node.Entries) (types : List CwlType)
    (predicate : Node) (steps : List ListingEntry) (l : Listing) : Prop where
  typed : ∃ required, Fields.get? fields "steps" =
    some (required, [.listOrMap (.str "steps") types ⟨.str "id", predicate⟩])
  tidy : AllMaps Tidy (.map form es)
  drawn : portsOf (.map form es) "steps" = .ok steps
  visited : (Listing.of ((es.field? "steps").getD .null) (.str "id")).2 = .ok l
  maps : ∀ e ∈ steps, e.value.isMap = true
  nonempty : steps ≠ []

namespace StepsListed

variable {fields : Fields} {form : Form} {es : Node.Entries} {types : List CwlType} {predicate : Node}
  {steps : List ListingEntry} {l : Listing}

section

variable (h : StepsListed fields form es types predicate steps l)

include h

theorem exists_steps : ∃ node,
    es.field? "steps" = some node ∧ (Listing.asMap node (.str "id")).2 = .ok steps ∧
    (Listing.of node (.str "id")).2 = .ok l ∧ AllMaps Tidy node := by
  have hdrawn := h.drawn
  have hvisited := h.visited
  unfold portsOf at hdrawn
  rw [Node.field?] at hdrawn
  cases hsteps : es.field? "steps" with
  | none =>
    rw [hsteps] at hdrawn
    cases hdrawn
    exact absurd rfl h.nonempty
  | some node =>
    rw [hsteps] at hdrawn hvisited
    exact ⟨node, rfl, hdrawn, hvisited, AllMaps.field? (n := .map form es) h.tidy hsteps⟩

theorem known_eq (hS : S.Sound) (depth) :
    knownSteps S depth fields form es = Workflow.Steps.all (l.entries.map fun e => (e.key, (S.entryFindings
      (S.findTo (depth + 1)) (.str "steps") types ⟨.str "id", predicate⟩ l e).interface.getD {})) := by
  obtain ⟨node, hsteps, hdrawn, hvisited, hnode⟩ := h.exists_steps
  obtain ⟨required, htyped⟩ := h.typed
  obtain ⟨hlisted, hclass⟩ := listed_of_maps hnode hdrawn h.maps h.nonempty
  exact congrArg Workflow.Steps.all (Analysis.stepsOf_eq hS htyped hsteps hlisted hclass hvisited)

theorem isSome_known (hS : S.Sound)
    (depth : Nat) {e} (he : e ∈ l.entries) (hkey : e.key.same e.key = true) :
    ((knownSteps S depth fields form es).get? e.key).isSome = true := by
  rw [h.known_eq hS depth]
  exact Workflow.Steps.isSome_get?_all (mem_map_of_mem he) hkey

/-- What is known as an output of a step is covered, or the process of the step is elsewhere. -/
theorem covered_of_output (hS : S.Sound)
    (htypes : ∀ t ∈ types, t.orderly .step = true) (hsteady : S.env.workspace.Steady P)
    (hstart : P S.start)
    (hcovers : Sample.CoversSteps S.env.workspace P S.env.doc (.map form es) named) {depth t}
    (hi : (knownSteps S depth fields form es).get? (.str t) = some i)
    (hp : i.outputs.contains (.str p) = true) : named (t ++ "/" ++ p) ∨ RunsElsewhere (.map form es) t := by
  rw [h.known_eq hS depth] at hi
  obtain ⟨a, ha, hname, rfl⟩ := Workflow.Steps.of_get?_all hi
  obtain ⟨e, he, rfl⟩ := mem_map.mp ha
  obtain ⟨node, _, hdrawn, hvisited, hnode⟩ := h.exists_steps
  obtain ⟨e', he', hkey, hvalue⟩ := Listing.exists_of_pairs (Listing.pairs_of_asMap hdrawn hvisited).symm he
  have hmap : e.value.isMap = true := hvalue ▸ h.maps e' he'
  have hname' : e'.key.isName t = true := hkey.symm ▸ hname
  dsimp only at hp
  -- a step without an interface has no outputs
  cases hinterface : (S.entryFindings (S.findTo (depth + 1)) (.str "steps") types ⟨.str "id", predicate⟩ l
      e).interface with
  | none =>
    rw [hinterface] at hp
    cases hp
  | some i =>
    rw [hinterface, Option.getD_some] at hp
    obtain ⟨run, process, ds, i', hrun, hruns, hof, houtputs⟩ :=
      Analysis.entryFindings_interface hS htypes (Analysis.entries_tidy hnode hvisited e he) hmap hinterface
    rw [houtputs] at hp
    have hrun' : (e'.value.field? "run").getD .null = run := by rw [hvalue, hrun, Option.getD_some]
    cases hfar : isElsewhere run with
    | true => exact .inr ⟨e', (portsIn_eq h.drawn).symm ▸ he', hname', hrun'.symm ▸ hfar⟩
    | false =>
      have hhand := atHand_of_runs hsteady hstart hruns hof hp hfar
      obtain ⟨_, outs, houts, o, ho, hport⟩ := exists_output hof hp
      obtain ⟨steps', hsteps', hall⟩ := hcovers
      rw [h.drawn] at hsteps'
      cases hsteps'
      obtain ⟨outs', houts', hnamed⟩ := (hall e' he').2 t hname' process (hrun'.symm ▸ hhand)
      rw [houts] at houts'
      cases houts'
      exact .inl (hnamed o ho p hport)

end

end StepsListed

variable (hS : S.Sound) (hl : S.env.language.ListsSteps) (htidy : AllMaps Tidy (.map form es))
  (hclass : es.field? "class" = some (.text "Workflow" styled)) (hs : Standing S s)
  (hends : Analysis.Ends (Analysis.walk S.env ⟨.map form es, []⟩) s () s')
  (hinformed : Analysis.Informed S s'.1) (hnone : s'.1.problems = [])
include hS hl htidy hclass hs hends hinformed hnone

theorem accepted_of_walk : ∃ documented fields depth w,
      S.env.language.get? "Workflow" = some (.record (.str "Workflow") documented fields) ∧
      Workflow.ofProcess (.map form es) = .ok w ∧ Workflow.Located w (knownSteps S depth fields form es) ∧
      Workflow.stepFaults w (knownSteps S depth fields form es) = [] := by
  obtain ⟨documented, fields, depth, hflow, hfound, w, hw, hok⟩ :=
    Analysis.walk_workflow hS hl htidy hclass hs hends
  obtain ⟨doubted, hperm, _⟩ := hfound.problems hinformed
  rw [hnone] at hperm
  have hfindings := (append_eq_nil_iff.mp (append_eq_nil_iff.mp hperm.nil_eq.symm).1).2
  have hproblems : Analysis.flowProblems (.map form es) (S.stepsOf (S.findTo (depth + 2)) (.str "Workflow") fields
      (.map form es) none none none (es.map fun e => (e.1, e.2.2))) = [] := (append_eq_nil_iff.mp hfindings).2
  unfold Analysis.flowProblems at hproblems
  dsimp only at hproblems
  rw [hw] at hproblems
  obtain ⟨hlocated, _, hlegible, _⟩ := Workflow.connectionProblems_iff.mp (Prod.ext rfl hok)
  refine ⟨documented, fields, depth, w, hflow, hw, hlocated, ?_⟩
  have hsources : w.sourceProblems _ = [] := (append_eq_nil_iff.mp hproblems).1
  refine (Workflow.no_faults hlegible fun d hd => ?_).1
  rw [hsources] at hd
  cases hd

/-- What a workflow without problems takes is covered, unless it comes from a step that runs a
process elsewhere. -/
theorem covered_of_takes (hsteady : S.env.workspace.Steady P) (hstart : P S.start)
    (hinputs : Sample.CoversInputs (.map form es) named)
    (hsteps : Sample.CoversSteps S.env.workspace P S.env.doc (.map form es) named)
    (htakes : Takes (.map form es) step source) :
    named source ∨ ∃ t p, source = t ++ "/" ++ p ∧ RunsElsewhere (.map form es) t := by
  obtain ⟨documented, fields, depth, w, hflow, hw, hlocated, hfaults⟩ :=
    accepted_of_walk hS hl htidy hclass hs hends hinformed hnone
  obtain ⟨required, types, predicate, htyped⟩ := hl.steps documented fields hflow
  have horderly := S.env.language.orderly_of_get? hS.orderly hflow (by decide)
  rw [CwlType.orderly, Bool.and_eq_true] at horderly
  have hlisting : (CwlType.listOrMap (.str "steps") types ⟨.str "id", predicate⟩).orderly _ = true :=
    CwlType.orderly_of_field horderly.2 htyped _ (mem_singleton.mpr rfl)
  obtain ⟨steps, hdrawn, hall⟩ := hsteps
  obtain ⟨s, ports, p, src, hstep, hports, hp, hsrc, hsource⟩ := htakes.exists_port
  rw [portsIn_eq hdrawn] at hstep
  have hmem : s ∈ steps := mem_of_find?_eq_some hstep
  have hmaps : ∀ e ∈ steps, e.value.isMap = true := fun e he => (hall e he).1
  obtain ⟨_, _, hparts⟩ := Workflow.eq_of_ofProcess hw
  obtain ⟨l, hl⟩ := exists_of_isOk hlocated.steps
  have hvisited : (Listing.of (Workflow.partOf (.map form es) "steps") (.str "id")).2 = .ok l := by rwa [hparts] at hl
  have hlisted : StepsListed fields form es types predicate steps l :=
    ⟨⟨required, htyped⟩, htidy, hdrawn, hvisited, hmaps, ne_nil_of_mem hmem⟩
  obtain ⟨node, _, hasMap, hof, _⟩ := hlisted.exists_steps
  -- the step as it was visited: it is known, and so its ports were checked
  obtain ⟨s₁, hs₁, hkey, hvalue⟩ := Listing.exists_of_pairs (Listing.pairs_of_asMap hasMap hof) hmem
  have hself : s₁.key.same s₁.key = true := by
    have hsame : s.key.same step = true := by simpa [Listing.get?] using List.find?_some hstep
    rw [hkey]
    exact Node.same_trans _ _ _ hsame (Node.same_symm _ _ hsame)
  have hknown := hlisted.isSome_known hS depth hs₁ hself
  have hmap : s₁.value.isMap = true := hvalue ▸ hmaps s hmem
  have hs₁' : s₁ ∈ (Workflow.listing w.steps).entries := by rwa [Workflow.listing_eq hl]
  obtain ⟨lp, hlp⟩ := exists_of_isOk (hlocated.listed_ports hs₁' hmap hknown)
  rw [← hvalue] at hports
  obtain ⟨p₁, hp₁, _, hpvalue⟩ := Listing.exists_of_pairs (Listing.pairs_of_asMap hports hlp) hp
  have hresolvable := Workflow.resolvable_of_no_stepFaults hfaults hs₁' hmap hknown (e := p₁)
    (by rwa [Workflow.listing_eq hlp]) (hpvalue.symm ▸ hsrc)
  rcases hresolvable with hinput | ⟨_, hsource', t, p, i, rfl, _, hi, hout⟩
  · obtain ⟨_, ins, hins, hnames⟩ := Workflow.inputNames_of hw
    obtain ⟨ins', hins', hnamed⟩ := hinputs
    rw [show portsOf (.map form es) "inputs" = .ok ins from hins] at hins'
    cases hins'
    obtain ⟨k, hk, hsame⟩ := (NameSet.contains_ofList _ _).mp (hnames ▸ hinput)
    obtain ⟨e, he, rfl⟩ := mem_map.mp hk
    cases src with
    | text s styled =>
      cases hsource
      exact .inl (hnamed e he source (by simpa using hsame))
    | _ => cases hsource
  · rw [hsource] at hsource'
    cases hsource'
    rcases hlisted.covered_of_output hS (Analysis.items_orderly hlisting) hsteady hstart ⟨steps, hdrawn, hall⟩ hi
      hout with h | h
    · exact .inl h
    · exact .inr ⟨t, p, rfl, h⟩

end

/-! ## Documents -/

theorem of_walked {d loaded logs r} (hok : (walked d loaded logs r).outcome.isOk = true) :
    r.1 = .ok () ∧ (walked d loaded logs r).document.problems = r.2.problems ∧
      (walked d loaded logs r).document.job = { d with analysis := r.2 }.job := by
  obtain ⟨r, a⟩ := r
  cases r with
  | error f => cases hok
  | ok v =>
    obtain ⟨_, _, hdocument⟩ := outlined_eq { d with analysis := a, problems := a.problems } loaded
    dsimp only [walked]
    rw [hdocument]
    exact ⟨rfl, rfl, rfl⟩

/-- The way through a document, in a language, came to its end with these findings, and they are
what is known of the document then. -/
def GoneIn (language : Language) (a : Analysis) (uri : Node) (form : Form) (es : Node.Entries)
    (problems : List Diagnostic) (site after : Site) (known : Document) : Prop :=
  Analysis.Ends (Analysis.walk { workspace := site.workspace, doc := uri, language } ⟨.map form es, []⟩)
      (beginning problems es, site.readers.links) () (a, after.readers.links) ∧
    known.problems = a.problems ∧
    known.job = .ok { doc := uri, process := .map form es, types := a.types }

/-- The way through a document, in a language of the catalog, came to its end, and what is known
of the document then is what was found on it. -/
def GoneThrough (catalog : Language.Catalog) (uri : Node) (form : Form) (es : Node.Entries)
    (problems : List Diagnostic) (site after : Site) (known : Document) : Prop :=
  ∃ v language a, (v, language) ∈ catalog ∧ GoneIn language a uri form es problems site after known

section

variable {catalog : Language.Catalog} {form : Form} {es : Node.Entries} {problems : List Diagnostic} {d : Document}
  {site after : Site} {u : Updated}

theorem goneIn_of_explore (hexplore : (d.explore ⟨.map form es, []⟩ problems catalog).run site = (u, after))
    (hok : u.outcome.isOk = true) : ∃ language logs a,
      languageFor catalog ((es.field? "cwlVersion").getD .null) = .ok (language, logs) ∧
        GoneIn language a d.uri form es problems site after u.document := by
  have hfull : Yaml.Reader.Loaded.full ⟨.map form es, []⟩ = .map form es := Analysis.full_eq _
  cases hlanguage : languageFor catalog
      (((Yaml.Reader.Loaded.full ⟨.map form es, []⟩).field? "cwlVersion").getD .null) with
  | error f =>
    rw [explore_run, hlanguage] at hexplore
    cases hexplore
    cases hok
  | ok found =>
    obtain ⟨language, logs⟩ := found
    rw [explore_run, hlanguage] at hexplore
    cases hexplore
    obtain ⟨hends, hproblems, hjob⟩ := of_walked hok
    rw [hfull] at hlanguage
    refine ⟨language, logs, _, hlanguage, Prod.ext (Prod.ext hends rfl) rfl, hproblems, hjob.trans ?_⟩
    rw [hfull]
    rfl

section

variable {text} (hread : ((readText text).run site).1 = .ok (⟨.map form es, []⟩, problems))
  (hupdate : (d.update text catalog).run site = (u, after)) (hok : u.outcome.isOk = true)

include hread hupdate hok

/-- Work on a text that comes to its end has gone the way through the document, in the language of
its version. -/
theorem goneIn_of_update : ∃ language logs a,
      languageFor catalog ((es.field? "cwlVersion").getD .null) = .ok (language, logs) ∧
        GoneIn language a d.uri form es problems site after u.document := by
  rw [update_run] at hupdate
  dsimp only at hupdate
  rw [hread] at hupdate
  have hgone := goneIn_of_explore hupdate hok
  rw [readText_run] at hgone
  exact hgone

theorem goneThrough_of_update :
    GoneThrough catalog d.uri form es problems site after u.document := by
  obtain ⟨language, logs, a, hlanguage, hgone⟩ := goneIn_of_update hread hupdate hok
  obtain ⟨v, hv⟩ := mem_of_languageFor hlanguage
  exact ⟨v, language, a, hv, hgone⟩

end

/-- In a workflow without problems, every text that an input of a step names as a source is a key
of the sample data, whenever these are drawn, unless it names an output of a step whose process
is linked by a web address or imported. -/
theorem sources_sampled
    (hcatalog : ∀ l ∈ catalog, l ∈ Language.publishedCatalog ∨ l.2.orderly = true ∧ l.2.ListsSteps)
    {P : Yaml.Reader → Prop} (hsteady : site.workspace.Steady P) (hlinks : P site.readers.links) {text : Node}
    (hread : ((readText text).run site).1 = .ok (⟨.map form es, []⟩, problems)) {styled : Bool}
    (hclass : Node.Entries.field? es "class" = some (.text "Workflow" styled))
    (htidy : AllMaps Tidy (.map form es)) (hupdate : (d.update text catalog).run site = (u, after))
    (hok : u.outcome.isOk = true) (hnone : u.document.problems = []) {job : Job}
    (hjob : u.document.job = .ok job) :
    P after.readers.links ∧ ∀ supply sample, P supply.readers.links →
      ((Sample.data after.workspace job.doc job.process job.types).run.run supply).1 = .ok sample →
      ∃ values, Job.itemOf sample (.str "inputs") = .ok (.map .plain values) ∧
        ∀ step source, Takes job.process step source →
          (Node.Entries.value? values (.str source)).isSome = true ∨
          ∃ t p, source = t ++ "/" ++ p ∧ RunsElsewhere job.process t := by
  obtain ⟨v, language, a, hlanguage, hends, hproblems, hdone⟩ := goneThrough_of_update hread hupdate hok
  obtain ⟨horderly, hsteps⟩ := (hcatalog _ hlanguage).elim (Language.published_inOrder _) id
  rw [hdone] at hjob
  cases hjob
  have hworkspace : after.workspace = site.workspace := by
    obtain ⟨-, _, _, hsite⟩ := @update_frame catalog site d text
    rw [hupdate] at hsite
    rw [show after = _ from hsite]
  let S : Scene :=
    { env := { workspace := site.workspace, doc := d.uri, language }
      start := site.readers.links
      namespaces := (Node.Entries.field? es "$namespaces").getD (.map .plain [])
      types := Analysis.importedTypes a
      doubtful := fun _ => true }
  have hS : S.Sound := ⟨Analysis.steadyLinks_of_alike (hsteady.alike hlinks), rfl, horderly,
    Analysis.declared_textKeys htidy _⟩
  have hstanding : Standing S (beginning problems es, site.readers.links) :=
    ⟨⟨[], rfl⟩, rfl, by simp [beginning]⟩
  obtain ⟨_, _, hfound⟩ := Analysis.walk_finds hS htidy hstanding hends
  have hinformed : Analysis.Informed S a :=
    Analysis.informed_of_doubtful (Analysis.mem_importedTypes hfound.standing.typeKeys) fun _ _ => rfl
  obtain ⟨earlier, hearlier⟩ := hfound.standing.reader
  have hafter : P after.readers.links := by
    rw [show after.readers.links = S.after earlier from hearlier]
    exact Analysis.linksAfter_alike (hsteady.alike hlinks) earlier
  refine ⟨hafter, fun supply sample hsupply hsample => ?_⟩
  rw [hworkspace] at hsample
  obtain ⟨values, outs, rfl, hinputs, hcovers⟩ :=
    (Sample.data_yields hsteady d.uri (.map form es) a.types supply hsupply).2 sample hsample
  refine ⟨values, itemOf_record _ _ _, fun step source htakes => ?_⟩
  rw [Node.isSome_value?_text]
  exact covered_of_takes hS hsteps htidy hclass hstanding hends hinformed
    (hproblems.symm.trans hnone) hsteady hlinks hinputs hcovers htakes

end

/-! ## A step after another -/

/-- A language of workflows that list their steps. Any data may stand in other fields. -/
def stepLanguage : Language :=
  ⟨[(.str "CommandLineTool", .record (.str "CommandLineTool") false []),
    (.str "ExpressionTool", .record (.str "ExpressionTool") false []),
    (.str "Workflow", .record (.str "Workflow") false
      [("class", true, [.any]), ("steps", true, [.listOrMap (.str "steps") [.record (.str "WorkflowStep") false
        [("in", false, [.any]), ("run", true, [.any])]] ⟨.str "id", .null⟩])])]⟩

theorem stepLanguage_listsSteps : stepLanguage.ListsSteps := by
  constructor
  · simp [Language.processTypes, Language.get?, Language.find?, stepLanguage, Node.isName, Node.str]
  · intro documented fields h
    simp only [Language.get?, Language.find?, stepLanguage, Node.str, Node.same_text, Node.isName] at h
    cases h
    exact ⟨true, _, .null, rfl⟩

theorem emptySite_steady : emptySite.workspace.Steady (· = emptySite.readers.links) := by
  constructor
  · intro text htext
    cases htext
  · intro path text hfind
    cases Workspace.text_linkable hfind

/-- Whether what was read is a tidy workflow. -/
def isTidyFlow : Except Fault (Yaml.Reader.Loaded × List Diagnostic) → Bool
  | .ok (⟨.map form es, []⟩, _) =>
    ((Node.Entries.field? es "class").any (·.isName "Workflow")) && decide (AllMaps Tidy (.map form es))
  | _ => false

theorem exists_of_isTidyFlow {r} (h : isTidyFlow r = true) :
    ∃ form es problems styled, r = .ok (⟨.map form es, []⟩, problems) ∧
      Node.Entries.field? es "class" = some (.text "Workflow" styled) ∧ AllMaps Tidy (.map form es) := by
  unfold isTidyFlow at h
  split at h
  · rename_i form es problems
    rw [Bool.and_eq_true, decide_eq_true_eq, Option.any_eq_true] at h
    obtain ⟨⟨c, hc, hname⟩, htidy⟩ := h
    obtain ⟨styled, rfl⟩ := Node.isName_iff.mp hname
    exact ⟨form, es, problems, styled, rfl, hc, htidy⟩
  · cases h

/-- A workflow whose second step takes what its first one makes. -/
def chainText : Node := .str
  "class: Workflow\nsteps:\n  s: {run: {outputs: {o: int}}}\n  t: {in: {x: s/o}, run: {inputs: {x: int}}}"

/-- What becomes of a document with that text. -/
def chained : Updated × Site :=
  (update { uri := .str "a.cwl" } chainText [(Language.latest, stepLanguage)]).run emptySite

/-- The sample data of that document. -/
def chainSample (job : Job) : Except Fault Node :=
  ((Sample.data chained.2.workspace job.doc job.process job.types).run.run ⟨0, { emptySite.readers with }⟩).1

theorem sources_sampled_chain : ∃ job sample values, chained.1.document.problems = [] ∧
    chained.1.document.job = .ok job ∧ Takes job.process (.str "t") "s/o" ∧ chainSample job = .ok sample ∧
    Job.itemOf sample (.str "inputs") = .ok (.map .plain values) ∧
    (Node.Entries.value? values (.str "s/o")).isSome = true := by
  -- all at once, so that the text is read only once
  have heval : isTidyFlow ((readText chainText).run emptySite).1 = true ∧ chained.1.outcome.isOk = true ∧
      chained.1.document.problems.isEmpty = true ∧ (chained.1.document.job.toOption.any fun job =>
        decide (Takes job.process (.str "t") "s/o") && (chainSample job).isOk &&
        (portsIn job.process "steps").all fun s => !isElsewhere ((s.value.field? "run").getD .null)) = true := by
    decide +kernel
  obtain ⟨hflow, hok, hnone, hjob⟩ := heval
  obtain ⟨form, es, problems, styled, hread, hclass, htidy⟩ := exists_of_isTidyFlow hflow
  cases hdone : chained.1.document.job with
  | error f => rw [hdone] at hjob; cases hjob
  | ok job =>
    rw [hdone, Except.toOption, Option.any_some, Bool.and_eq_true, Bool.and_eq_true, decide_eq_true_eq,
      List.all_eq_true] at hjob
    obtain ⟨⟨htakes, hdrawn⟩, hhere⟩ := hjob
    obtain ⟨sample, hsample⟩ := exists_of_isOk hdrawn
    have hcatalog : ∀ l ∈ [(Language.latest, stepLanguage)],
        l ∈ Language.publishedCatalog ∨ l.2.orderly = true ∧ l.2.ListsSteps := by
      intro l hl
      obtain rfl := List.mem_singleton.mp hl
      exact .inr ⟨by decide +kernel, stepLanguage_listsSteps⟩
    obtain ⟨_, hall⟩ := sources_sampled hcatalog emptySite_steady rfl hread hclass htidy (Prod.eta chained).symm hok
      (List.isEmpty_iff.mp hnone) hdone
    obtain ⟨values, hvalues, hsources⟩ := hall ⟨0, { emptySite.readers with }⟩ sample rfl hsample
    refine ⟨job, sample, values, List.isEmpty_iff.mp hnone, rfl, htakes, hsample, hvalues, ?_⟩
    rcases hsources _ _ htakes with h | ⟨t, p, _, s, hs, _, hfar⟩
    · exact h
    · have hnear := hhere s hs
      rw [hfar] at hnear
      cases hnear

end CwlService.Document
