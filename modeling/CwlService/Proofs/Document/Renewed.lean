import CwlService.Document.Answer

/-! # New texts

A document that gets one text after another is compared to one that is opened with the last of
them. All that is said about the text is the same, its problems, its symbols and what is known
at each place. Only the drawing of an earlier text stays where the last text is no process. -/
namespace CwlService.Document

variable {catalog : Language.Catalog} {site : Site}

variable {language : Language} {other : Site} {ts : List Node} {a : Document × Site}

variable (graph : Option FlowGraph) (d : Document) (loaded : Yaml.Reader.Loaded) (problems : List Diagnostic)
  (logs : List LogEntry) (r : Except Fault Unit × Analysis) (text : Node)

/-! ## The steps of an update -/

theorem mem_of_lookup {catalog : Language.Catalog} {v} (h : catalog.lookup v = some language) :
    (v, language) ∈ catalog := by
  obtain ⟨l₁, l₂, hl, _⟩ := List.lookup_eq_some_iff.mp h
  rw [hl]
  exact List.mem_append_right _ List.mem_cons_self

theorem mem_of_languageFor {catalog version logs}
    (h : languageFor catalog version = .ok (language, logs)) : ∃ v, (v, language) ∈ catalog := by
  unfold languageFor at h
  cases hkey : version.isKey with
  | false => simp only [hkey] at h; cases h
  | true =>
    simp only [hkey] at h
    cases hversion : version.text?.bind fun v => catalog.lookup v with
    | some l =>
      rw [hversion] at h
      cases h
      obtain ⟨v, _, hv⟩ := Option.bind_eq_some_iff.mp hversion
      exact ⟨v, mem_of_lookup hv⟩
    | none =>
      rw [hversion] at h
      cases hlatest : catalog.lookup Language.latest with
      | some l =>
        rw [hlatest] at h
        cases h
        exact ⟨_, mem_of_lookup hlatest⟩
      | none =>
        rw [hlatest] at h
        cases h

/-- What is known of a document after the way through it. -/
def walked : Updated :=
  let d := { d with analysis := r.2, problems := r.2.problems }
  match r.1 with
  | .error f => ⟨d, logs, .error f⟩
  | .ok () => ⟨(d.outlined loaded).1, logs, (d.outlined loaded).2⟩

theorem walkThrough_run (env : Setting) (loaded : Yaml.Reader.Loaded) (start : Analysis) :
    (walkThrough env loaded start).run site =
      let r := ((Analysis.walk env loaded).run.run start).run site.readers.links
      (r.1, { site with readers.links := r.2 }) := rfl

/-- A text that was read is no map, is of a version that cannot be looked for, or is gone through. -/
theorem explore_run : (d.explore loaded problems catalog).run site =
      match loaded.node, languageFor catalog ((loaded.full.field? "cwlVersion").getD .null) with
      | .map _ es, .ok (language, logs) =>
        let r := ((Analysis.walk { workspace := site.workspace, doc := d.uri, language } loaded).run.run
          (beginning problems es)).run site.readers.links
        (walked { d with problems, process := some loaded.full, analysis := beginning problems es } loaded logs r.1,
          { site with readers.links := r.2 })
      | .map _ es, .error f =>
        (⟨{ d with problems, process := some loaded.full, analysis := beginning problems es }, [], .error f⟩, site)
      | _, _ => (⟨{ d with problems }, [], .ok ()⟩, site) := by
  unfold explore
  cases loaded.node with
  | map form es =>
    dsimp only
    cases languageFor catalog ((loaded.full.field? "cwlVersion").getD .null) with
    | error f => rfl
    | ok found =>
      simp only [StateT.run_bind, StateT.run_get, pure_bind, walkThrough_run]
      cases ((Analysis.walk { workspace := site.workspace, doc := d.uri, language := found.1 } loaded).run.run
        (beginning problems es)).run site.readers.links with
      | mk r links =>
        obtain ⟨r, analysis⟩ := r
        cases r <;> rfl
  | _ => rfl

@[elab_as_elim]
theorem explore_cases {P : Updated × Site → Prop}
    (plain : loaded.node.isMap = false → P (⟨{ d with problems }, [], .ok ()⟩, site))
    (unknown : ∀ es f, loaded.node.isMap = true →
      P (⟨{ d with problems, process := some loaded.full, analysis := beginning problems es }, [], .error f⟩, site))
    (walked : ∀ form es language logs, loaded.node = .map form es →
      languageFor catalog ((loaded.full.field? "cwlVersion").getD .null) = .ok (language, logs) →
      let r := ((Analysis.walk { workspace := site.workspace, doc := d.uri, language } loaded).run.run
        (beginning problems es)).run site.readers.links
      P (walked { d with problems, process := some loaded.full, analysis := beginning problems es } loaded logs r.1,
        { site with readers.links := r.2 })) : P ((d.explore loaded problems catalog).run site) := by
  rw [explore_run]
  cases hnode : loaded.node with
  | map form es =>
    cases hlanguage : languageFor catalog ((loaded.full.field? "cwlVersion").getD .null) with
    | error f => exact unknown es f (by rw [hnode]; rfl)
    | ok found => exact walked form es found.1 found.2 hnode hlanguage
  | _ => exact plain (by rw [hnode]; rfl)

theorem readText_run : (readText text).run site =
      let r := (readNode repairs text).run.run site.readers.documents
      (r.1, { site with readers.documents := r.2 }) := rfl

theorem update_run : (d.update text catalog).run site =
      let read := (readText text).run site
      let d := { d.forgotten with text := text.text?.getD "" }
      match read.1 with
      | .error f => (⟨d, [], .error f⟩, read.2)
      | .ok (loaded, problems) => (d.explore loaded problems catalog).run read.2 := by
  unfold update
  simp only [StateT.run_bind]
  cases (readText text).run site with
  | mk r site' => cases r <;> rfl

/-! ## What an earlier text leaves behind -/

/-- The drawing of an earlier text is kept if there is no new one. -/
def keeping (d : Document) (graph : Option FlowGraph) : Document :=
  { d with graph := d.graph.or graph }

/-- The same for the outcome of an update. -/
def Updated.keeping (u : Updated) (graph : Option FlowGraph) : Updated :=
  { u with document := u.document.keeping graph }

theorem outlined_keeping :
    (d.keeping graph).outlined loaded = ((d.outlined loaded).1.keeping graph, (d.outlined loaded).2) := by
  unfold outlined
  cases hsymbols : symbolsOf loaded d.text with
  | error f => simp [keeping, hsymbols]
  | ok symbols =>
    cases hgraph : FlowGraph.of loaded.full with
    | error f => simp [keeping, hsymbols]
    | ok g => simp [keeping, hsymbols]

theorem walked_keeping : walked (d.keeping graph) loaded logs r = (walked d loaded logs r).keeping graph := by
  obtain ⟨r, analysis⟩ := r
  cases r with
  | error f => rfl
  | ok u =>
    have houtlined := outlined_keeping graph { d with analysis, problems := analysis.problems } loaded
    exact congrArg (fun o => Updated.mk o.1 logs o.2) houtlined

theorem explore_keeping : ((d.keeping graph).explore loaded problems catalog).run site =
      let r := (d.explore loaded problems catalog).run site
      (r.1.keeping graph, r.2) := by
  rw [explore_run, explore_run]
  cases loaded.node with
  | map form es =>
    cases languageFor catalog ((loaded.full.field? "cwlVersion").getD .null) with
    | error f => rfl
    | ok found =>
      exact congrArg (·, _) (walked_keeping graph
        { d with problems, process := some loaded.full, analysis := beginning problems es } _ _ _)
  | _ => rfl

/-- A text that is worked on to the end leaves nothing of what was known before it but the
drawing, and that only if it has none itself. -/
theorem update_eq (h : ((d.update text catalog).run site).1.outcome.isOk = true) : (d.update text catalog).run site =
      let r := (new d.uri text catalog).run site
      (r.1.keeping d.graph, r.2) := by
  unfold new
  rw [update_run] at h
  rw [update_run, update_run]
  cases hread : (readText text).run site with
  | mk r site' =>
    rw [hread] at h
    cases r with
    | error f => cases h
    | ok found =>
      obtain ⟨loaded, problems⟩ := found
      let opened : Document := { uri := d.uri, text := text.text?.getD "" }
      have hforgotten : Document.explore { d.forgotten with text := text.text?.getD "" } loaded problems catalog =
          (opened.keeping d.graph).explore loaded problems catalog := rfl
      dsimp only
      rw [hforgotten, explore_keeping]
      rfl

/-! ## Where a text is worked on -/

theorem outlined_eq : ∃ symbols graph, (d.outlined loaded).1 = { d with symbols, graph } := by
  unfold outlined
  cases symbolsOf loaded d.text with
  | error f => exact ⟨_, _, rfl⟩
  | ok symbols => cases FlowGraph.of loaded.full <;> exact ⟨_, _, rfl⟩

theorem walked_eq : ∃ symbols graph, (walked d loaded logs r).document =
    { d with analysis := r.2, problems := r.2.problems, symbols, graph } := by
  obtain ⟨r, analysis⟩ := r
  cases r with
  | error f => exact ⟨_, _, rfl⟩
  | ok u => exact outlined_eq _ _

/-- Work on a text changes neither the address of the document nor a file. -/
theorem explore_eq :
    (∃ problems' analysis symbols graph process, ((d.explore loaded problems catalog).run site).1.document =
      { d with problems := problems', analysis, symbols, graph, process }) ∧
    ∃ links, ((d.explore loaded problems catalog).run site).2 = { site with readers.links := links } := by
  refine explore_cases d loaded problems (fun _ => ⟨⟨_, _, _, _, _, rfl⟩, _, rfl⟩)
    (fun _ _ _ => ⟨⟨_, _, _, _, _, rfl⟩, _, rfl⟩) fun _ es language logs _ _ => ?_
  obtain ⟨symbols, graph, hwalked⟩ := walked_eq _ loaded logs _
  exact ⟨⟨_, _, _, _, _, hwalked⟩, _, rfl⟩

/-- A document has the text that it was given last, however far the work on it got, and no sample data.
Its address, all files and what else is at the place are left as they are. -/
theorem update_frame : (∃ problems analysis symbols graph process, ((d.update text catalog).run site).1.document =
      { d with text := text.text?.getD "", sample := none, problems, analysis, symbols, graph, process }) ∧
    ∃ documents links, ((d.update text catalog).run site).2 =
      { site with readers.documents := documents, readers.links := links } := by
  rw [update_run, readText_run]
  dsimp only
  cases ((readNode repairs text).run.run site.readers.documents).1 with
  | error f => exact ⟨⟨_, _, _, _, _, rfl⟩, _, _, rfl⟩
  | ok found =>
    obtain ⟨⟨_, _, _, _, _, hdocument⟩, _, hsite⟩ := @explore_eq catalog { site with
      readers.documents := _ } { d.forgotten with text := text.text?.getD "" } found.1 found.2
    exact ⟨⟨_, _, _, _, _, hdocument⟩, _, _, hsite⟩

theorem explore_congr
    (hworkspace : other.workspace = site.workspace) (hlinks : other.readers.links = site.readers.links) :
    ((d.explore loaded problems catalog).run other).1 = ((d.explore loaded problems catalog).run site).1 := by
  rw [explore_run, explore_run, hworkspace, hlinks]
  cases loaded.node with
  | map form es => cases languageFor catalog ((loaded.full.field? "cwlVersion").getD .null) <;> rfl
  | _ => rfl

/-- Nothing but the files and the readers of documents and links counts for an update. -/
theorem update_congr (hworkspace : other.workspace = site.workspace)
    (hdocuments : other.readers.documents = site.readers.documents)
    (hlinks : other.readers.links = site.readers.links) :
    ((d.update text catalog).run other).1 = ((d.update text catalog).run site).1 := by
  rw [update_run, update_run, readText_run, readText_run, hdocuments]
  dsimp only
  cases ((readNode repairs text).run.run site.readers.documents).1 with
  | error f => rfl
  | ok found => exact explore_congr _ _ _ hworkspace hlinks

/-! ## What has a drawing -/

theorem walked_graph (h : (walked d loaded logs r).outcome.isOk = true) :
    (walked d loaded logs r).document.graph.isSome = true ∧ (walked d loaded logs r).document.process = d.process ∧
      symbolsOf loaded d.text = .ok (walked d loaded logs r).document.symbols := by
  obtain ⟨r, analysis⟩ := r
  cases r with
  | error f => cases h
  | ok u =>
    simp only [walked, outlined] at h ⊢
    cases hsymbols : symbolsOf loaded d.text with
    | error f => rw [hsymbols] at h; cases h
    | ok symbols =>
      rw [hsymbols] at h
      cases hgraph : FlowGraph.of loaded.full with
      | error f => rw [hgraph] at h; cases h
      | ok g => exact ⟨rfl, rfl, rfl⟩

/-- A text that is worked on to the end has a drawing exactly if it is a process. -/
theorem new_graph {uri text} (h : ((new uri text catalog).run site).1.outcome.isOk = true) :
    ((new uri text catalog).run site).1.document.graph.isSome =
      ((new uri text catalog).run site).1.document.process.isSome := by
  unfold new at h ⊢
  rw [update_run, readText_run] at h ⊢
  dsimp only at h ⊢
  cases hread : ((readNode repairs text).run.run site.readers.documents).1 with
  | error f => rw [hread] at h; cases h
  | ok found =>
    rw [hread] at h
    dsimp only at h ⊢
    revert h
    refine explore_cases _ found.1 found.2 (fun _ _ => rfl) (fun _ _ _ h => nomatch h) fun _ _ _ _ _ _ h => ?_
    obtain ⟨hgraph, hprocess, -⟩ := walked_graph _ _ _ _ h
    rw [hgraph, hprocess]
    rfl

/-! ## Many texts -/

/-- A document gets texts one after another, and all of them are worked on to the end. -/
def Follows (catalog : Language.Catalog) : List Node → Document × Site → Document × Site → Prop
  | [], before, after => before = after
  | text :: rest, before, after =>
    let r := (before.1.update text catalog).run before.2
    r.1.outcome.isOk = true ∧ Follows catalog rest (r.1.document, r.2) after

theorem Follows.append {us c} (h : Follows catalog (ts ++ us) a c) :
    ∃ b, Follows catalog ts a b ∧ Follows catalog us b c := by
  induction ts generalizing a with
  | nil => exact ⟨a, rfl, h⟩
  | cons t ts ih =>
    obtain ⟨hok, hrest⟩ := h
    obtain ⟨b, hts, hus⟩ := ih hrest
    exact ⟨b, ⟨hok, hts⟩, hus⟩

theorem Follows.unchanged {b} (h : Follows catalog ts a b) :
    b.1.uri = a.1.uri ∧ b.2.workspace = a.2.workspace := by
  induction ts generalizing a with
  | nil => rw [h]; exact ⟨rfl, rfl⟩
  | cons t ts ih =>
    obtain ⟨hok, hrest⟩ := h
    obtain ⟨huri, hworkspace⟩ := ih hrest
    obtain ⟨⟨_, _, _, _, _, hdocument⟩, _, _, hsite⟩ := @update_frame catalog a.2 a.1 t
    have huri' := congrArg Document.uri hdocument
    have hworkspace' := congrArg Site.workspace hsite
    exact ⟨huri.trans huri', hworkspace.trans hworkspace'⟩

/-- After texts that were all worked on to the end, a document is as if it were opened with the
last of them, wherever the files and what the readers keep are the same. The drawing alone may
be an earlier one, and is if the last text is no process. -/
theorem update_as_opened {uri : Node} {texts : List Node} {last : Node} {site after : Site}
    {d : Document} (h : Follows catalog (texts ++ [last]) ({ uri }, site) (d, after)) :
    ∃ before middle fresh, Follows catalog texts ({ uri }, site) (before, middle) ∧
      (∀ other : Site, other.workspace = site.workspace →
        other.readers.documents = middle.readers.documents →
        other.readers.links = middle.readers.links →
        ((new uri last catalog).run other).1.outcome.isOk = true ∧
        ((new uri last catalog).run other).1.document = fresh) ∧
      d = { fresh with graph := fresh.graph.or before.graph } ∧
      (∀ place, d.hint? place = fresh.hint? place) ∧
      fresh.graph.isSome = fresh.process.isSome := by
  obtain ⟨⟨before, middle⟩, hbefore, hlast⟩ := h.append
  obtain ⟨huri, hworkspace⟩ := hbefore.unchanged
  obtain ⟨hok, hafter⟩ := hlast
  dsimp only at huri hworkspace hok hafter
  rw [update_eq before last hok, huri] at hafter
  rw [update_eq before last hok, huri] at hok
  have hd : d = ((new uri last catalog).run middle).1.document.keeping before.graph :=
    (congrArg Prod.fst hafter).symm
  refine ⟨before, middle, ((new uri last catalog).run middle).1.document, hbefore, ?_, hd, ?_,
    new_graph hok⟩
  · intro other hfiles hdocuments hlinks
    have hsame : ((new uri last catalog).run other).1 = ((new uri last catalog).run middle).1 :=
      update_congr _ _ (hfiles.trans hworkspace.symm) hdocuments hlinks
    rw [hsame]
    exact ⟨hok, rfl⟩
  · intro place
    rw [hd]
    rfl

/-! ## A drawing that stays -/

/-- A language in which every process is without fields. -/
def bareCatalog : Language.Catalog :=
  [(Language.latest, ⟨Language.processTypes.map fun t => (.str t, .record (.str t) false [])⟩)]

/-- A place without files. -/
def emptySite : Site := { workspace := { files := [], replies := [] } }

def drawnText : Node := .str "inputs: {reads: File}"

/-- The drawing of a process is still there when all of its text is gone, and nothing else is. -/
theorem update_as_opened_sample : ∃ (d : Document) (after : Site) (fresh : Document),
    Follows bareCatalog ([drawnText] ++ [.str ""]) ({ uri := .str "a.cwl" }, emptySite) (d, after) ∧
    d = { fresh with graph := d.graph } ∧ fresh.graph.isSome = false ∧ d.graph.isSome = true := by
  have h : Follows bareCatalog ([drawnText] ++ [.str ""]) ({ uri := .str "a.cwl" }, emptySite) _ :=
    ⟨by decide +kernel, by decide +kernel, rfl⟩
  obtain ⟨before, middle, fresh, hbefore, hfresh, hd, _, _⟩ := update_as_opened h
  have hmiddle := (congrArg Prod.snd hbefore.2).symm
  dsimp only at hmiddle
  obtain ⟨_, hopened⟩ := hfresh middle hbefore.unchanged.2 rfl rfl
  refine ⟨_, _, fresh, h, ?_, ?_, by decide +kernel⟩
  · rw [hd]
  · rw [← hopened, hmiddle]
    decide +kernel

end CwlService.Document
