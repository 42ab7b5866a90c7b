import CwlService.Proofs.Workflow.Drawing
import CwlService.Proofs.Workflow.Forms

/-! # Edges and connections

A workflow is drawn without its connections being checked: the ports are read once more, and a
source is cut at its first slash. Where the check finds no error, the two readings see the same
connections. The graph has one edge for each of them, and no edge leads from or to nothing.
A graph needs the places of all inputs and steps, which the check does not; a workflow that
merges some of them in has accepted connections and no graph. -/
namespace CwlService

open List

variable {s : String} {n : Node}

namespace Workflow

/-! ## Connections as they are written -/

/-- A connection: its source, the step that takes it, if one does, and what it leads to. -/
structure Connection where
  source : Node
  step : Option Node
  target : Node

/-- The sources of a port. -/
def sourceNodes (field : String) (port : Node) : List Node :=
  (sourcesOf field port none).map (·.node)

def stepConnections (w : Workflow) : List Connection :=
  (listing w.steps).entries.flatMap fun s => (listing (partOf s.value "in")).entries.flatMap fun e =>
    (sourceNodes "source" e.value).map fun src => ⟨src, some s.key, s.key⟩

def outputConnections (w : Workflow) : List Connection :=
  (listing w.outputs).entries.flatMap fun e =>
    (sourceNodes "outputSource" e.value).map fun src => ⟨src, none, e.key⟩

/-- The connections of a workflow in the order in which they are written. -/
def connections (w : Workflow) : List Connection := stepConnections w ++ outputConnections w

/-- An edge leads from what the source of a connection names, an input or another step with that
output, to where the connection leads. -/
structure Draws (w : Workflow) (known : Steps) (c : Connection) (edge : String × Node) : Prop where
  target : edge.2 = c.target
  source : (c.source.isName edge.1 = true ∧ w.inputNames.contains c.source = true) ∨
    ∃ p i, c.source.isName (edge.1 ++ "/" ++ p) = true ∧
      (c.step.any fun id => id.isName edge.1) = false ∧
      known.get? (.str edge.1) = some i ∧ i.outputs.contains (.str p) = true

/-- Names in a listing that have no slash in them. -/
def SlashFree (l : Listing) : Prop := ∀ e ∈ l.entries, ∀ s ∈ e.key.text?, '/' ∉ s.toList

instance (l : Listing) : Decidable (SlashFree l) :=
  inferInstanceAs (Decidable (∀ e ∈ l.entries, ∀ s ∈ e.key.text?, '/' ∉ s.toList))

theorem SlashFree.not_mem {l} (h : SlashFree l) (hs : ∃ e ∈ l.entries, e.key.isName s = true) :
    '/' ∉ s.toList := by
  obtain ⟨e, he, hname⟩ := hs
  obtain ⟨styled, hkey⟩ := Node.isName_iff.mp hname
  exact h e he s (by rw [hkey]; rfl)

theorem nodes_writtenSources (src : Node) (span span' : Option Span) :
    (writtenSources src span).map (·.node) = (writtenSources src span').map (·.node) := by
  cases src <;> rfl

theorem nodes_sourcesOf (field : String) (port : Node) (span : Option Span) :
    (sourcesOf field port span).map (·.node) = sourceNodes field port := by
  unfold sourceNodes
  have hwritten := nodes_writtenSources port span none
  cases port with
  | map form es => rfl
  | _ => exact hwritten

end Workflow

/-! ## What is drawn -/

namespace FlowGraph

/-- What a source is cut to at its first slash. -/
def origin? (src : Node) : Option String := src.text?.map fun s => (Text.parts '/' s).headD ""

theorem writtenNames_eq (src : Node) (span : Option Span) :
    writtenNames src = (Workflow.writtenSources src span).filterMap fun s => origin? s.node := by
  have hitems : ∀ (list : Node) (items : Node.Items) (first : Nat),
      items.filterMap (fun i => origin? i.2) =
        (Workflow.itemSources list items first).filterMap fun s => origin? s.node := by
    intro list items
    induction items with
    | nil => intro first; rfl
    | cons i rest ih =>
      intro first
      obtain ⟨place, src⟩ := i
      rw [Workflow.itemSources_cons, filterMap_append, ← ih (first + 1)]
      cases src <;> rfl
  cases src with
  | seq form items =>
    rw [writtenNames]
    simp only [filterMap_map]
    exact hitems (.seq form items) items 0
  | _ => rfl

theorem sources_eq_origins (field : String) (port : Node) :
    sources field port = (Workflow.sourceNodes field port).filterMap origin? := by
  have hwritten := writtenNames_eq port none
  rw [Workflow.sourceNodes, filterMap_map]
  cases port with
  | map form es =>
    change writtenNames ((Node.Entries.field? es field).getD .null) = _
    simp only [Workflow.sourcesOf]
    cases Node.Entries.field? es field with
    | none => rfl
    | some src => exact writtenNames_eq src _
  | _ => exact hwritten

/-- Everything in a listing has its place. -/
def Placed (l : Listing) (es : List ListingEntry) : Prop := ∀ e ∈ es, (l.valueSpan e).isOk = true

instance (l : Listing) (es : List ListingEntry) : Decidable (Placed l es) :=
  inferInstanceAs (Decidable (∀ e ∈ es, (l.valueSpan e).isOk = true))

end FlowGraph

namespace Workflow

/-! ## A check without errors -/

section

variable {w : Workflow} {known : Steps}

theorem no_faults (hlegible : ∀ src ∈ visited w known, Legible w src)
    (hnone : ∀ d ∈ sourceProblems w known, d.severity ≠ some .error) :
    stepFaults w known = [] ∧ outputFaults w known = [] := by
  rw [← append_eq_nil_iff, eq_nil_iff_forall_not_mem]
  intro span hspan
  have hat := mem_map_of_mem (f := fun span => (some Severity.error, span)) hspan
  rw [← sourceProblems_at hlegible] at hat
  obtain ⟨d, hd, heq⟩ := mem_map.mp hat
  exact hnone d hd (Prod.mk.inj heq).1

variable {src : Node} {c : Connection}

theorem resolvable_of_unresolved {step sources} (h : unresolved w known step sources = [])
    (hsrc : src ∈ sources.map (·.node)) :
    Resolvable w known step src := by
  obtain ⟨s, hs, rfl⟩ := mem_map.mp hsrc
  unfold unresolved at h
  have hfilter := filter_eq_nil_iff.mp (map_eq_nil_iff.mp h) s hs
  simpa using hfilter

theorem attached?_eq {s} (hmap : s.value.isMap = true) (hknown : (known.get? s.key).isSome = true) :
    ∃ i, attached? known s = some ⟨s.key, i, listing (partOf s.value "in")⟩ := by
  obtain ⟨i, hi⟩ := Option.isSome_iff_exists.mp hknown
  refine ⟨i, ?_⟩
  unfold attached?
  cases hvalue : s.value with
  | map form fields => simp only [hi, partOf, Node.field?]
  | _ => rw [hvalue] at hmap; cases hmap

theorem resolvable_of_no_stepFaults (hfaults : stepFaults w known = []) {s}
    (hs : s ∈ (listing w.steps).entries) (hmap : s.value.isMap = true)
    (hknown : (known.get? s.key).isSome = true) {e}
    (he : e ∈ (listing (partOf s.value "in")).entries) (hsrc : src ∈ sourceNodes "source" e.value) :
    Resolvable w known (some s.key) src := by
  obtain ⟨i, hattached⟩ := attached?_eq hmap hknown
  have hport := flatMap_eq_nil_iff.mp (flatMap_eq_nil_iff.mp hfaults _
    (mem_filterMap.mpr ⟨s, hs, hattached⟩)) e he
  unfold Attached.faults at hport
  split at hport
  · rename_i hinterface
    refine resolvable_of_unresolved hport ?_
    rw [Attached.sources, if_pos hinterface, nodes_sourcesOf]
    exact hsrc
  · cases hport

theorem resolvable_of_no_faults (hfaults : stepFaults w known = [] ∧ outputFaults w known = [])
    (hsteps : ∀ e ∈ (listing w.steps).entries, e.value.isMap = true ∧ (known.get? e.key).isSome = true) :
    ∀ c ∈ connections w, Resolvable w known c.step c.source := by
  intro c hc
  rcases mem_append.mp hc with hc | hc
  · obtain ⟨s, hs, hc⟩ := mem_flatMap.mp hc
    obtain ⟨e, he, hc⟩ := mem_flatMap.mp hc
    obtain ⟨src, hsrc, rfl⟩ := mem_map.mp hc
    obtain ⟨hmap, hknown⟩ := hsteps s hs
    exact resolvable_of_no_stepFaults hfaults.1 hs hmap hknown he hsrc
  · obtain ⟨e, he, hc⟩ := mem_flatMap.mp hc
    obtain ⟨src, hsrc, rfl⟩ := mem_map.mp hc
    refine resolvable_of_unresolved hfaults.2 ?_
    unfold outputSources
    rw [map_flatMap]
    refine mem_flatMap.mpr ⟨e, he, ?_⟩
    rw [nodes_sourcesOf]
    exact hsrc

theorem Located.listed_ports (h : Located w known) {s} (hs : s ∈ (listing w.steps).entries)
    (hmap : s.value.isMap = true) (hknown : (known.get? s.key).isSome = true) :
    (Listing.of (partOf s.value "in") (.str "id")).2.isOk = true := by
  obtain ⟨i, hattached⟩ := attached?_eq hmap hknown
  have hlisted := (h.ports _ (mem_filterMap.mpr ⟨s, hs, hattached⟩)).1
  rwa [source_listing] at hlisted

/-! ## Edges of accepted connections -/

/-- The edge that is drawn for a connection. -/
def Connection.edge? (c : Connection) : Option (String × Node) :=
  (FlowGraph.origin? c.source).map fun s => (s, c.target)

/-- What is drawn does not depend on how a missing part is read. -/
theorem entries_partOf (n name) :
    (listing ((n.field? name).getD (.map .plain []))).entries = (listing (partOf n name)).entries := by
  unfold partOf
  cases n.field? name <;> rfl

theorem stepEdges_eq (w : Workflow) : FlowGraph.stepEdges (listing w.steps).entries =
    (stepConnections w).filterMap Connection.edge? := by
  unfold FlowGraph.stepEdges stepConnections FlowGraph.part
  rw [filterMap_flatMap]
  refine congrArg (List.flatMap · _) (funext fun s => ?_)
  rw [entries_partOf, map_flatMap, filterMap_flatMap]
  refine congrArg (List.flatMap · _) (funext fun p => ?_)
  rw [FlowGraph.sources_eq_origins, map_filterMap, filterMap_map]
  rfl

theorem outputEdges_eq (w : Workflow) : FlowGraph.outputEdges (listing w.outputs).entries =
    (outputConnections w).filterMap Connection.edge? := by
  unfold FlowGraph.outputEdges outputConnections
  rw [filterMap_flatMap]
  refine congrArg (List.flatMap · _) (funext fun e => ?_)
  rw [FlowGraph.sources_eq_origins, map_filterMap, filterMap_map]
  rfl

theorem listable_part (n : Node) (name : String) :
    Listing.listable (FlowGraph.part n name) = (Listing.of (partOf n name) (.str "id")).2.isOk := by
  rw [Listing.isOk_of]
  unfold FlowGraph.part partOf
  cases n.field? name <;> rfl

theorem partDrawable_iff {name} (h : (Listing.of (partOf n name) (.str "id")).2.isOk = true) :
    FlowGraph.PartDrawable (FlowGraph.part n name) ↔
      FlowGraph.Placed (listing (partOf n name)) (listing (partOf n name)).entries := by
  have hlisted := (listable_part n name).trans h
  unfold partOf FlowGraph.part at *
  generalize n.field? name = part? at *
  cases part? with
  | none => exact ⟨fun _ _ he => absurd he not_mem_nil, fun _ => ⟨rfl, fun _ he => absurd he not_mem_nil⟩⟩
  | some p =>
    obtain ⟨l, hl⟩ := exists_of_isOk h
    have hplaced : FlowGraph.Placed l l.entries ↔ ∀ e ∈ l.entries, (l.start? e).isSome = true :=
      forall₂_congr fun e _ => by rw [FlowGraph.isSome_start? hl]
    rw [Option.getD_some, listing_eq hl, hplaced, ← listing_eq hl]
    exact ⟨fun hpart => hpart.placed, fun hplaced => ⟨hlisted, hplaced⟩⟩

/-- The name that an accepted source is cut to is that of an input or of a known step. -/
theorem draws_of_resolvable (hsource : c.source.isName s = true)
    (hinputs : ∀ s, w.inputNames.contains (.str s) = true → '/' ∉ s.toList)
    (hknown : ∀ t, (known.get? (.str t)).isSome = true → '/' ∉ t.toList)
    (h : Resolvable w known c.step c.source) : Draws w known c ((Text.parts '/' s).headD "", c.target) := by
  refine ⟨rfl, ?_⟩
  obtain ⟨styled, hstyled⟩ := Node.isName_iff.mp hsource
  rcases h with hinput | ⟨s', hs', t, p, i, rfl, hother, hi, hp⟩
  · have hnone : '/' ∉ s.toList := by
      refine hinputs s ?_
      rw [hstyled] at hinput
      simpa [NameSet.contains] using hinput
    rw [Text.parts_of_not_mem hnone]
    exact .inl ⟨hsource, hinput⟩
  · rw [hstyled, Node.text?, Option.some.injEq] at hs'
    subst hs'
    have hnone : '/' ∉ t.toList := hknown t (by rw [hi]; rfl)
    rw [slash_eq, Text.parts_append, Text.parts_of_not_mem hnone]
    exact .inr ⟨p, i, hsource, hother, hi, hp⟩

theorem exists_input {inputs outputs steps} (hw : Workflow.of inputs outputs steps = .ok w)
    (hlisted : (Listing.of w.inputs (.str "id")).2.isOk = true)
    (h : w.inputNames.contains (.str s) = true) :
    ∃ e ∈ (listing w.inputs).entries, e.key.isName s = true := by
  obtain ⟨hinputs, es, hes, hnames⟩ := inputNames_of hw
  rw [hinputs] at hlisted ⊢
  obtain ⟨l, hl⟩ := exists_of_isOk hlisted
  obtain ⟨k, hk, hsame⟩ := (NameSet.contains_ofList _ _).mp (hnames ▸ h)
  rw [← Listing.keys_of_asMap hes hl] at hk
  obtain ⟨e, he, rfl⟩ := mem_map.mp hk
  rw [listing_eq hl]
  exact ⟨e, he, by simpa using hsame⟩

theorem exists_step (hkeyed : ∀ s ∈ known, ∃ e ∈ (listing w.steps).entries, e.key.same s.1 = true)
    {t} (h : (known.get? (.str t)).isSome = true) :
    ∃ e ∈ (listing w.steps).entries, e.key.isName t = true := by
  unfold Steps.get? at h
  rw [Option.isSome_map, List.find?_isSome] at h
  obtain ⟨s, hs, hname⟩ := h
  obtain ⟨styled, hstyled⟩ := Node.isName_iff.mp (Node.same_text s.1 t false ▸ hname)
  obtain ⟨e, he, hsame⟩ := hkeyed s hs
  rw [hstyled, Node.same_text] at hsame
  exact ⟨e, he, hsame⟩

theorem filterMap_edge? {cs} (htexts : ∀ c ∈ cs, c.source.isText = true)
    {P : Connection → String × Node → Prop}
    (h : ∀ c ∈ cs, ∀ s, c.source.isName s = true → P c ((Text.parts '/' s).headD "", c.target)) :
    List.Forall₂ P cs (cs.filterMap Connection.edge?) := by
  induction cs with
  | nil => exact .nil
  | cons c rest ih =>
    obtain ⟨htext, hrest⟩ := forall_mem_cons.mp htexts
    obtain ⟨s, styled, hsource⟩ := Node.isText_iff.mp htext
    have hedge : c.edge? = some ((Text.parts '/' s).headD "", c.target) := by
      rw [Connection.edge?, hsource]
      rfl
    rw [filterMap_cons_some hedge]
    refine .cons (h c (by simp) s ?_) (ih hrest fun c hc => h c (mem_cons_of_mem _ hc))
    rw [hsource]
    simp [Node.isName]

theorem target_mem (hc : c ∈ connections w) : c.target ∈
    ((listing w.inputs).entries ++ (listing w.steps).entries ++ (listing w.outputs).entries).map (·.key) := by
  rw [map_append, map_append]
  rcases mem_append.mp hc with hc | hc
  · obtain ⟨s, hs, hc⟩ := mem_flatMap.mp hc
    obtain ⟨e, he, hc⟩ := mem_flatMap.mp hc
    obtain ⟨src, hsrc, rfl⟩ := mem_map.mp hc
    exact mem_append_left _ (mem_append_right _ (mem_map_of_mem hs))
  · obtain ⟨e, he, hc⟩ := mem_flatMap.mp hc
    obtain ⟨src, hsrc, rfl⟩ := mem_map.mp hc
    exact mem_append_right _ (mem_map_of_mem he)

theorem Draws.joins {edge} (h : Draws w known c edge) (hc : c ∈ connections w)
    (hinput : ∀ s, w.inputNames.contains (.str s) = true → ∃ e ∈ (listing w.inputs).entries, e.key.isName s = true)
    (hstep : ∀ t, (known.get? (.str t)).isSome = true → ∃ e ∈ (listing w.steps).entries, e.key.isName t = true)
    {g : FlowGraph}
    (hnodes : g.nodes.map (·.id) =
      ((listing w.inputs).entries ++ (listing w.steps).entries ++ (listing w.outputs).entries).map (·.key)) :
    (∃ v ∈ g.nodes, v.id.isName edge.1 = true) ∧ ∃ v ∈ g.nodes, v.id = edge.2 := by
  have hnode : ∀ {e : ListingEntry}, e ∈ (listing w.inputs).entries ++ (listing w.steps).entries ++
      (listing w.outputs).entries → ∃ v ∈ g.nodes, v.id = e.key := by
    intro e he
    exact mem_map.mp (hnodes ▸ mem_map_of_mem he)
  constructor
  · rcases h.source with ⟨hname, hcontains⟩ | ⟨p, i, _, _, hi, _⟩
    · obtain ⟨styled, hstyled⟩ := Node.isName_iff.mp hname
      obtain ⟨e, he, hkey⟩ := hinput edge.1 (by
        rw [hstyled] at hcontains
        simpa [NameSet.contains] using hcontains)
      obtain ⟨v, hv, hid⟩ := hnode (mem_append_left _ (mem_append_left _ he))
      exact ⟨v, hv, hid ▸ hkey⟩
    · obtain ⟨e, he, hkey⟩ := hstep edge.1 (by rw [hi]; rfl)
      obtain ⟨v, hv, hid⟩ := hnode (mem_append_left _ (mem_append_right _ he))
      exact ⟨v, hv, hid ▸ hkey⟩
  · obtain ⟨e, he, hkey⟩ := mem_map.mp (target_mem hc)
    rw [h.target, ← hkey]
    exact hnode he

/-- A check that comes to its end leaves nothing in the way of a graph but places. -/
theorem graph_givesIf (hmap : n.isMap = true) (hw : ofProcess n = .ok w) (hlocated : Located w known)
    (hattached : ∀ e ∈ (listing w.steps).entries, e.value.isMap = true ∧ (known.get? e.key).isSome = true) :
    GivesIf (FlowGraph.Placed (listing w.inputs) (listing w.inputs).entries ∧
        FlowGraph.Placed (listing w.steps) (listing w.steps).entries)
      (fun g => g.nodes.map (·.id) = ((listing w.inputs).entries ++ (listing w.steps).entries ++
          (listing w.outputs).entries).map (·.key) ∧ g.edges = (connections w).filterMap Connection.edge?)
      (FlowGraph.of n) := by
  obtain ⟨hiff, hgives⟩ := FlowGraph.of_shows hmap
  have hstepEdges := stepEdges_eq w
  have houtputEdges := outputEdges_eq w
  obtain ⟨_, _, rfl⟩ := eq_of_ofProcess hw
  refine ⟨hiff.trans ⟨fun h => ?_, fun h => ⟨?_, fun s hs => ?_⟩⟩, fun g hg => ?_⟩
  · exact ⟨(partDrawable_iff hlocated.inputs).mp (h.parts _ (by simp [FlowGraph.parts])),
      (partDrawable_iff hlocated.steps).mp (h.parts _ (by simp [FlowGraph.parts]))⟩
  · simp only [FlowGraph.parts, forall_mem_cons]
    exact ⟨(partDrawable_iff hlocated.inputs).mpr h.1, (partDrawable_iff hlocated.steps).mpr h.2,
      (partDrawable_iff hlocated.outputs).mpr fun e he => (hlocated.sources e he).1, forall_mem_nil _⟩
  · rw [FlowGraph.part, entries_partOf] at hs
    obtain ⟨hmap, hknown⟩ := hattached s hs
    exact ⟨hmap, (listable_part _ _).trans (hlocated.listed_ports hs hmap hknown)⟩
  · obtain ⟨hnodes, _, hedges⟩ := hgives g hg
    simp only [FlowGraph.part, entries_partOf] at hnodes hedges
    rw [connections, filterMap_append, ← hstepEdges, ← houtputEdges]
    exact ⟨by simpa [FlowGraph.parts] using hnodes, hedges⟩

end

/-- If the check of a workflow comes to its end without an error, every step is known and all
sources are texts, then there is a graph exactly if all inputs and steps have their places; its
edges are the connections, each from what its source names, and they lead from nodes to nodes. -/
theorem edges_of_accepted {n : Node} {w : Workflow} {known : Steps} {problems : List Diagnostic}
    (hmap : n.isMap = true) (hw : ofProcess n = .ok w)
    (hinputs : SlashFree (listing w.inputs)) (hsteps : SlashFree (listing w.steps))
    (hkeyed : ∀ s ∈ known, ∃ e ∈ (listing w.steps).entries, e.key.same s.1 = true)
    (hattached : ∀ e ∈ (listing w.steps).entries,
      e.value.isMap = true ∧ (known.get? e.key).isSome = true)
    (htexts : ∀ c ∈ connections w, c.source.isText = true)
    (hcheck : w.connectionProblems known = (problems, .ok ()))
    (hnone : ∀ d ∈ problems, d.severity ≠ some .error) :
    ((∃ g, FlowGraph.of n = .ok g) ↔
      FlowGraph.Placed (listing w.inputs) (listing w.inputs).entries ∧
      FlowGraph.Placed (listing w.steps) (listing w.steps).entries) ∧
    ∀ g, FlowGraph.of n = .ok g →
      List.Forall₂ (Draws w known) (connections w) g.edges ∧
      ∀ edge ∈ g.edges, (∃ v ∈ g.nodes, v.id.isName edge.1 = true) ∧ ∃ v ∈ g.nodes, v.id = edge.2 := by
  obtain ⟨hlocated, _, hlegible, rfl⟩ := connectionProblems_iff.mp hcheck
  have hfaults := no_faults hlegible fun d hd => hnone d (List.mem_append_left _ hd)
  have hresolvable := resolvable_of_no_faults hfaults hattached
  have hinput : ∀ s, w.inputNames.contains (.str s) = true →
      ∃ e ∈ (listing w.inputs).entries, e.key.isName s = true := fun s => exists_input hw hlocated.inputs
  have hstep : ∀ t, (known.get? (.str t)).isSome = true →
      ∃ e ∈ (listing w.steps).entries, e.key.isName t = true := fun t => exists_step hkeyed
  have hdraws : ∀ c ∈ connections w, ∀ s, c.source.isName s = true →
      Draws w known c ((Text.parts '/' s).headD "", c.target) := by
    intro c hc s hs
    exact draws_of_resolvable hs (fun s hs => hinputs.not_mem (hinput s hs))
      (fun t ht => hsteps.not_mem (hstep t ht)) (hresolvable c hc)
  obtain ⟨hiff, hgives⟩ := graph_givesIf hmap hw hlocated hattached
  refine ⟨?_, fun g hg => ?_⟩
  · rw [← hiff]
    cases FlowGraph.of n <;> simp [Except.isOk, Except.toBool]
  · obtain ⟨hnodes, hedges⟩ := hgives g hg
    rw [hedges]
    refine ⟨filterMap_edge? htexts hdraws, fun edge hedge => ?_⟩
    obtain ⟨c, hc, hedge⟩ := List.mem_filterMap.mp hedge
    obtain ⟨s, styled, hsource⟩ := Node.isText_iff.mp (htexts c hc)
    rw [Connection.edge?, hsource] at hedge
    cases hedge
    refine (hdraws c hc s ?_).joins hc hinput hstep hnodes
    rw [hsource]
    simp [Node.isName]

/-- Two steps in a row that a workflow with these inputs takes. -/
def chainSample (inputs : Node) : Node := .placedMap [
  ("inputs", inputs),
  ("outputs", .placedMap [("bam", .str "sort/bam")]),
  ("steps", .placedMap [
    ("align", .placedMap [("in", .placedMap [("reads", .str "reads")])]),
    ("sort", .placedMap [("in", .placedList [.placedMap [("id", .str "bam"),
      ("source", .placedList [.str "align/bam", .null])]])])])]

/-- Inputs the first of which is merged in. -/
def mergedInputs : Node := .map .placed [
  (.str "reads", none, .null), (.str "spare", some (⟨0, 0⟩, ⟨0, 0⟩), .null)]

def chainWorkflow (inputs : Node) : Workflow :=
  ⟨inputs, partOf (chainSample inputs) "outputs", partOf (chainSample inputs) "steps",
    ⟨[.str "reads", .str "spare"]⟩, ⟨[.str "bam"]⟩⟩

/-- A chain is drawn if its inputs have their places, and is not if one of them is merged in. -/
theorem edges_of_accepted_sample :
    (∃ g, FlowGraph.of (chainSample sampleInputs) = .ok g ∧
      List.Forall₂ (Draws (chainWorkflow sampleInputs) sampleKnown)
        (connections (chainWorkflow sampleInputs)) g.edges ∧
      (connections (chainWorkflow sampleInputs)).length = 3) ∧
    ¬∃ g, FlowGraph.of (chainSample mergedInputs) = .ok g := by
  constructor
  · obtain ⟨hiff, hedges⟩ := @edges_of_accepted (chainSample sampleInputs) (chainWorkflow sampleInputs)
      sampleKnown _ rfl (by with_unfolding_all rfl) (by decide +kernel) (by decide +kernel)
      (by decide +kernel) (by decide +kernel) (by decide +kernel) (by with_unfolding_all rfl)
      (by decide +kernel)
    obtain ⟨g, hg⟩ := hiff.mpr (by decide +kernel)
    exact ⟨g, hg, (hedges g hg).1, by decide +kernel⟩
  · obtain ⟨hiff, _⟩ := @edges_of_accepted (chainSample mergedInputs) (chainWorkflow mergedInputs)
      sampleKnown _ rfl (by with_unfolding_all rfl) (by decide +kernel) (by decide +kernel)
      (by decide +kernel) (by decide +kernel) (by decide +kernel) (by with_unfolding_all rfl)
      (by decide +kernel)
    rw [hiff]
    decide +kernel

end Workflow
end CwlService
