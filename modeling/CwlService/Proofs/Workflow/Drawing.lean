import CwlService.Proofs.Node.Listed
import CwlService.Proofs.Workflow.Connections
import CwlService.Workflow.Graph

/-! # What a graph shows

Inputs, steps and outputs are drawn as nodes of one graph, though each of the three has names of
its own. A workflow has a graph if its parts and the ports of its steps can be listed, everything
in them has its place, and each step is a map; a step that is still empty has none. The table of
lines has every id once. A name that is used in two parts makes two nodes and leaves one line,
that of the last of them. -/
namespace CwlService

open List
namespace FlowGraph

open Node (Distinct UniqueKeys AllMaps)
open Workflow (listing)

/-! ## The table of lines -/

/-- The line of an id. -/
def line? (lines : List (Node × Int)) (id : Node) : Option Int :=
  (lines.find? fun l => l.1.same id).map (·.2)

/-! ## What there is to draw -/

variable (n : Node) (es : List ListingEntry)

/-- A part of a workflow, which is empty if it is missing. -/
def part (name : String) : Node := (n.field? name).getD (.map .plain [])

/-- The entries of a listing, each with the line where its value starts. -/
def starts (l : Listing) : List (Node × Int) :=
  l.entries.filterMap fun e => (l.start? e).map fun p => (e.key, p.line)

/-- The edges into steps. -/
def stepEdges : List (String × Node) :=
  es.flatMap fun e => ((listing (part e.value "in")).entries.flatMap fun p =>
    sources "source" p.value).map fun s => (s, e.key)

/-- The edges into outputs. -/
def outputEdges : List (String × Node) :=
  es.flatMap fun e => (sources "outputSource" e.value).map fun s => (s, e.key)

def parts : List String := ["inputs", "steps", "outputs"]

/-- The ids of a workflow in the order of its parts, each with the line where its value starts. -/
def shown : List (Node × Int) := parts.flatMap fun name => starts (listing (part n name))

/-- A part that can be listed, and in which everything has its place. -/
structure PartDrawable (p : Node) : Prop where
  listed : Listing.listable p = true
  placed : ∀ e ∈ (listing p).entries, ((listing p).start? e).isSome = true

instance (p : Node) : Decidable (PartDrawable p) :=
  decidable_of_iff (Listing.listable p = true ∧
      ∀ e ∈ (listing p).entries, ((listing p).start? e).isSome = true)
    ⟨fun h => ⟨h.1, h.2⟩, fun h => ⟨h.listed, h.placed⟩⟩

/-- A workflow that can be drawn: its parts can be, and each step is a map with ports that can
be listed. -/
structure Drawable (n : Node) : Prop where
  parts : ∀ name ∈ parts, PartDrawable (part n name)
  steps : ∀ s ∈ (listing (part n "steps")).entries,
    s.value.isMap = true ∧ Listing.listable (part s.value "in") = true

instance : Decidable (Drawable n) :=
  decidable_of_iff ((∀ name ∈ parts, PartDrawable (part n name)) ∧
      ∀ s ∈ (listing (part n "steps")).entries,
        s.value.isMap = true ∧ Listing.listable (part s.value "in") = true)
    ⟨fun h => ⟨h.1, h.2⟩, fun h => ⟨h.parts, h.steps⟩⟩

/-- No name is used in two parts. -/
def Apart : Prop := parts.Pairwise fun a b =>
  ∀ e ∈ (listing (part n a)).entries, ∀ f ∈ (listing (part n b)).entries, e.key.same f.key = false

instance : Decidable (Apart n) :=
  inferInstanceAs (Decidable (parts.Pairwise fun a b =>
    ∀ e ∈ (listing (part n a)).entries, ∀ f ∈ (listing (part n b)).entries, e.key.same f.key = false))

theorem map_starts {l} (h : ∀ e ∈ l.entries, (l.start? e).isSome = true) :
    (starts l).map (·.1) = l.entries.map (·.key) := by
  rw [starts, map_filterMap, ← filterMap_eq_map]
  refine filterMap_congr fun e he => ?_
  obtain ⟨p, hp⟩ := Option.isSome_iff_exists.mp (h e he)
  rw [hp]
  rfl

/-! ## What is drawn -/

theorem of_givesIf_listable (p) :
    GivesIf (Listing.listable p = true) (fun l => (Listing.of p (.str "id")).2 = .ok l ∧ l = listing p)
      (Listing.of p (.str "id")).2 :=
  ⟨by rw [Listing.isOk_of], fun _ hl => ⟨hl, (Workflow.listing_eq hl).symm⟩⟩

theorem isSome_start? {p keyField l} (hl : (Listing.of p keyField).2 = .ok l) (e : ListingEntry) :
    (l.start? e).isSome = (l.valueSpan e).isOk := by
  rw [← Listing.start_valueSpan hl e, Option.isSome_map]
  cases l.valueSpan e <;> rfl

/-- A group is added exactly if all of its entries have their places; each makes one node and sets
the line of its id. -/
theorem addGroup_shows {p keyField l} (hl : (Listing.of p keyField).2 = .ok l) (group) : ∀ es g,
    GivesIf (∀ e ∈ es, (l.start? e).isSome = true)
      (fun g' => g'.nodes.map (·.id) = g.nodes.map (·.id) ++ es.map (·.key) ∧
        g'.lines = Table.setAll g.lines (es.filterMap fun e => (l.start? e).map fun p => (e.key, p.line)) ∧
        g'.edges = g.edges)
      (addGroup group l es g)
  | [], g => by
    have hnone : (∀ e ∈ ([] : List ListingEntry), (l.start? e).isSome = true) ↔ True := by simp
    rw [hnone]
    exact .pure ⟨by simp, rfl, rfl⟩
  | e :: rest, g => by
    have hspan : GivesIf ((l.start? e).isSome = true) (fun span => l.start? e = some span.start)
        (l.valueSpan e) := by
      refine ⟨by rw [isSome_start? hl], fun span hspan => ?_⟩
      rw [← Listing.start_valueSpan hl, hspan]
      rfl
    rw [forall_mem_cons]
    refine hspan.bind fun span hspan => ?_
    obtain ⟨hiff, hgives⟩ := addGroup_shows hl group rest _
    refine ⟨hiff, fun g' h => ?_⟩
    obtain ⟨hnodes, hlines, hedges⟩ := hgives g' h
    refine ⟨by rw [hnodes]; simp, ?_, hedges⟩
    rw [hlines, filterMap_cons, hspan]
    rfl

/-- Steps are drawn exactly if they are maps with ports that can be listed. -/
theorem addSteps_shows : ∀ es g,
    GivesIf (∀ s ∈ es, s.value.isMap = true ∧ Listing.listable (part s.value "in") = true)
      (fun g' => g' = { g with edges := g.edges ++ stepEdges es }) (addSteps es g)
  | [], g => by
    have hnone : (∀ s ∈ ([] : List ListingEntry),
        s.value.isMap = true ∧ Listing.listable (part s.value "in") = true) ↔ True := by simp
    rw [hnone]
    exact .pure (by simp [stepEdges])
  | s :: rest, g => by
    rw [forall_mem_cons]
    unfold addSteps
    cases hvalue : s.value with
    | map form es =>
      have hmap : (Node.map form es).isMap = true := rfl
      rw [hmap, eq_self_iff_true, true_and]
      refine (of_givesIf_listable (part (.map form es) "in")).bind fun ports ⟨_, hports⟩ => ?_
      obtain ⟨hiff, hgives⟩ := addSteps_shows rest (g.addEdges s.key _)
      refine ⟨hiff, fun g' h => (hgives g' h).trans ?_⟩
      simp [addEdges, stepEdges, hvalue, hports]
    | _ => exact ⟨⟨nofun, fun h => nomatch h.1.1⟩, nofun⟩

theorem foldl_addEdges_eq (g : FlowGraph) :
    es.foldl (fun g e => g.addEdges e.key (sources "outputSource" e.value)) g =
      { g with edges := g.edges ++ outputEdges es } := by
  induction es generalizing g with
  | nil => simp [outputEdges]
  | cons e rest ih =>
    rw [foldl_cons, ih, outputEdges, outputEdges, flatMap_cons]
    simp [addEdges]

/-- There is a graph exactly if the workflow can be drawn. Its nodes are the entries of the three
parts, their lines have been set in that order, and its edges are those of the steps and then those
of the outputs. -/
theorem of_shows {n} (hmap : n.isMap = true) : GivesIf (Drawable n)
      (fun g => g.nodes.map (·.id) = parts.flatMap (fun name => (listing (part n name)).entries.map (·.key)) ∧
        g.lines = Table.setAll [] (shown n) ∧
        g.edges = stepEdges (listing (part n "steps")).entries ++ outputEdges (listing (part n "outputs")).entries)
      (FlowGraph.of n) := by
  have hconditions : Drawable n ↔
      Listing.listable (part n "inputs") = true ∧
      (∀ e ∈ (listing (part n "inputs")).entries, ((listing (part n "inputs")).start? e).isSome = true) ∧
      Listing.listable (part n "steps") = true ∧
      (∀ e ∈ (listing (part n "steps")).entries, ((listing (part n "steps")).start? e).isSome = true) ∧
      Listing.listable (part n "outputs") = true ∧
      (∀ e ∈ (listing (part n "outputs")).entries, ((listing (part n "outputs")).start? e).isSome = true) ∧
      (∀ s ∈ (listing (part n "steps")).entries,
        s.value.isMap = true ∧ Listing.listable (part s.value "in") = true) ∧ True := by
    constructor
    · rintro ⟨hparts, hsteps⟩
      simp only [parts, forall_mem_cons] at hparts
      obtain ⟨hinputs, hst, houtputs, _⟩ := hparts
      exact ⟨hinputs.1, hinputs.2, hst.1, hst.2, houtputs.1, houtputs.2, hsteps, trivial⟩
    · rintro ⟨hinputs, hinputs', hst, hst', houtputs, houtputs', hsteps, _⟩
      refine ⟨?_, hsteps⟩
      simp only [parts, forall_mem_cons]
      exact ⟨⟨hinputs, hinputs'⟩, ⟨hst, hst'⟩, ⟨houtputs, houtputs'⟩, by simp⟩
  rw [hconditions]
  unfold FlowGraph.of
  simp only [hmap, foldl_addEdges_eq]
  refine (of_givesIf_listable _).bind ?_
  rintro inputs ⟨hinputs, rfl⟩
  refine (addGroup_shows hinputs _ _ _).bind ?_
  rintro g₁ ⟨hnodes₁, hlines₁, hedges₁⟩
  refine (of_givesIf_listable _).bind ?_
  rintro steps ⟨hsteps, rfl⟩
  refine (addGroup_shows hsteps _ _ _).bind ?_
  rintro g₂ ⟨hnodes₂, hlines₂, hedges₂⟩
  refine (of_givesIf_listable _).bind ?_
  rintro outputs ⟨houtputs, rfl⟩
  refine (addGroup_shows houtputs _ _ _).bind ?_
  rintro g₃ ⟨hnodes₃, hlines₃, hedges₃⟩
  refine (addSteps_shows _ _).bind ?_
  rintro g₄ rfl
  refine .pure ⟨?_, ?_, ?_⟩
  · have hnone : (default : FlowGraph).nodes = [] := rfl
    simp [hnodes₃, hnodes₂, hnodes₁, hnone, parts]
  · have hnone : (default : FlowGraph).lines = [] := rfl
    simp [hlines₃, hlines₂, hlines₁, hnone, parts, shown, Table.setAll, starts]
  · rw [hedges₃, hedges₂, hedges₁]
    rfl

theorem uniqueKeys_part {n} (hkeys : AllMaps UniqueKeys n) {name form} {es : Node.Entries}
    (h : part n name = .map form es) : UniqueKeys es := by
  unfold part at h
  cases hfield : n.field? name with
  | none =>
    rw [hfield] at h
    cases h
    exact List.Pairwise.nil
  | some p =>
    rw [hfield] at h
    have hp := hkeys.field? hfield
    rw [show p = .map form es from h] at hp
    exact hp.1

/-- The ids are different exactly if they are so from part to part. -/
theorem distinct_shown_iff {n} (h : Drawable n) (hkeys : AllMaps UniqueKeys n) :
    Distinct (parts.flatMap fun name => (listing (part n name)).entries.map (·.key)) ↔ Apart n := by
  have hlisted : ∀ name ∈ parts, Distinct ((listing (part n name)).entries.map (·.key)) := by
    intro name hname
    obtain ⟨l, hl⟩ := exists_of_isOk ((Listing.isOk_of _).trans (h.parts name hname).listed)
    rw [Workflow.listing_eq hl]
    exact Listing.distinct_keys hl fun form es hes => uniqueKeys_part hkeys hes
  rw [Distinct, pairwise_flatMap, Apart]
  refine (and_iff_right hlisted).trans ?_
  simp only [forall_mem_map]

theorem map_shown {n} (h : Drawable n) :
    (shown n).map (·.1) = parts.flatMap fun name => (listing (part n name)).entries.map (·.key) := by
  rw [shown, map_flatMap]
  refine flatMap_congr fun name hname => ?_
  exact map_starts (h.parts name hname).placed

/-- A workflow has a graph exactly if it can be drawn. The nodes of its graph are the entries of
its parts. The table of lines has every id once, with the line where the last value of that id
starts. No two nodes have the same id, and each has a line of its own, exactly if no name is used
in two parts. -/
theorem nodes_and_lines {n : Node} (hmap : n.isMap = true) (hkeys : AllMaps UniqueKeys n) :
    ((∃ g, FlowGraph.of n = .ok g) ↔ Drawable n) ∧
    ∀ g, FlowGraph.of n = .ok g →
      g.nodes.map (·.id) = (shown n).map (·.1) ∧
      Distinct (g.lines.map (·.1)) ∧
      (∀ id, line? g.lines id = line? (shown n).reverse id) ∧
      (Distinct (g.nodes.map (·.id)) ↔ Apart n) ∧
      (g.lines = shown n ↔ Apart n) := by
  obtain ⟨hiff, hgives⟩ := of_shows hmap
  have hexists : (∃ g, FlowGraph.of n = .ok g) ↔ Drawable n := by
    rw [← hiff]
    exact ⟨fun ⟨g, hg⟩ => by rw [hg]; rfl, exists_of_isOk⟩
  refine ⟨hexists, fun g hg => ?_⟩
  obtain ⟨hnodes, hlines, _⟩ := hgives g hg
  have hdrawable := hexists.mp ⟨g, hg⟩
  have hnil : Distinct (([] : List (Node × Int)).map (·.1)) := List.Pairwise.nil
  have hdistinct : Distinct (g.lines.map (·.1)) := hlines ▸ Table.distinct_setAll (shown n) hnil
  have hapart := distinct_shown_iff hdrawable hkeys
  rw [← map_shown hdrawable] at hnodes hapart
  refine ⟨hnodes, hdistinct, fun id => ?_, by rw [hnodes, hapart], ?_, ?_⟩
  · rw [hlines]
    exact (Table.get?_setAll id (shown n) []).trans Option.or_none
  · intro heq
    rw [← hapart, ← heq]
    exact hdistinct
  · intro h
    rw [hlines, Table.setAll_of_distinct (shown n) [] (by rwa [List.nil_append, hapart])]
    rfl

/-- A workflow with an input and these steps and outputs. -/
def partsSample (steps outputs : Node) : Node := .map .placed [
  (.str "inputs", some (⟨0, 0⟩, ⟨0, 8⟩), .map .placed [(.str "reads", some (⟨0, 9⟩, ⟨0, 16⟩), .str "File")]),
  (.str "steps", some (⟨1, 0⟩, ⟨1, 7⟩), steps),
  (.str "outputs", some (⟨2, 0⟩, ⟨3, 2⟩), outputs)]

/-- Steps the first of which is still empty. -/
def emptyStep : Node := .map .placed [(.str "sort", some (⟨1, 7⟩, ⟨1, 13⟩), .null)]

/-- An output that has the name of the input, and one that has a name of its own. -/
def sharedName : Node := .map .placed [
  (.str "reads", some (⟨3, 2⟩, ⟨3, 9⟩), .str "sort/bam"), (.str "log", some (⟨4, 2⟩, ⟨4, 7⟩), .str "sort/log")]

/-- A name that an input and an output share has two nodes and the line of the output; a step that
is still empty leaves the workflow without a graph. -/
theorem nodes_and_lines_sample :
    (∃ g, FlowGraph.of (partsSample (.placedList []) sharedName) = .ok g ∧
      g.nodes.map (·.id) = [.str "reads", .str "reads", .str "log"] ∧
      ¬Distinct (g.nodes.map (·.id)) ∧ line? g.lines (.str "reads") = some 3) ∧
    ¬∃ g, FlowGraph.of (partsSample emptyStep sharedName) = .ok g := by
  constructor
  · obtain ⟨hiff, hgraph⟩ := @nodes_and_lines (partsSample (.placedList []) sharedName) rfl (by decide +kernel)
    obtain ⟨g, hg⟩ := hiff.mpr (by decide +kernel)
    obtain ⟨hnodes, _, hlines, hapart, _⟩ := hgraph g hg
    refine ⟨g, hg, ?_, ?_, ?_⟩
    · rw [hnodes]
      with_unfolding_all rfl
    · rw [hapart]
      decide +kernel
    · rw [hlines]
      decide +kernel
  · rw [(@nodes_and_lines (partsSample emptyStep sharedName) rfl (by decide +kernel)).1]
    decide +kernel

end FlowGraph
end CwlService
