import CwlService.Proofs.Node.Relisted
import CwlService.Proofs.Workflow.Connections

/-! # What the problems of connections say

The problems of the connections of a workflow, message by message, said without going through
it. They do not depend on the order of entries in the workflow: only on what stands under
each name, and on which interfaces are known. -/
namespace CwlService.Workflow

open List

variable {w : Workflow} {known : Steps} {n n' : Node} {e e' : ListingEntry} {s s' : Attached}

theorem connectionErrors_of_ends {inputs outputs steps problems}
    (hw : Workflow.of inputs outputs steps = .ok w)
    (h : w.connectionProblems known = (problems, .ok ())) :
    problems = connectionErrors w known := by
  obtain ⟨hlocated, _, _, hproblems⟩ := connectionProblems_iff.mp h
  rw [leftOver_eq hw hlocated.inputs] at hproblems
  exact hproblems

/-! ## Reordered workflows -/

open Node (AllMaps TextKeys)

/-- A source, and the same one reordered. -/
structure SourceReordered (s s' : Source) : Prop where
  node : Node.Reordered s.node s'.node
  span : s.span = s'.span

theorem itemSources_reordered {list list'}
    (hspan : ∀ index, list.itemSpan index = list'.itemSpan index) :
    ∀ {items items' : Node.Items}, Node.ItemsReordered items items' → ∀ first : Nat,
      List.Forall₂ SourceReordered (itemSources list items first) (itemSources list' items' first)
  | [], _, rfl, first => .nil
  | (place, n) :: rest, _, ⟨n', rest', rfl, hn, hrest⟩, first => by
    rw [itemSources_cons, itemSources_cons, hn.isNull_eq, hspan]
    refine rel_append ?_ (itemSources_reordered hspan hrest (first + 1))
    split
    · exact .nil
    · exact .cons ⟨hn, rfl⟩ .nil

theorem writtenSources_reordered {src src'} (h : Node.Reordered src src') (span : Option Span) :
    List.Forall₂ SourceReordered (writtenSources src span) (writtenSources src' span) := by
  cases src with
  | seq form items =>
    obtain ⟨items', rfl, hitems⟩ := h.seq_left
    exact itemSources_reordered (hitems.itemSpan_eq form) hitems 0
  | map form es =>
    obtain ⟨es', rfl, _⟩ := h.map_left
    exact .nil
  | text s styled =>
    cases h
    exact .cons ⟨rfl, rfl⟩ .nil
  | _ =>
    cases h
    exact .nil

theorem sourcesOf_reordered {port port'} (h : Node.Reordered port port')
    (hkeys : AllMaps TextKeys port) (field : String) (span : Option Span) :
    List.Forall₂ SourceReordered (sourcesOf field port span) (sourcesOf field port' span) := by
  cases port with
  | map form es =>
    obtain ⟨es', rfl, hes⟩ := h.map_left
    have hfield := hes.field?_rel hkeys.1 field
    simp only [sourcesOf, hes.valueSpan_eq hkeys.1 form]
    generalize Node.Entries.field? es field = src, Node.Entries.field? es' field = src' at hfield ⊢
    cases hfield with
    | none => exact .nil
    | some hsrc => exact writtenSources_reordered hsrc _
  | seq form items =>
    obtain ⟨items', rfl, _⟩ := h.seq_left
    exact writtenSources_reordered h span
  | _ =>
    have hsources := writtenSources_reordered h span
    cases h
    exact hsources

theorem listing_reordered (h : Node.Reordered n n') (hkeys : AllMaps TextKeys n) :
    (listing n).Reordered (listing n') := by
  obtain ⟨_, hof⟩ := Listing.of_reordered h hkeys (.str "id")
  unfold listing
  generalize (Listing.of n (.str "id")).2 = r, (Listing.of n' (.str "id")).2 = r' at hof ⊢
  cases hof with
  | ok hl => exact hl
  | error f => exact ⟨rfl, .of_forall₂ .nil, .inl .nil⟩

/-- A workflow, and the same one with the entries of its parts in another order. -/
structure Reordered (w w' : Workflow) : Prop where
  inputs : Node.Reordered w.inputs w'.inputs
  outputs : Node.Reordered w.outputs w'.outputs
  steps : Node.Reordered w.steps w'.steps
  inputNames : w.inputNames = w'.inputNames
  inputKeys : AllMaps TextKeys w.inputs
  outputKeys : AllMaps TextKeys w.outputs
  stepKeys : AllMaps TextKeys w.steps

/-- A step, and the same one with its ports in another order. -/
structure AttachedReordered (s s' : Attached) : Prop where
  id : s.id = s'.id
  interface : s.interface = s'.interface
  ports : s.ports.Reordered s'.ports
  keys : ∀ e ∈ s.ports.entries, AllMaps TextKeys e.value

theorem allMaps_of_mem_listing (h : AllMaps TextKeys n) :
    ∀ e ∈ (listing n).entries, AllMaps TextKeys e.value := by
  unfold listing
  cases hof : (Listing.of n (.str "id")).2 with
  | error f => exact fun e he => by cases he
  | ok l => exact Listing.allMaps_of_listed hof h

theorem attached?_reordered {known'} (hknown : ∀ id, known.get? id = known'.get? id)
    {l l' : Listing} (he : l.EntryReordered l' e e') (hkeys : AllMaps TextKeys e.value) :
    Option.Rel AttachedReordered (attached? known e) (attached? known' e') := by
  obtain ⟨_, hkey, hvalue, _, _⟩ := he
  unfold attached?
  rw [hkey, hknown]
  generalize e.value = v, e'.value = v' at hvalue hkeys
  cases v with
  | map form es =>
    obtain ⟨es', rfl, hes⟩ := hvalue.map_left
    cases known'.get? e'.key with
    | none => exact .none
    | some i =>
      refine .some ⟨rfl, rfl, listing_reordered (hes.part hkeys.1 "in") (hkeys.part "in"), ?_⟩
      exact allMaps_of_mem_listing (hkeys.part "in")
  | seq form items =>
    obtain ⟨items', rfl, _⟩ := hvalue.seq_left
    cases known'.get? e'.key <;> exact .none
  | _ =>
    cases hvalue
    cases known'.get? e'.key <;> exact .none

theorem AttachedReordered.sources (hs : AttachedReordered s s') (he : s.ports.EntryReordered s'.ports e e')
    (hkeys : AllMaps TextKeys e.value) : List.Forall₂ SourceReordered (s.sources e) (s'.sources e') := by
  unfold Attached.sources
  rw [hs.interface, he.key, he.valueSpan]
  split
  · exact sourcesOf_reordered he.value hkeys "source" _
  · exact .nil

theorem outputSources_reordered {w'} (h : w.Reordered w')
    (he : (listing w.outputs).EntryReordered (listing w'.outputs) e e')
    (hmem : e ∈ (listing w.outputs).entries) : List.Forall₂ SourceReordered
      (sourcesOf "outputSource" e.value ((listing w.outputs).valueSpan e).toOption)
      (sourcesOf "outputSource" e'.value ((listing w'.outputs).valueSpan e').toOption) := by
  rw [he.valueSpan]
  exact sourcesOf_reordered he.value (allMaps_of_mem_listing h.outputKeys e hmem) "outputSource" _

section

variable {w w' : Workflow} {known known' : Steps} (h : w.Reordered w')
  (hknown : ∀ id, known.get? id = known'.get? id)

include h hknown

theorem sourceErrors_eq (step : Option Node) {s s'} (hs : SourceReordered s s') :
    sourceErrors w known step s = sourceErrors w' known' step s' := by
  unfold sourceErrors
  rw [← hs.node.isKey_eq, hs.span]
  cases hkey : s.node.isKey with
  | false => rfl
  | true =>
    rw [hs.node.eq_of_isKey hkey, h.inputNames]
    simp only [sourceFault?, h.inputNames, hknown]

theorem flatMap_sourceErrors_eq (step) {sources sources'}
    (hsources : List.Forall₂ SourceReordered sources sources') :
    sources.flatMap (sourceErrors w known step) = sources'.flatMap (sourceErrors w' known' step) := by
  induction hsources with
  | nil => rfl
  | cons hs _ ih => rw [flatMap_cons, flatMap_cons, sourceErrors_eq h hknown step hs, ih]

theorem flatMap_attached_perm {γ : Type} {f g : Attached → List γ}
    (hfg : ∀ s s', AttachedReordered s s' → (f s).Perm (g s')) :
    ((attachedSteps w known).flatMap f).Perm ((attachedSteps w' known').flatMap g) := by
  unfold attachedSteps
  rw [filterMap_eq_flatMap_toList, filterMap_eq_flatMap_toList, flatMap_assoc, flatMap_assoc]
  refine (listing_reordered h.steps h.stepKeys).entries.flatMap_perm fun e hmem e' _ he => ?_
  have hattached := attached?_reordered hknown he (allMaps_of_mem_listing h.stepKeys e hmem)
  generalize attached? known e = s, attached? known' e' = s' at hattached ⊢
  cases hattached with
  | none => exact .refl _
  | some hs => simpa using hfg _ _ hs

theorem errors_eq (hs : AttachedReordered s s') (he : s.ports.EntryReordered s'.ports e e')
    (hkeys : AllMaps TextKeys e.value) : s.errors w known e = s'.errors w' known' e' := by
  unfold Attached.errors
  rw [flatMap_sourceErrors_eq h hknown _ (hs.sources he hkeys), hs.id, hs.interface, he.key, he.idSpan]

theorem visited_any_eq {k : Node} (hk : k.isKey = true) :
    ((visited w known).any fun src => k.same src) = (visited w' known').any fun src => k.same src := by
  have hnames : ∀ {sources sources' : List Source}, List.Forall₂ SourceReordered sources sources' →
      sources.map (fun s => k.same s.node) = sources'.map fun s => k.same s.node := by
    intro sources sources' hsources
    induction hsources with
    | nil => rfl
    | cons hs _ ih => rw [map_cons, map_cons, hs.node.same_eq hk, ih]
  have hany : ∀ sources : List Source, ((sources.map (·.node)).any fun src => k.same src) =
      (sources.map fun s => k.same s.node).any id := by
    intro sources
    rw [any_map, any_map]
    rfl
  unfold visited
  rw [hany, hany]
  refine List.Perm.any_eq ?_
  rw [map_append, map_append]
  refine .append ?_ ?_
  · unfold stepSources
    rw [map_flatMap, map_flatMap]
    refine flatMap_attached_perm h hknown fun s s' hs => ?_
    rw [map_flatMap, map_flatMap]
    refine hs.ports.entries.flatMap_perm fun e hmem e' _ he => ?_
    rw [hnames (hs.sources he (hs.keys e hmem))]
  · unfold outputSources
    rw [map_flatMap, map_flatMap]
    refine (listing_reordered h.outputs h.outputKeys).entries.flatMap_perm fun e hmem e' _ he => ?_
    rw [hnames (outputSources_reordered h he hmem)]

theorem connectionErrors_perm : (connectionErrors w known).Perm (connectionErrors w' known') := by
  unfold connectionErrors
  refine .append (.append ?_ ?_) ?_
  · refine flatMap_attached_perm h hknown fun s s' hs => ?_
    refine hs.ports.entries.flatMap_perm fun e hmem e' _ he => ?_
    rw [errors_eq h hknown hs he (hs.keys e hmem)]
  · unfold outputSources
    rw [flatMap_assoc, flatMap_assoc]
    refine (listing_reordered h.outputs h.outputKeys).entries.flatMap_perm fun e hmem e' _ he => ?_
    rw [flatMap_sourceErrors_eq h hknown none (outputSources_reordered h he hmem)]
  · unfold unusedInputs
    refine (listing_reordered h.inputs h.inputKeys).sorted.map_filter_perm ?_ ?_
    · intro e e' he
      rw [visited_any_eq h hknown he.isKey, he.key]
    · intro e e' he
      rw [he.idSpan]

end

/-! ## Interfaces and steps -/

theorem ports_eq (h : Node.Reordered n n') (hkeys : AllMaps TextKeys n) :
    Interface.ports n = Interface.ports n' := by
  obtain ⟨hproblems, hentries⟩ := Listing.asMap_reordered h hkeys (.str "id")
  unfold Interface.ports
  dsimp only
  rw [hproblems]
  generalize (Listing.asMap n (.str "id")).2 = r, (Listing.asMap n' (.str "id")).2 = r' at hentries
  cases hentries with
  | error f => rfl
  | ok hnames => simp only [Except.map, hnames]

theorem interface_eq (h : Node.Reordered n n') (hkeys : AllMaps TextKeys n) :
    Interface.ofProcess n = Interface.ofProcess n' := by
  cases n with
  | map form es =>
    obtain ⟨es', rfl, hes⟩ := h.map_left
    simp only [Interface.ofProcess, ports_eq (hes.part hkeys.1 "inputs") (hkeys.part "inputs"),
      ports_eq (hes.part hkeys.1 "outputs") (hkeys.part "outputs")]
  | seq form items =>
    obtain ⟨items', rfl, _⟩ := h.seq_left
    rfl
  | _ =>
    cases h
    rfl

/-- The workflow of a process, whose parts may be missing. -/
theorem of_reordered {form es es'} (h : Node.Rearranged es es')
    (hkeys : AllMaps TextKeys (.map form es)) : SameOutcome Reordered
      (Workflow.of ((es.field? "inputs").getD .null)
        ((es.field? "outputs").getD .null) ((es.field? "steps").getD .null))
      (Workflow.of ((es'.field? "inputs").getD .null) ((es'.field? "outputs").getD .null)
        ((es'.field? "steps").getD .null)) := by
  have hpart := h.part hkeys.1
  unfold Workflow.of
  rw [ports_eq (hpart "inputs") (hkeys.part "inputs"), ports_eq (hpart "outputs") (hkeys.part "outputs")]
  generalize (Interface.ports ((es'.field? "inputs").getD .null)).2 = inputs,
    (Interface.ports ((es'.field? "outputs").getD .null)).2 = outputs
  cases inputs with
  | error f => exact .error f
  | ok inputs =>
    cases outputs with
    | error f => exact .error f
    | ok outputs =>
      exact .ok ⟨hpart "inputs", hpart "outputs", hpart "steps", rfl, hkeys.part "inputs",
        hkeys.part "outputs", hkeys.part "steps"⟩

namespace Steps

/-- Steps that are set one after the other. -/
def all (attached : List (Node × Interface)) : Steps := attached.foldl (fun s a => s.put a.1 a.2) []

variable {i : Interface} {attached : List (Node × Interface)}

theorem get?_all (id : Node) : (all attached).get? id = Table.get? attached.reverse id :=
  (Table.get?_setAll id attached []).trans Option.or_none

theorem of_get?_all {t} (h : (all attached).get? (.str t) = some i) :
    ∃ a ∈ attached, a.1.isName t = true ∧ a.2 = i := by
  rw [get?_all] at h
  obtain ⟨a, ha, rfl⟩ := Option.map_eq_some_iff.mp h
  exact ⟨a, mem_reverse.mp (mem_of_find?_eq_some ha), by simpa using List.find?_some ha, rfl⟩

theorem isSome_get?_all {a} (h : a ∈ attached) (hkey : a.1.same a.1 = true) :
    ((all attached).get? a.1).isSome = true := by
  rw [get?_all, Table.isSome_get?]
  exact any_eq_true.mpr ⟨a, mem_reverse.mpr h, hkey⟩

theorem all_eq (h : attached.Pairwise fun a b => a.1.same b.1 = false) : all attached = attached :=
  Table.setAll_of_distinct attached [] (pairwise_map.mpr h)

theorem get?_all_of_perm {attached'} (hperm : attached.Perm attached')
    (h : attached.Pairwise fun a b => a.1.same b.1 = false) (id : Node) :
    (all attached).get? id = (all attached').get? id := by
  have h' : attached'.Pairwise fun a b => a.1.same b.1 = false := by
    refine hperm.pairwise h ?_
    intro a b hab
    rwa [Node.same_comm]
  rw [all_eq h, all_eq h', Steps.get?, Steps.get?]
  rw [Node.find?_eq_of_perm hperm (p := fun s => s.1.same id) (h.imp ?_)]
  intro a b hab ha
  rw [← Bool.not_eq_true]
  intro hb
  rw [Node.same_trans a.1 id b.1 ha (Node.same_symm b.1 id hb)] at hab
  cases hab

end Steps

end CwlService.Workflow
