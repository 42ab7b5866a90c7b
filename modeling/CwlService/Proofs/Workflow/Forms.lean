import CwlService.Proofs.Node.Named
import CwlService.Proofs.Node.NameSet
import CwlService.Workflow.Connections
import CwlService.Workflow.Graph

/-! # Workflows in either form

The inputs, outputs and steps of a workflow and the ports of each step can be written as lists
or as maps. A workflow that is rewritten from one form into the other keeps its graph, and its
connections have the same problems. -/
namespace CwlService

open Node
open List

/-! ## Rewriting -/

/-- Two nodes that write down maps under the same names, and alike ones under each. -/
def Rewritten (Alike : Node → Node → Prop) (n n' : Node) : Prop :=
  ∃ content content', Writes n content ∧ Writes n' content' ∧
    List.Forall₂ (fun c c' => c.1 = c'.1 ∧ Alike c.2 c'.2) content content'

/-- A part of two maps that is missing in both or rewritten. -/
def PartRewritten (Alike : Node → Node → Prop) (name : String) (n n' : Node) : Prop :=
  Option.Rel (Rewritten Alike) (n.field? name) (n'.field? name)

/-- A step with its ports perhaps in the other form. -/
structure StepRewritten (n n' : Node) : Prop where
  rest : Moved (n.dropField "in") (n'.dropField "in")
  ports : PartRewritten Moved "in" n n'

/-- A workflow with any of its parts, and of the ports of its steps, perhaps in the other form. -/
structure WorkflowRewritten (n n' : Node) : Prop where
  isMap : n.isMap = true ∧ n'.isMap = true
  inputs : PartRewritten Moved "inputs" n n'
  outputs : PartRewritten Moved "outputs" n n'
  steps : PartRewritten StepRewritten "steps" n n'

/-! ## Entries in both forms -/

/-- Two entries under one key that are the same but for their names. -/
structure EntryAlike (Alike : Node → Node → Prop) (e e' : ListingEntry) : Prop where
  key : e.key = e'.key
  bodies : ∃ body body', Carries e.value body ∧ Carries e'.value body' ∧ Alike body body'

/-- Two listings of alike entries that know where they are. -/
structure ListingAlike (Alike : Node → Node → Prop) (l l' : Listing) : Prop where
  entries : List.Forall₂ (EntryAlike Alike) l.entries l'.entries
  spans : l.KnowsSpans
  spans' : l'.KnowsSpans

/-- Two computations that both give a result. -/
def BothGive {α β : Type} (R : α → β → Prop) (x : Except Fault α) (y : Except Fault β) : Prop :=
  ∃ a b, x = .ok a ∧ y = .ok b ∧ R a b

variable {α β γ : Type} {x : Except Fault α} {R : α → β → Prop} {y : Except Fault β}
  {content' : List (Node × Node)} {es es' : List ListingEntry} {n n' : Node} {l l' : Listing}
  {e e' : ListingEntry}

theorem BothGive.bind {δ : Type} {S : γ → δ → Prop} {f : α → Except Fault γ} {g : β → Except Fault δ}
    (h : BothGive R x y) (hfg : ∀ a b, R a b → BothGive S (f a) (g b)) : BothGive S (x >>= f) (y >>= g) := by
  obtain ⟨a, b, rfl, rfl, hab⟩ := h
  exact hfg a b hab

theorem bothGive_of_isOk (hx : x.isOk = true) (hy : y.isOk = true) : BothGive (fun _ _ => True) x y := by
  cases x with
  | error f => cases hx
  | ok a =>
    cases y with
    | error f => cases hy
    | ok b => exact ⟨a, b, rfl, rfl, trivial⟩

section

variable {Alike : Node → Node → Prop}

theorem forall₂_entryAlike {content : List (Node × Node)}
    (h : List.Forall₂ (fun c c' => c.1 = c'.1 ∧ Alike c.2 c'.2) content content')
    (hes : List.Forall₂ (fun e c => e.key = c.1 ∧ Carries e.value c.2) es content)
    (hes' : List.Forall₂ (fun e c => e.key = c.1 ∧ Carries e.value c.2) es' content') :
    List.Forall₂ (EntryAlike Alike) es es' := by
  induction h generalizing es es' with
  | nil =>
    cases hes
    cases hes'
    exact .nil
  | cons hc _ ih =>
    cases hes with
    | cons he hrest =>
      cases hes' with
      | cons he' hrest' =>
        have hkey := he.1.trans (hc.1.trans he'.1.symm)
        exact .cons ⟨hkey, _, _, he.2, he'.2, hc.2⟩ (ih hrest hrest')

theorem of_rewritten (h : Rewritten Alike n n') :
    BothGive (ListingAlike Alike) (Listing.of n (.str "id")).2 (Listing.of n' (.str "id")).2 := by
  obtain ⟨content, content', hwrites, hwrites', hcontent⟩ := h
  obtain ⟨l, hl, hshows⟩ := Listing.of_writes hwrites
  obtain ⟨l', hl', hshows'⟩ := Listing.of_writes hwrites'
  exact ⟨l, l', by rw [hl], by rw [hl'],
    forall₂_entryAlike hcontent hshows.entries hshows'.entries, hshows.spans, hshows'.spans⟩

/-- A part that is missing in both is taken for something without entries. -/
theorem of_partRewritten {name} (h : PartRewritten Alike name n n') {missing}
    (hmissing : (Listing.of missing (.str "id")).2 = .ok l) (hnone : l.entries = []) :
    BothGive (ListingAlike Alike) (Listing.of ((n.field? name).getD missing) (.str "id")).2
      (Listing.of ((n'.field? name).getD missing) (.str "id")).2 := by
  unfold PartRewritten at h
  generalize n.field? name = part, n'.field? name = part' at h ⊢
  cases h with
  | none =>
    have hspans : l.KnowsSpans := ⟨by simp [hnone], by simp [hnone]⟩
    exact ⟨l, l, hmissing, hmissing, by rw [hnone]; exact .nil, hspans, hspans⟩
  | some h => exact of_rewritten h

/-- Alike entries whose listings both know where they are. -/
structure Paired (Alike : Node → Node → Prop) (l l' : Listing) (e e' : ListingEntry) : Prop where
  entry : EntryAlike Alike e e'
  value : BothGive (fun _ _ => True) (l.valueSpan e) (l'.valueSpan e')
  id : BothGive (fun _ _ => True) (l.idSpan e) (l'.idSpan e')

theorem ListingAlike.paired (h : ListingAlike Alike l l') : List.Forall₂ (Paired Alike l l') l.entries l'.entries := by
  obtain ⟨hlength, hzip⟩ := forall₂_iff_zip.mp h.entries
  refine forall₂_iff_zip.mpr ⟨hlength, fun hmem => ?_⟩
  obtain ⟨he, he'⟩ := of_mem_zip hmem
  exact ⟨hzip hmem, bothGive_of_isOk (h.spans.value _ he) (h.spans'.value _ he'),
    bothGive_of_isOk (h.spans.id _ he) (h.spans'.id _ he')⟩

theorem EntryAlike.field?_eq (h : EntryAlike Alike e e') {name} (hname : name ≠ "id")
    (halike : ∀ body body', Alike body body' → (body.field? name).map atOrigin = (body'.field? name).map atOrigin) :
    (e.value.field? name).map atOrigin = (e'.value.field? name).map atOrigin := by
  obtain ⟨body, body', hbody, hbody', hab⟩ := h.bodies
  rw [hbody.field name hname, hbody'.field name hname]
  exact halike body body' hab

theorem EntryAlike.isMap (h : EntryAlike Alike e e') :
    (∃ form es, e.value = .map form es) ∧ ∃ form es, e'.value = .map form es := by
  have hmap : ∀ {n : Node}, n.isMap = true → ∃ form es, n = .map form es := by
    intro n hn
    cases n with
    | map form es => exact ⟨form, es, rfl⟩
    | _ => cases hn
  obtain ⟨body, body', hbody, hbody', _⟩ := h.bodies
  exact ⟨hmap hbody.isMap, hmap hbody'.isMap⟩

theorem StepRewritten.field?_eq (h : StepRewritten n n') {name} (hname : name ≠ "in") :
    (n.field? name).map atOrigin = (n'.field? name).map atOrigin := by
  rw [← field?_dropField hname n, ← field?_dropField hname n']
  exact h.rest.field?_eq name

theorem EntryAlike.ports (h : EntryAlike StepRewritten e e') : PartRewritten Moved "in" e.value e'.value := by
  obtain ⟨body, body', hbody, hbody', hstep⟩ := h.bodies
  unfold PartRewritten
  rw [hbody.field "in" (by decide), hbody'.field "in" (by decide)]
  exact hstep.ports

end

/-! ## The graph -/

namespace FlowGraph

/-- What a node of the graph says, wherever its label is written. -/
def said (n : FlowNode) : Node × Node × String := (n.id, n.label.atOrigin, n.group)

/-- Two graphs of the same nodes and edges. -/
structure Alike (g g' : FlowGraph) : Prop where
  nodes : g.nodes.map said = g'.nodes.map said
  edges : g.edges = g'.edges

/-- The names in a source as it is written. -/
def writtenNames (src : Node) : List String :=
  let items : List Node := match src with
    | .seq _ items => items.map fun i => i.2
    | n => [n]
  items.filterMap fun n => n.text?.map fun s => (Text.parts '/' s).headD ""

theorem text?_atOrigin (n : Node) : n.atOrigin.text? = n.text? := by
  cases n <;> rfl

theorem writtenNames_atOrigin (src : Node) : writtenNames src.atOrigin = writtenNames src := by
  cases src with
  | seq form items =>
    simp only [writtenNames, atOrigin, itemsAtOrigin_eq_map, map_map, filterMap_map]
    refine filterMap_congr fun i _ => ?_
    simp only [Function.comp, text?_atOrigin]
  | _ => rfl

theorem sources_eq {field} (hfield : field ≠ "id") (h : EntryAlike Moved e e') :
    sources field e.value = sources field e'.value := by
  have hsource := h.field?_eq hfield fun _ _ hmoved => hmoved.field?_eq field
  obtain ⟨⟨form, es, hvalue⟩, form', es', hvalue'⟩ := h.isMap
  rw [hvalue, hvalue'] at hsource ⊢
  show writtenNames ((Entries.field? es field).getD .null) =
    writtenNames ((Entries.field? es' field).getD .null)
  rw [← writtenNames_atOrigin, ← writtenNames_atOrigin ((Entries.field? es' field).getD .null),
    atOrigin_getD, atOrigin_getD]
  exact congrArg (fun src => writtenNames (src.getD .null)) hsource

theorem addGroup_alike {Alike' : Node → Node → Prop} (group : String)
    (hlabel : ∀ body body', Alike' body body' → (body.field? "label").map atOrigin =
    (body'.field? "label").map atOrigin) :
    ∀ {es es'}, List.Forall₂ (Paired Alike' l l') es es' →
      ∀ {g g'}, Alike g g' → BothGive Alike (addGroup group l es g) (addGroup group l' es' g')
  | _, _, .nil, g, g', hg => ⟨g, g', rfl, rfl, hg⟩
  | e :: es, e' :: es', .cons ⟨he, hvalue, _⟩ hes, g, g', hg => by
    refine hvalue.bind fun span span' _ => ?_
    refine addGroup_alike group hlabel hes ⟨?_, hg.edges⟩
    have hlabels := he.field?_eq (by decide) hlabel
    obtain ⟨⟨form, fields, hvalue⟩, form', fields', hvalue'⟩ := he.isMap
    rw [hvalue, hvalue'] at hlabels
    rw [map_append, map_append, hg.nodes, hvalue, hvalue']
    simp only [map_cons, map_nil, said, he.key, atOrigin_getD]
    exact congrArg (fun label => g'.nodes.map said ++ [(e'.key, label.getD e'.key.atOrigin, group)])
      hlabels

theorem flatMap_eq_of_forall₂ {xs ys} {f : α → List γ} {g : β → List γ} (h : List.Forall₂ R xs ys)
    (hfg : ∀ a b, R a b → f a = g b) : xs.flatMap f = ys.flatMap g := by
  rw [flatMap_def, flatMap_def, map_eq_of_forall₂ h hfg]

theorem addSteps_alike : ∀ {es es'},
    List.Forall₂ (EntryAlike StepRewritten) es es' → ∀ {g g'}, Alike g g' →
      BothGive Alike (addSteps es g) (addSteps es' g')
  | _, _, .nil, g, g', hg => ⟨g, g', rfl, rfl, hg⟩
  | e :: es, e' :: es', .cons he hes, g, g', hg => by
    obtain ⟨⟨form, fields, hvalue⟩, form', fields', hvalue'⟩ := he.isMap
    have hports := he.ports
    rw [hvalue, hvalue'] at hports
    unfold addSteps
    simp only [hvalue, hvalue']
    refine (of_partRewritten hports rfl rfl).bind fun l l' hl => ?_
    refine addSteps_alike hes ⟨hg.nodes, ?_⟩
    have hsources : l.entries.flatMap (fun p => sources "source" p.value) =
        l'.entries.flatMap fun p => sources "source" p.value :=
      flatMap_eq_of_forall₂ hl.entries fun _ _ hport => sources_eq (by decide) hport
    simp only [addEdges, hg.edges, he.key, hsources]

theorem addOutputs_alike (h : List.Forall₂ (EntryAlike Moved) es es') {g g'} (hg : Alike g g') :
    Alike (es.foldl (fun g e => g.addEdges e.key (sources "outputSource" e.value)) g)
      (es'.foldl (fun g e => g.addEdges e.key (sources "outputSource" e.value)) g') := by
  induction h generalizing g g' with
  | nil => exact hg
  | cons he _ ih =>
    refine ih ⟨hg.nodes, ?_⟩
    have hsources : sources "outputSource" _ = sources "outputSource" _ := sources_eq (by decide) he
    simp only [addEdges, hg.edges, he.key, hsources]

theorem of_alike (h : WorkflowRewritten n n') : BothGive Alike (of n) (of n') := by
  unfold of
  simp only [h.isMap.1, h.isMap.2, Bool.not_true, Bool.false_eq_true, if_false]
  refine (of_partRewritten h.inputs rfl rfl).bind fun inputs inputs' hinputs => ?_
  have hmoved : ∀ body body' : Node, Moved body body' →
      (body.field? "label").map atOrigin = (body'.field? "label").map atOrigin :=
    fun _ _ hmoved => hmoved.field?_eq "label"
  refine (addGroup_alike "inputs" hmoved hinputs.paired ⟨rfl, rfl⟩).bind fun g g' hg => ?_
  refine (of_partRewritten h.steps rfl rfl).bind fun steps steps' hsteps => ?_
  refine (addGroup_alike "steps" (fun _ _ hstep => hstep.field?_eq (by decide)) hsteps.paired hg).bind fun g g' hg => ?_
  refine (of_partRewritten h.outputs rfl rfl).bind fun outputs outputs' houtputs => ?_
  refine (addGroup_alike "outputs" hmoved houtputs.paired hg).bind fun g g' hg => ?_
  refine (addSteps_alike hsteps.entries hg).bind fun g g' hg => ?_
  exact ⟨_, _, rfl, rfl, addOutputs_alike houtputs.entries hg⟩

end FlowGraph

/-! ## Checks that agree -/

namespace Workflow

/-- What a problem says, wherever it is. -/
def said (d : Diagnostic) : Message × Option Severity := (d.message, d.severity)

/-- Two tallies with problems that say the same. -/
structure TallyAlike (t t' : Tally) : Prop where
  unused : t.unused = t'.unused
  problems : t.problems.map said = t'.problems.map said

/-- Two checks that find problems which say the same, and come to an end both or neither. -/
def Agree (x y : Checking Unit) : Prop := ∀ t t', TallyAlike t t' →
  (x.run.run t).1.isOk = (y.run.run t').1.isOk ∧ TallyAlike (x.run.run t).2 (y.run.run t').2

namespace Agree

theorem pure : Agree (Pure.pure ()) (Pure.pure ()) := fun _ _ ht => ⟨rfl, ht⟩

theorem bind {x y} {f g : Unit → Checking Unit} (hxy : Agree x y) (hfg : Agree (f ()) (g ())) :
    Agree (x >>= f) (y >>= g) := by
  intro t t' ht
  obtain ⟨hok, hs⟩ := hxy t t' ht
  cases hx : x.run.run t with
  | mk r s =>
    cases hy : y.run.run t' with
    | mk r' s' =>
      rw [hx, hy] at hok hs
      cases r with
      | error e =>
        cases r' with
        | ok b => cases hok
        | error e' =>
          rw [run_bind_error hx, run_bind_error hy]
          exact ⟨rfl, hs⟩
      | ok a =>
        cases r' with
        | error e' => cases hok
        | ok b =>
          rw [run_bind hx, run_bind hy]
          exact hfg s s' hs

variable {f : α → Checking Unit} {g : β → Checking Unit}

theorem lift_bind (hxy : x.isOk = y.isOk) (hfg : ∀ a b, x = .ok a → y = .ok b → Agree (f a) (g b)) :
    Agree (liftM x >>= f) (liftM y >>= g) := by
  cases x with
  | error e =>
    cases y with
    | ok b => cases hxy
    | error e' => exact fun _ _ ht => ⟨rfl, ht⟩
  | ok a =>
    cases y with
    | error e' => cases hxy
    | ok b => exact hfg a b rfl rfl

theorem lift_bind_of_bothGive (hxy : BothGive R x y) (hfg : ∀ a b, R a b → Agree (f a) (g b)) :
    Agree (liftM x >>= f) (liftM y >>= g) := by
  obtain ⟨a, b, rfl, rfl, hab⟩ := hxy
  exact hfg a b hab

theorem get_bind {f g : Tally → Checking Unit}
    (hfg : ∀ t t', t.unused = t'.unused → Agree (f t) (g t')) : Agree (get >>= f) (get >>= g) :=
  fun t t' ht => hfg t t' ht.unused t t' ht

theorem report {d d'} (h : said d = said d') : Agree (report d) (report d') := by
  intro t t' ht
  refine ⟨rfl, ht.unused, ?_⟩
  show (t.problems ++ [d]).map said = (t'.problems ++ [d']).map said
  rw [map_append, map_append, ht.problems, map_singleton, map_singleton, h]

theorem erase (src : Node) : Agree (modify fun t => { t with unused := t.unused.erase src })
      (modify fun t => { t with unused := t.unused.erase src }) := by
  intro t t' ht
  refine ⟨rfl, ?_, ht.problems⟩
  show t.unused.erase src = t'.unused.erase src
  rw [ht.unused]

end Agree

/-! ## Connections -/

section

variable {w w' : Workflow} (hw : w.inputNames = w'.inputNames) (known : Steps)

include hw

theorem checkTarget_agree (step : Option Node) (src : Node) (span span' : Span) :
    Agree (checkTarget w known step src span) (checkTarget w' known step src span') := by
  have hfault : sourceFault? w known step src = sourceFault? w' known step src := by
    unfold sourceFault?
    rw [hw]
  unfold checkTarget
  rw [hw, hfault]
  split
  · exact .pure
  · refine .lift_bind rfl fun fault fault' h h' => ?_
    cases h.symm.trans h'
    cases fault with
    | none => exact .pure
    | some message => exact .report rfl

variable {src src' : Node}

theorem checkSource_agree (step : Option Node) (hsrc : Moved src src') (span span' : Span) :
    Agree (checkSource w known step src span) (checkSource w' known step src' span') := by
  cases hkey : src.isKey with
  | true =>
    cases hsrc.eq_of_isKey hkey
    unfold checkSource
    rw [hkey]
    split
    · exact .pure
    · exact .bind (.erase src) (checkTarget_agree hw known step src span span')
  | false =>
    have hkey' : src'.isKey = false := hsrc.isKey_eq ▸ hkey
    have hnull : ∀ n : Node, n.isKey = false → n.isNull = false := by
      intro n hn
      cases n with
      | null => cases hn
      | _ => rfl
    unfold checkSource
    rw [hkey, hkey', hnull src hkey, hnull src' hkey']
    exact fun _ _ ht => ⟨rfl, ht⟩

theorem checkSources_agree (step) {list list'}
    (hspan : ∀ index, (list.itemSpan index).isOk = (list'.itemSpan index).isOk) :
    ∀ items items' index, itemsAtOrigin items = itemsAtOrigin items' →
      Agree (checkSources w known step list index items) (checkSources w' known step list' index items')
  | [], [], _, _ => .pure
  | (place, src) :: rest, (place', src') :: rest', index, h => by
    obtain ⟨hitem, hrest⟩ := List.cons.inj h
    have hsrc : Moved src src' := (Prod.mk.inj hitem).2
    refine .lift_bind (hspan index) fun span span' _ _ => ?_
    exact .bind (checkSource_agree hw known step hsrc span span')
      (checkSources_agree step hspan rest rest' (index + 1) hrest)
  | [], _ :: _, _, h => by cases h
  | _ :: _, [], _, h => by cases h

theorem checkWritten_agree (step : Option Node) (hsrc : Moved src src') (span span' : Span) :
    Agree (checkWritten w known step src span) (checkWritten w' known step src' span') := by
  cases src with
  | seq form items =>
    obtain ⟨items', rfl, hitems⟩ := hsrc.seq_left
    exact checkSources_agree hw known step (Moved.isOk_itemSpan_eq hitems) items items' 0 hitems
  | text s styled =>
    cases hsrc.eq_of_isKey rfl
    exact checkSource_agree hw known step rfl span span'
  | _ =>
    cases src' with
    | seq => cases hsrc
    | text => cases hsrc
    | _ => exact .pure

theorem checkPort_agree (step) {field} (hfield : field ≠ "id") (h : EntryAlike Moved e e')
    (span span') :
    Agree (checkPort w known step field e.value span) (checkPort w' known step field e'.value span') := by
  have hsources := h.field?_eq hfield fun _ _ hmoved => hmoved.field?_eq field
  have hspans : (e.value.valueSpan (.str field)).isOk = (e'.value.valueSpan (.str field)).isOk := by
    obtain ⟨body, body', hbody, hbody', hmoved⟩ := h.bodies
    rw [isOk_valueSpan, isOk_valueSpan, hbody.place field hfield, hbody'.place field hfield,
      hmoved.knowsPlace_eq]
  obtain ⟨⟨form, es, hvalue⟩, form', es', hvalue'⟩ := h.isMap
  rw [hvalue, hvalue'] at hsources hspans ⊢
  simp only [Node.field?] at hsources
  unfold checkPort
  dsimp only
  generalize Entries.field? es field = src, Entries.field? es' field = src' at hsources
  cases src with
  | none =>
    cases src' with
    | none => exact .pure
    | some => cases hsources
  | some src =>
    cases src' with
    | none => cases hsources
    | some src' =>
      exact .lift_bind hspans fun inner inner' _ _ => checkWritten_agree hw known step
        (Option.some.inj hsources) inner inner'

theorem checkStepPorts_agree (id : Node) (i : Interface) :
    ∀ {es es'}, List.Forall₂ (Paired Moved l l') es es' →
      Agree (checkStepPorts w known id i l es) (checkStepPorts w' known id i l' es')
  | _, _, .nil => .pure
  | e :: es, e' :: es', .cons ⟨he, hvalue, hid⟩ hes => by
    have hrest := checkStepPorts_agree id i hes
    unfold checkStepPorts
    rw [he.key]
    split
    · refine .lift_bind_of_bothGive hvalue fun span span' _ => ?_
      exact .bind (checkPort_agree hw known (some id) (by decide) he span span') hrest
    · refine .lift_bind_of_bothGive hid fun span span' _ => ?_
      exact .bind (.report rfl) hrest

theorem checkSteps_agree : ∀ {es es'}, List.Forall₂ (EntryAlike StepRewritten) es es' →
      Agree (checkSteps w known es) (checkSteps w' known es')
  | _, _, .nil => .pure
  | e :: es, e' :: es', .cons he hes => by
    have hports := he.ports
    obtain ⟨⟨form, fields, hvalue⟩, form', fields', hvalue'⟩ := he.isMap
    rw [hvalue, hvalue'] at hports
    unfold checkSteps
    rw [he.key, hvalue, hvalue']
    cases known.get? e'.key with
    | none => exact checkSteps_agree hes
    | some i =>
      refine .lift_bind_of_bothGive (of_partRewritten hports rfl rfl) fun l l' hl => ?_
      refine .bind ?_ (checkSteps_agree hes)
      exact checkStepPorts_agree hw known e'.key i hl.paired

theorem checkOutputs_agree : ∀ {es es'}, List.Forall₂ (Paired Moved l l') es es' →
      Agree (checkOutputs w known l es) (checkOutputs w' known l' es')
  | _, _, .nil => .pure
  | e :: es, e' :: es', .cons ⟨he, hvalue, _⟩ hes => by
    refine .lift_bind_of_bothGive hvalue fun span span' _ => ?_
    exact .bind (checkPort_agree hw known none (by decide) he span span') (checkOutputs_agree hes)

end

theorem reportUnused_agree {Alike : Node → Node → Prop} (unused : NameSet) :
    ∀ {es es'}, List.Forall₂ (Paired Alike l l') es es' →
      Agree (reportUnused l unused es) (reportUnused l' unused es')
  | _, _, .nil => .pure
  | e :: es, e' :: es', .cons ⟨he, _, hid⟩ hes => by
    have hrest := reportUnused_agree unused hes
    have hunused : isUnused unused e = isUnused unused e' := by rw [isUnused, isUnused, he.key]
    unfold reportUnused
    rw [hunused]
    split
    · refine .lift_bind_of_bothGive hid fun span span' _ => ?_
      exact .bind (.report rfl) hrest
    · exact hrest

end Workflow

/-! ## Rewritten workflows -/

namespace Workflow

/-- A part of a process, which may be missing. -/
def partOf (n : Node) (name : String) : Node := (n.field? name).getD .null

/-- A process as a workflow. -/
def ofProcess (n : Node) : Except Fault Workflow :=
  Workflow.of (partOf n "inputs") (partOf n "outputs") (partOf n "steps")

variable {Alike : Node → Node → Prop} {w : Workflow}

theorem ports_of_partRewritten {name} (h : PartRewritten Alike name n n') :
    BothGive (· = ·) (Interface.ports (partOf n name)).2 (Interface.ports (partOf n' name)).2 := by
  unfold PartRewritten at h
  unfold partOf
  generalize n.field? name = part, n'.field? name = part' at h ⊢
  cases h with
  | none => exact ⟨_, _, rfl, rfl, rfl⟩
  | some h =>
    obtain ⟨content, content', hwrites, hwrites', hcontent⟩ := h
    obtain ⟨es, hes, hkeys⟩ := Listing.asMap_writes hwrites
    obtain ⟨es', hes', hkeys'⟩ := Listing.asMap_writes hwrites'
    refine ⟨.ofList (es.map (·.key)), .ofList (es'.map (·.key)), ?_, ?_, ?_⟩
    · simp only [Interface.ports, Option.getD_some, hes]
      rfl
    · simp only [Interface.ports, Option.getD_some, hes']
      rfl
    · rw [hkeys, hkeys', map_eq_of_forall₂ hcontent fun _ _ hc => hc.1]

theorem ofProcess_alike (h : WorkflowRewritten n n') :
    BothGive (fun w w' => w.inputNames = w'.inputNames) (ofProcess n) (ofProcess n') := by
  unfold ofProcess Workflow.of
  refine (ports_of_partRewritten h.inputs).bind fun inputs inputs' hinputs => ?_
  refine (ports_of_partRewritten h.outputs).bind fun outputs outputs' _ => ?_
  exact ⟨_, _, rfl, rfl, hinputs⟩

theorem eq_of_ofProcess (h : ofProcess n = .ok w) : ∃ inputNames outputNames,
    w = ⟨partOf n "inputs", partOf n "outputs", partOf n "steps", inputNames, outputNames⟩ := by
  unfold ofProcess Workflow.of at h
  obtain ⟨_, _, h⟩ := bind_eq_ok h
  obtain ⟨_, _, h⟩ := bind_eq_ok h
  exact ⟨_, _, (Except.ok.inj h).symm⟩

theorem checkAll_agree (h : WorkflowRewritten n n') {w'} (hw : ofProcess n = .ok w)
    (hw' : ofProcess n' = .ok w') (hnames : w.inputNames = w'.inputNames) (known : Steps) :
    Agree (checkAll w known) (checkAll w' known) := by
  obtain ⟨_, _, rfl⟩ := eq_of_ofProcess hw
  obtain ⟨_, _, rfl⟩ := eq_of_ofProcess hw'
  unfold checkAll
  refine .lift_bind_of_bothGive (of_partRewritten h.steps rfl rfl) fun steps steps' hsteps => ?_
  refine .bind (checkSteps_agree hnames known hsteps.entries) ?_
  refine .lift_bind_of_bothGive (of_partRewritten h.outputs rfl rfl) fun outputs outputs' houtputs => ?_
  refine .bind (checkOutputs_agree hnames known houtputs.paired) ?_
  refine .lift_bind_of_bothGive (of_partRewritten h.inputs rfl rfl) fun inputs inputs' hinputs => ?_
  refine .get_bind fun t t' ht => ?_
  rw [ht]
  exact reportUnused_agree t'.unused (Listing.sorted_forall₂ (fun h => h.entry.key) hinputs.paired)

/-- Rewriting parts of a workflow from one form into the other changes neither its graph nor
what the problems of its connections say, whatever is known of its steps. -/
theorem graph_and_problems_of_rewritten {n n' : Node} (h : WorkflowRewritten n n') (known : Steps) :
    (∃ g g', FlowGraph.of n = .ok g ∧ FlowGraph.of n' = .ok g' ∧
      g.nodes.map FlowGraph.said = g'.nodes.map FlowGraph.said ∧ g.edges = g'.edges) ∧
    ∃ w w', ofProcess n = .ok w ∧ ofProcess n' = .ok w' ∧
      (w.connectionProblems known).1.map said = (w'.connectionProblems known).1.map said ∧
      (w.connectionProblems known).2.isOk = (w'.connectionProblems known).2.isOk := by
  obtain ⟨g, g', hg, hg', hgraph⟩ := FlowGraph.of_alike h
  obtain ⟨w, w', hw, hw', hnames⟩ := ofProcess_alike h
  obtain ⟨hok, htally⟩ := checkAll_agree h hw hw' hnames known ⟨w.inputNames, []⟩ ⟨w'.inputNames, []⟩
    ⟨hnames, rfl⟩
  exact ⟨⟨g, g', hg, hg', hgraph.nodes, hgraph.edges⟩, w, w', hw, hw', htally.problems, hok⟩

/-- A workflow with its parts as lists. -/
def listedSample : Node := .placedMap [
  ("inputs", .placedList [.placedMap [("id", .str "reads"), ("label", .str "Reads")],
    .placedMap [("type", .str "File"), ("id", .str "spare")]]),
  ("steps", .placedList [.placedMap [("id", .str "align"), ("in", .placedList [
    .placedMap [("id", .str "reads"), ("source", .placedList [.str "reads", .str "genome"])]])]]),
  ("outputs", .placedList [])]

/-- The same workflow with its parts as maps. -/
def mappedSample : Node := .placedMap [
  ("inputs", .placedMap [("reads", .placedMap [("label", .str "Reads")]),
    ("spare", .placedMap [("type", .str "File")])]),
  ("steps", .placedMap [("align", .placedMap [("in", .placedMap [
    ("reads", .placedMap [("source", .placedList [.str "reads", .str "genome"])])])])]),
  ("outputs", .placedMap [])]

def alignKnown : Steps := [(.str "align", { inputs := ⟨[.str "reads"]⟩ })]

theorem sample_rewritten : WorkflowRewritten listedSample mappedSample := by
  have hports : Rewritten Moved
      (.placedList [.placedMap [("id", .str "reads"),
        ("source", .placedList [.str "reads", .str "genome"])]])
      (.placedMap [("reads", .placedMap [("source", .placedList [.str "reads", .str "genome"])])]) :=
    ⟨_, _, .list rfl (forall_mem_singleton.mpr ⟨rfl, rfl, rfl⟩) (pairwise_singleton _ _),
      .map rfl (forall_mem_singleton.mpr ⟨rfl, rfl, rfl⟩) (pairwise_singleton _ _),
      .cons ⟨rfl, rfl⟩ .nil⟩
  refine ⟨⟨rfl, rfl⟩, .some ?_, .some ?_, .some ?_⟩
  · have hnames : Distinct [.str "reads", .str "spare"] := by simp [Distinct, isName]
    refine ⟨_, _, .list rfl ?_ hnames, .map rfl ?_ hnames, .cons ⟨rfl, rfl⟩ (.cons ⟨rfl, rfl⟩ .nil)⟩
    · exact forall_mem_cons.mpr ⟨⟨rfl, rfl, rfl⟩, forall_mem_singleton.mpr ⟨rfl, rfl, rfl⟩⟩
    · exact forall_mem_cons.mpr ⟨⟨rfl, rfl, rfl⟩, forall_mem_singleton.mpr ⟨rfl, rfl, rfl⟩⟩
  · exact ⟨_, _, .list rfl (by simp) .nil, .map rfl (by simp) .nil, .nil⟩
  · exact ⟨_, _, .list rfl (forall_mem_singleton.mpr ⟨rfl, rfl, rfl⟩)
      (pairwise_singleton _ _), .map rfl (forall_mem_singleton.mpr ⟨rfl, rfl, rfl⟩)
      (pairwise_singleton _ _), .cons ⟨rfl, rfl, .some hports⟩ .nil⟩

theorem graph_and_problems_of_rewritten_sample :
    WorkflowRewritten listedSample mappedSample ∧
    (∃ g g', FlowGraph.of listedSample = .ok g ∧ FlowGraph.of mappedSample = .ok g' ∧
      g.nodes.map FlowGraph.said = g'.nodes.map FlowGraph.said ∧ g.edges = g'.edges) ∧
    ∃ w w', ofProcess listedSample = .ok w ∧ ofProcess mappedSample = .ok w' ∧
      (w.connectionProblems alignKnown).1.map said = (w'.connectionProblems alignKnown).1.map said ∧
      (w.connectionProblems alignKnown).2.isOk = (w'.connectionProblems alignKnown).2.isOk :=
  ⟨sample_rewritten, graph_and_problems_of_rewritten sample_rewritten alignKnown⟩

end Workflow
end CwlService
