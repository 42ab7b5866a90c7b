import CwlService.Proofs.Analysis.Records

/-! # What the visit of a document finds

What is found in lists and maps is put together from their parts, and what is found in a
document by going deeper and deeper. -/
namespace CwlService.Analysis

open Node (AllMaps TextKeys)
open List

variable {S : Scene} {ctx : Context}

/-! ## Lists -/

theorem visitParts_finds (visit : Visit) (types : List CwlType) (hctx : ctx.unlisted = [])
    {parts : List (Node × Except Fault Span)} (h : ∀ p ∈ parts, ∃ fault, p.2 = .error fault) :
    Finds S ctx (parts.foldlM (fun ctx (item, span) => do
        let m ← S.env.meaning ⟨item, types, none, none⟩
        visit m item ctx none none (some (← span))) ctx) {} fun ctx' => ctx'.unlisted = [] := by
  rw [← Findings.all_empty parts]
  refine .foldlM (fun ctx' p hp _ => .lift_bind fun m _ => .lift_bind fun span hspan => ?_) hctx
  obtain ⟨fault, hfault⟩ := h p hp
  rw [hfault] at hspan
  cases hspan

theorem valueSpan_num {form es} (h : TextKeys es) (n : Nat) :
    ∃ fault, Node.valueSpan (.map form es) (.num n) = .error fault := by
  have hunder : es.under? (.num n) = none := by
    refine find?_eq_none.mpr fun e he => ?_
    obtain ⟨s, styled, hs⟩ := Node.isText_iff.mp (h.isText e he)
    rw [hs]
    simp [Node.same, Node.number?]
  have hplaces : ∃ fault, Node.entryPlaces (.map form es) (.num n) = .error fault := by
    unfold Node.entryPlaces
    dsimp only
    rw [hunder]
    split
    · exact ⟨_, rfl⟩
    · dsimp only [Option.bind_none]
      split <;> exact ⟨_, rfl⟩
  obtain ⟨fault, hfault⟩ := hplaces
  exact ⟨fault, by rw [Node.valueSpan, hfault]; rfl⟩

theorem item_tidy {items} (h : Node.ItemsAllMaps Tidy items) {i} (hi : i ∈ items.zipIdx) : AllMaps Tidy i.1.2 :=
  Node.itemsAllMaps_iff.mp h i.1 (fst_mem_of_mem_zipIdx hi)

variable {m : Meaning} {id name node : Node} {find : Finder} {visit : Visit} {l : Listing} {f : Findings}
  {s s' : Analysis × Yaml.Reader} {e : ListingEntry} {mapKey : MapKey} {role : Role}

section Items

variable (hS : S.Sound) {find : Finder} (hfind : find.Confined) {types : List CwlType}
  (htypes : CwlType.allOrderly .plain types = true) {form : Form} {items : Node.Items}
  (hitems : Node.ItemsAllMaps Tidy items) {i : (Option Place × Node) × Nat} (hi : i ∈ items.zipIdx)
include hS htypes hitems hi

theorem item_orderly (h : S.env.meaning ⟨i.1.2, types, none, none⟩ = .ok m) :
    m.TypedIn fun t => t.orderly .plain = true :=
  meaning_orderly hS (CwlType.allOrderly_iff.mp htypes) (explicitType_of_tidy (item_tidy hitems hi) _) h

include hfind in
theorem itemFindings_plain (node : Node) : (S.itemFindings find types node i).interface = none ∧
    (S.itemFindings find types node i).attached = [] := by
  unfold Scene.itemFindings
  split
  · rename_i m hm
    have hrole := item_orderly hS htypes hitems hi hm
    exact ⟨hfind.interface hrole (by decide) _ _ _ _, hfind.attached hrole (by decide) _ _ _ _⟩
  · exact ⟨rfl, rfl⟩

end Items

variable {types : List CwlType}

theorem visitItems_finds (hS : S.Sound) (hvisit : Visits S visit find) (hfind : find.Confined)
    (htypes : CwlType.allOrderly .plain types = true) (hnode : AllMaps Tidy node) (hctx : ctx.unlisted = []) :
    Finds S ctx (visitItems S.env visit types node ctx) (S.arrayFindings find types node)
      fun ctx' => ctx'.unlisted = [] := by
  unfold visitItems
  refine .lift_bind fun parts hparts => ?_
  unfold partsOf at hparts
  split at hparts <;> cases hparts
  · rename_i form items
    rw [foldlM_map]
    refine Finds.congr (f := .all (S.itemFindings find types (.seq form items)) items.zipIdx) ?_ ?_ ?_ ?_ ?_
    · refine .foldlM (fun ctx' i hi hctx' => .lift_bind fun m hm => .lift_bind fun span hspan => ?_) hctx
      have hrole := item_orderly hS htypes hnode hi hm
      unfold Scene.itemFindings
      rw [hm, hspan]
      have hitem := hvisit .plain m i.1.2 ctx' none none (some span) hrole (item_tidy hnode hi) hctx'
      have hplain := hitem.anywhere (hfind.interface hrole (by decide) _ _ _ _)
        (hfind.attached hrole (by decide) _ _ _ _) ctx
      exact hplain.imp fun _ h => h.1
    · rw [Findings.problems_all]
      exact .refl _
    · rw [Findings.imports_all]
      exact fun _ => Iff.rfl
    · exact Findings.interface_all_none fun i hi =>
        (itemFindings_plain hS hfind htypes hnode hi (.seq form items)).1
    · rw [Findings.attached_all]
      exact flatMap_eq_nil_iff.mpr fun i hi =>
        (itemFindings_plain hS hfind htypes hnode hi (.seq form items)).2
  · rename_i form es
    refine visitParts_finds visit types hctx fun p hp => ?_
    obtain ⟨e, _, rfl⟩ := mem_map.mp hp
    exact valueSpan_num hnode.1.textKeys e.2
  · refine visitParts_finds visit types hctx fun p hp => ?_
    obtain ⟨c, _, rfl⟩ := mem_map.mp hp
    exact ⟨_, rfl⟩
  · refine visitParts_finds visit types hctx fun p hp => ?_
    obtain ⟨b, _, rfl⟩ := mem_map.mp hp
    exact ⟨_, rfl⟩

/-! ## Hints -/

theorem interfaceOf_finds (step : Nat) : Finds S ctx (Walk.interfaceOf step) {} fun _ => True :=
  .get_bind fun _ _ _ => .pure trivial

theorem emptyHints_finds (name node : Node) (here : Context) (value : Option Span) :
    Finds S ctx (emptyHints name node here value) {} fun _ => True := by
  unfold emptyHints
  refine .ite (fun _ => .pure trivial) fun _ => .ite (fun _ => .hint _ _) fun _ =>
    .ite (fun _ => ?_) fun _ => .ite (fun _ => ?_) fun _ => ?_
  · split
    · exact .nothing_bind (interfaceOf_finds _) fun _ _ => .hint _ _
    · exact .pure trivial
  · split
    · exact .hint _ _
    · exact .pure trivial
  · exact .pure trivial

theorem entryHints_finds (name : Node) (here : Context) (l : Listing) (e : ListingEntry) :
    Finds S ctx (entryHints name here l e) {} fun _ => True := by
  unfold entryHints
  refine .ite (fun _ => .pure trivial) fun _ => .ite (fun _ => .lift_bind fun _ _ => .hint _ _) fun _ =>
    .ite (fun _ => ?_) fun _ => .ite (fun _ => ?_) fun _ => .pure trivial
  · split
    · exact .pure trivial
    · refine .lift_bind fun _ _ => .nothing_bind (interfaceOf_finds _) fun _ _ => ?_
      refine .nothing_bind (.hint _ _) fun _ _ => ?_
      exact .ite (fun _ => .lift_bind fun _ _ => .hint _ _) fun _ => .pure trivial
  · refine .ite (fun _ => ?_) fun _ => .pure trivial
    exact .lift_bind fun _ _ => .lift_bind fun _ _ => .hint _ _

/-! ## Entries -/

/-- What the items of a listing are wanted for. -/
def itemRole (name : Node) : Role := if name.isName "steps" then .step else .plain

/-- What is asked of an entry. -/
structure EntryTidy (l : Listing) (e : ListingEntry) : Prop where
  value : AllMaps Tidy e.value
  noStep : l.form = .map → e.key.isName "WorkflowStep" = false

theorem entries_tidy {keyField} (hnode : AllMaps Tidy node)
    (h : (Listing.of node keyField).2 = .ok l) :
    ∀ e ∈ l.entries, EntryTidy l e := by
  intro e he
  refine ⟨Listing.allMaps_of_listed h hnode e he, fun hform => ?_⟩
  cases Listing.lists_of h with
  | map form es =>
    obtain ⟨f, hf, rfl⟩ := mem_map.mp he
    exact hnode.1.noStep f hf
  | _ => cases hform

/-- What an entry adds to the findings of a listing. -/
def entryShare (name key : Node) (f : Findings) : Findings :=
  { problems := f.problems
    imports := f.imports
    attached := if name.isName "steps" then [(key, f.interface.getD {})] else [] }

theorem entryShare_plain (h : name.isName "steps" = false) (key) (hinterface : f.interface = none)
    (hattached : f.attached = []) : entryShare name key f = f := by
  obtain ⟨problems, imports, interface, attached⟩ := f
  cases hinterface
  cases hattached
  rw [entryShare, h]
  rfl

theorem openStep_ends {index} (h : Ends (Walk.openStep id) s index s') : index = s.1.steps.length ∧
      s' = ({ s.1 with steps := s.1.steps ++ [⟨id, {}, none⟩] }, s.2) := by
  obtain ⟨a', r'⟩ := s'
  cases h
  exact ⟨rfl, rfl⟩

theorem Found.of_openStep
    (h : Found S { ctx with step := some s.1.steps.length } f
    ({ s.1 with steps := s.1.steps ++ [⟨id, {}, none⟩] }, s.2) s') :
    Found S ctx { f with interface := none } s s' ∧
      s'.1.steps[s.1.steps.length]? = some ⟨id, f.interface.getD {}, none⟩ := by
  have hcount := h.stepCount
  simp only [length_append, length_singleton] at hcount
  refine ⟨⟨h.standing, h.hints, by omega, h.workflowCount, h.problems, h.types, ?_, h.workflows⟩, ?_⟩
  · intro i hi
    rw [h.steps i (by simp; omega), getElem?_append_left hi, ite_self, if_neg]
    simp
    omega
  · rw [h.steps _ (by simp), if_pos rfl, getElem?_append_right (Nat.le_refl _), Nat.sub_self]
    rfl

theorem Found.attach {s'' workflow step st u} (h : Found S ctx f s s')
    (hstep : s.1.steps.length ≤ step) (hst : s'.1.steps[step]? = some st)
    (hworkflow : ctx.theWorkflow = .ok workflow) (hends : Ends (Walk.attach workflow step) s' u s'') :
    Found S ctx (f ++ { attached := [(st.id, st.interface)] }) s s'' := by
  have hctx := workflow_of_theWorkflow hworkflow
  obtain rfl := hends.modify
  rw [hst]
  refine ⟨⟨h.standing.reader, h.standing.namespaces, h.standing.typeKeys⟩, h.hints, by simpa using h.stepCount,
    by simpa using h.workflowCount, ?_, ?_, ?_, ?_⟩
  · intro hinformed
    rw [Findings.problems_append, append_nil]
    exact h.problems ⟨hinformed.hints, hinformed.types⟩
  · intro t
    rw [Findings.imports_append, append_nil]
    exact h.types t
  · intro i hi
    have hne : step ≠ i := by omega
    rw [Findings.interface_append, Option.none_or, ← h.steps i hi, getElem?_modify, Option.map_eq_map]
    simp only [if_neg hne, Option.map_id']
  · intro i hi
    rw [getElem?_modify, h.workflows i hi, Option.map_eq_map, Option.map_map, hctx]
    congr 1
    funext w
    by_cases hi : workflow = i
    · simp [hi, withSteps]
    · simp [hi]

theorem entry_orderly (hS : S.Sound)
    (htypes : ∀ t ∈ types, t.orderly (itemRole name) = true) (he : EntryTidy l e)
    (h : S.env.meaning ⟨e.value, types, if l.form == .map then some e.key else none,
      if l.form == .map then some mapKey else none⟩ = .ok m) :
    m.TypedIn fun t => t.orderly (itemRole name) = true := by
  refine meaning_orderly hS htypes ?_ h
  dsimp only
  split
  · rename_i hform
    intro c hc
    obtain ⟨n, hn, hnull⟩ := Option.bind_eq_some_iff.mp hc
    dsimp only at hn
    split at hn <;> cases hn
    split at hnull <;> cases hnull
    exact he.noStep (eq_of_beq hform)
  · exact explicitType_of_tidy he.value none

theorem visitEntry_finds (hS : S.Sound) (hvisit : Visits S visit find) (hfind : find.Confined)
    (htypes : ∀ t ∈ types, t.orderly (itemRole name) = true) (mapKey : MapKey)
    (hctx : ctx.unlisted = []) (he : EntryTidy l e) :
    Finds S ctx (visitEntry S.env visit name types mapKey ctx l e)
      (entryShare name e.key (S.entryFindings find name types mapKey l e)) fun _ => True := by
  unfold visitEntry Scene.entryFindings
  refine .lift_bind fun m hm => ?_
  have hrole := entry_orderly hS htypes he hm
  simp only [hm]
  rw [← Findings.append_empty (entryShare ..)]
  refine .bind (Q := fun _ => True) ?_ fun _ _ => entryHints_finds name ctx l e
  cases hsteps : name.isName "steps" with
  | false =>
    have hplain : itemRole name = .plain := by rw [itemRole, hsteps]; rfl
    rw [hplain] at hrole
    refine .lift_bind fun key hkey => .lift_bind fun value hvalue => ?_
    rw [hkey, hvalue]
    cases hunknown : name.isName "requirements" && isUnknown m with
    | true =>
      simp only [if_true, entryShare_plain hsteps e.key]
      exact .lift_bind fun _ _ => .hint _ _
    | false =>
      simp only [Bool.false_eq_true, if_false]
      rw [entryShare_plain hsteps e.key
        (hfind.interface hrole (by decide) _ _ _ _) (hfind.attached hrole (by decide) _ _ _ _)]
      have hvalue := hvisit .plain m e.value (ctx.enter e.key) (some mapKey) (some key) (some value) hrole
        he.value hctx
      exact hvalue.discarded.inside rfl rfl
  | true =>
    have hstep : itemRole name = .step := by rw [itemRole, hsteps]; rfl
    rw [hstep] at hrole
    have hknown : (name.isName "requirements" && isUnknown m) = false := by
      obtain ⟨styled, rfl⟩ := Node.isName_iff.mp hsteps
      rfl
    simp only [visitValue, hknown, Bool.false_eq_true, if_true, if_false]
    intro s v s' hends hs
    obtain ⟨index, s₁, hopen, hends₁⟩ := hends.bind
    obtain ⟨rfl, rfl⟩ := openStep_ends hopen
    obtain ⟨_, s₂, hinside, hends₂⟩ := hends₁.bind
    obtain ⟨key, _, hidSpan, hinside⟩ := hinside.bind
    obtain ⟨hkey, rfl⟩ := hidSpan.lift
    obtain ⟨value, _, hvalueSpan, hvisits⟩ := hinside.bind
    obtain ⟨hvalue, rfl⟩ := hvalueSpan.lift
    obtain ⟨workflow, _, haround, hattach⟩ := hends₂.bind
    obtain ⟨hworkflow, rfl⟩ := haround.lift
    have hinside := hvisit .step m e.value { ctx.enter e.key with step := some s.1.steps.length }
      (some mapKey) (some key) (some value) hrole he.value hctx
    have hvisited := (hinside.discarded _ _ _ hvisits ⟨hs.reader, hs.namespaces, hs.typeKeys⟩).1
    have hbegun : Found S { ctx with step := some s.1.steps.length } _ _ _ := hvisited.inside rfl rfl
    obtain ⟨hfound, hst⟩ := hbegun.of_openStep
    have hattached := hfound.attach (Nat.le_refl _) hst hworkflow hattach
    rw [hkey, hvalue]
    have hnone := hfind.attached hrole (by decide) e.value (some mapKey) (some key) (some value)
    refine ⟨hattached.congr (fun _ => ?_) (fun t => ?_) ?_ ?_, trivial⟩
    all_goals simp [entryShare, hsteps, hnone, Except.toOption]

theorem enterListing_eq {here} (h : enterListing name types ctx = .ok here) :
    ∃ requirements, here = { ctx with requirements } := by
  unfold enterListing at h
  split at h
  · obtain ⟨names, _, h⟩ := bind_eq_ok h
    exact ⟨some names, (Except.ok.inj h).symm⟩
  · exact ⟨ctx.requirements, (Except.ok.inj h).symm⟩

theorem visitListing_finds (hS : S.Sound) (hvisit : Visits S visit find) (hfind : find.Confined)
    (htypes : ∀ t ∈ types, t.orderly (itemRole name) = true) (mapKey : MapKey)
    (hnode : AllMaps Tidy node) (hctx : ctx.unlisted = []) (value : Option Span) :
    Finds S ctx (visitListing S.env visit name types mapKey node ctx value)
      (S.listingFindings find name types mapKey node) fun ctx' => ctx'.unlisted = [] := by
  unfold visitListing Scene.listingFindings
  have hlisted : ∀ l, (Listing.of node mapKey.subject).2 = .ok l → ∀ e ∈ l.entries, EntryTidy l e :=
    fun l => entries_tidy hnode
  generalize Listing.of node mapKey.subject = r at hlisted ⊢
  obtain ⟨ds, l?⟩ := r
  have hreport : Finds S ctx (Walk.reported (ds, l?)) { problems := ds } fun l => l? = .ok l := .reported _
  cases l? with
  | error fault =>
    intro s v s' hends hs
    obtain ⟨l, s₁, hreported, _⟩ := hends.bind
    cases (hreport _ _ _ hreported hs).2
  | ok l =>
    refine Finds.congr (f := { problems := ds } ++ (.all (fun e =>
      entryShare name e.key (S.entryFindings find name types mapKey l e)) l.entries ++ {})) ?_ ?_ ?_ ?_ ?_
    · refine .bind hreport fun _ hl => .lift_bind fun here hhere => ?_
      cases hl
      obtain ⟨requirements, rfl⟩ := enterListing_eq hhere
      have hentries : Finds S { ctx with requirements } _ _ _ := .forM fun e he =>
        visitEntry_finds hS hvisit hfind htypes mapKey hctx (hlisted l rfl e he)
      exact .nothing_bind (emptyHints_finds name node _ value) fun _ _ =>
        .bind (hentries.inside rfl rfl) fun _ _ => .pure hctx
    all_goals rw [Findings.append_empty]
    · rw [Findings.problems_append, Findings.problems_all]
      exact .refl _
    · rw [Findings.imports_append, Findings.imports_all]
      exact fun _ => Iff.rfl
    · rw [Findings.interface_append, Findings.interface_all_none fun _ _ => rfl]
      rfl
    · rw [Findings.attached_append, Findings.attached_all, nil_append]
      cases hsteps : name.isName "steps" with
      | true => simp [entryShare, hsteps, map_eq_flatMap]
      | false => simp [entryShare, hsteps]

/-! ## All together -/

theorem not_step_of_orderly {documented} {fields : Fields}
    (h : (CwlType.record name documented fields).orderly role = true) (hrole : role ≠ .step) :
    name.isName "WorkflowStep" = false := by
  rw [CwlType.orderly, Bool.and_eq_true, Bool.or_eq_true, beq_iff_eq] at h
  rcases h.1 with hname | hstep
  · simpa using hname
  · exact absurd hstep hrole

theorem not_steps_of_orderly
    (h : (CwlType.listOrMap name types mapKey).orderly role = true) (hrole : role ≠ .steps) :
    name.isName "steps" = false := by
  rw [CwlType.orderly] at h
  split at h
  · rw [Bool.and_eq_true, beq_iff_eq] at h
    exact absurd h.1 hrole
  · rename_i hname
    simpa using hname

theorem items_orderly (h : (CwlType.listOrMap name types mapKey).orderly role = true) :
    ∀ t ∈ types, t.orderly (itemRole name) = true := by
  rw [CwlType.orderly] at h
  unfold itemRole
  split at h
  · rename_i hname
    rw [if_pos hname]
    exact CwlType.allOrderly_iff.mp ((Bool.and_eq_true _ _).mp h).2
  · rename_i hname
    rw [if_neg hname]
    exact CwlType.allOrderly_iff.mp h

theorem findOne_confined (S : Scene) (find : Finder) : (S.findOne find).Confined := by
  refine ⟨?_, ?_⟩
  · intro role m hm hrole node map key value
    unfold Scene.findOne
    split
    · rfl
    · unfold Scene.arrayFindings
      split <;> rfl
    · unfold Scene.listingFindings
      dsimp only
      split <;> rfl
    · unfold Scene.recordFindings
      rw [not_step_of_orderly hm hrole]
      split <;> rfl
    all_goals rfl
  · intro role m hm hrole node map key value
    unfold Scene.findOne
    split
    · rfl
    · unfold Scene.arrayFindings
      split <;> rfl
    · unfold Scene.listingFindings
      rw [not_steps_of_orderly hm hrole]
      dsimp only
      split <;> rfl
    · unfold Scene.recordFindings
      split <;> rfl
    all_goals rfl

theorem findTo_confined (S : Scene) : ∀ depth, (S.findTo depth).Confined
  | 0 => ⟨fun _ _ _ _ _ _ => rfl, fun _ _ _ _ _ _ => rfl⟩
  | _ + 1 => findOne_confined S _

theorem visitOne_finds (hS : S.Sound) (hvisit : Visits S visit find) (hfind : find.Confined) :
    Visits S (visitOne S.env visit) (S.findOne find) := by
  intro role m node ctx map key value hm hnode hctx
  have hsame : ∀ {x : Walk Unit} {f : Findings}, Finds S ctx x f (fun _ => True) →
      Finds S ctx (do x; pure ctx) f fun ctx' => ctx'.unlisted = [] := by
    intro x f hx
    rw [← Findings.append_empty f]
    exact hx.bind fun _ _ => .pure hctx
  cases m with
  | typed t =>
    cases t with
    | enum name symbols => exact (hsame (visitSymbols_finds name hm node value)).imp fun _ h => ⟨h, rfl⟩
    | array name types => exact (visitItems_finds hS hvisit hfind hm hnode hctx).imp fun _ h => ⟨h, rfl⟩
    | listOrMap name types mapKey =>
      have hlisting := visitListing_finds hS hvisit hfind (items_orderly hm) mapKey hnode hctx value
      exact hlisting.imp fun _ h => ⟨h, rfl⟩
    | record name documented fields =>
      have hfields : CwlType.fieldsOrderly (name.isName "Workflow") fields = true :=
        ((Bool.and_eq_true _ _).mp hm).2
      exact (visitRecord_finds hS hvisit hfind hfields hnode hctx map key value).imp fun _ h => ⟨h.1, rfl⟩
    | _ => exact .pure ⟨hctx, rfl⟩
  | absent => exact .pure ⟨hctx, rfl⟩
  | dataType name symbols => exact (hsame (visitDataType_finds symbols node value)).imp fun _ h => ⟨h, rfl⟩
  | expression text => exact (hsame (.hint value _)).imp fun _ h => ⟨h, rfl⟩
  | namespaced name => exact (hsame (visitNamespaced_finds hS name key value)).imp fun _ h => ⟨h, rfl⟩
  | unknown name expected =>
    exact (hsame (visitUnknown_finds name expected value)).imp fun _ h => ⟨h, rfl⟩
  | linkedFile target extension =>
    rw [← Findings.append_empty (S.findOne _ _ _ _ _ _)]
    refine .bind (visitLink_finds hS target extension value .link) ?_
    rintro _ rfl
    exact .pure ⟨hctx, rfl⟩
  | linkedType target =>
    rw [← Findings.append_empty (S.findOne _ _ _ _ _ _)]
    refine .bind (visitTypeLink_finds hS target value) ?_
    rintro _ rfl
    exact .pure ⟨hctx, rfl⟩

theorem visitTo_finds (hS : S.Sound) : ∀ depth, Visits S (visitTo S.env depth) (S.findTo depth)
  | 0 => fun _ _ _ _ _ _ _ _ _ _ => .throw _
  | depth + 1 => visitOne_finds hS (visitTo_finds hS depth) (findTo_confined S depth)

end CwlService.Analysis
