import CwlService.Proofs.Analysis.Visits

/-! # What the visit of a record finds

The fields of a record are visited one by one, and the findings of the record are those of
its fields. Only the field `run` of a step sets an interface, and only the field `steps` of a
workflow has steps. -/
namespace CwlService.Analysis

open Node (AllMaps TextKeys)
open List

variable {S : Scene} {ctx : Context}

/-! ## What is asked of a document -/

/-- The entries of a map that does not call itself a step, nor anything in it. -/
structure Tidy (es : Node.Entries) : Prop where
  textKeys : TextKeys es
  className : ∀ c, es.field? "class" = some c →
    c.isKey = true ∧ c.isName "WorkflowStep" = false
  noStep : ∀ e ∈ es, e.1.isName "WorkflowStep" = false

instance {es : Node.Entries} : Decidable (Tidy es) :=
  decidable_of_iff (TextKeys es ∧ ((es.field? "class").all fun c =>
      c.isKey && !c.isName "WorkflowStep") = true ∧ ∀ e ∈ es, e.1.isName "WorkflowStep" = false) <| by
    constructor
    · rintro ⟨hkeys, hclass, hstep⟩
      refine ⟨hkeys, fun c hc => ?_, hstep⟩
      simpa [hc] using hclass
    · rintro ⟨hkeys, hclass, hstep⟩
      refine ⟨hkeys, ?_, hstep⟩
      cases hc : es.field? "class" with
      | none => rfl
      | some c => simpa using hclass c hc

variable {node : Node} {m : Meaning} {fields : Fields} {e : Node × Node} {find : Finder} {visit : Visit}
  {entries : List (Node × Node)} {α : Type} {p : α → Bool} {s s' : Analysis × Yaml.Reader} {w : Workflow}
  {f : Findings} {xs : List α}

theorem explicitType_of_tidy (h : AllMaps Tidy node) (key : Option Node) :
    ∀ c, explicitType node key none = some c → c.isName "WorkflowStep" = false := by
  intro c hc
  obtain ⟨n, hn, hnull⟩ := Option.bind_eq_some_iff.mp hc
  split at hnull
  · cases hnull
  · cases hnull
    cases node with
    | map form es => exact (h.1.className c hn).2
    | _ => cases hn

theorem meaning_orderly (hS : S.Sound) {q role} (hallowed : ∀ t ∈ q.allowed, t.orderly role = true)
    (hclass : ∀ c, explicitType q.node q.key q.map = some c → c.isName "WorkflowStep" = false)
    (h : S.env.meaning q = .ok m) : m.TypedIn fun t => t.orderly role = true := by
  rw [hS.meaning] at h
  exact infer_orderly hS.orderly hallowed hclass m h

/-- Visits that find what there is to find, whatever the node is wanted for. -/
def Visits (S : Scene) (visit : Visit) (find : Finder) : Prop :=
  ∀ (role : Role) (m : Meaning) (node : Node) (ctx : Context) (map : Option MapKey)
    (key value : Option Span), m.TypedIn (fun t => t.orderly role = true) → AllMaps Tidy node →
    ctx.unlisted = [] →
    Finds S ctx (visit m node ctx map key value) (find m node map key value) fun ctx' =>
      ctx'.unlisted = [] ∧ stepProcess m node ctx'.linked = stepProcess m node (S.linked m value)

/-- Only in steps there are interfaces to find, and only in listings of steps there are steps. -/
structure Finder.Confined (find : Finder) : Prop where
  interface : ∀ {role : Role} {m : Meaning}, m.TypedIn (fun t => t.orderly role = true) → role ≠ .step →
    ∀ node map key value, (find m node map key value).interface = none
  attached : ∀ {role : Role} {m : Meaning}, m.TypedIn (fun t => t.orderly role = true) → role ≠ .steps →
    ∀ node map key value, (find m node map key value).attached = []

/-! ## What a field is taken for -/

theorem enterField_finds (fields node k key value) :
    Finds S ctx (enterField fields node k key value) {} fun spans => spans = fieldSpans node k key value := by
  unfold enterField fieldSpans
  split
  · refine .lift_bind fun k' hk' => .lift_bind fun v' hv' => .nothing_bind (.hint _ _) fun _ _ => .pure ?_
    rw [hk', hv']
    rfl
  · exact .pure rfl

theorem classHint_finds (k : Node) (here : Context) (value : Option Span) :
    Finds S ctx (classHint k here value) {} fun _ => True :=
  .ite (fun _ => .hint _ _) fun _ => .pure trivial

theorem taken_snd (record : Node) (fields : Fields) (k child : Node) (key : Option Span) :
    (S.taken record fields k child key).2 = (S.taken record fields k child none).2 := by
  cases k with
  | text name styled =>
    unfold Scene.taken
    dsimp only
    split_ifs <;> first | rfl | skip
    split <;> rfl
  | _ => rfl

/-- What the types of a field are wanted for. -/
def fieldRole (record k : Node) : Role := .ofField (record.isName "Workflow") (k.text?.getD "")

theorem fieldRole_ne_step (record k : Node) : fieldRole record k ≠ .step := by
  unfold fieldRole Role.ofField
  split <;> nofun

theorem taken_orderly (hS : S.Sound) {record}
    (hfields : CwlType.fieldsOrderly (record.isName "Workflow") fields = true) {k child}
    (hchild : AllMaps Tidy child) {key} (h : (S.taken record fields k child key).2 = some m) :
    m.TypedIn fun t => t.orderly (fieldRole record k) = true := by
  cases k with
  | text name styled =>
    unfold Scene.taken at h
    cases hget : fields.get? name with
    | none =>
      simp only [hget] at h
      split_ifs at h <;> cases h <;> trivial
    | some f =>
      simp only [hget] at h
      split_ifs at h
      · cases h; trivial
      · cases h; trivial
      · have hm := eq_ok_of_toOption h
        have htypes : ∀ t ∈ f.2, t.orderly (fieldRole record (.text name styled)) = true :=
          CwlType.orderly_of_field hfields hget
        exact meaning_orderly hS htypes (explicitType_of_tidy hchild _) hm
  | _ => cases h; trivial

theorem fieldMeaning_finds (record fields name styled child key) :
    Finds S ctx (fieldMeaning S.env record fields name child key)
      { problems := (S.taken record fields (.text name styled) child key).1 }
      fun m? => m? = (S.taken record fields (.text name styled) child key).2 := by
  unfold fieldMeaning Scene.taken
  dsimp only
  split
  · exact .pure rfl
  split
  · refine .nothing_bind (.modify fun a => ?_) fun _ _ => .pure rfl
    exact ⟨prefix_refl _, rfl, rfl, rfl, rfl, rfl⟩
  split
  · exact .pure rfl
  split
  · exact .pure rfl
  cases fields.get? name with
  | some f =>
    refine .lift_bind fun m hm => .pure ?_
    dsimp only
    rw [hm]
    rfl
  | none =>
    dsimp only
    refine .ite (fun _ => .throw_bind _) fun _ => ?_
    cases name.startsWith "$" with
    | true => exact .pure rfl
    | false =>
      rw [← Findings.append_empty { problems := _ }]
      exact .bind (.report _) fun _ _ => .pure rfl

/-- A key that is no text is no key of the document, so at best it is looked up as a prefix. -/
theorem oddFieldMeaning_finds (record k : Node) (key : Option Span) :
    Finds S ctx (oddFieldMeaning record k false key) {} fun m? => m? = some (.namespaced k) := by
  unfold oddFieldMeaning
  cases k with
  | seq form items =>
    refine .ite (fun _ => .pure rfl) fun _ => ?_
    exact .ite (fun _ => .throw_bind _) fun h => absurd rfl h
  | map form es => exact .ite (fun _ => .pure rfl) fun _ => .throw _
  | _ => exact .throw _

theorem entryMeaning_finds (record : Node) (fields : Fields) (k child : Node) {written}
    (hwritten : written = true → k.isText = true) (key : Option Span) :
    Finds S ctx (entryMeaning S.env record fields k child written key)
      { problems := (S.taken record fields k child key).1 }
      fun m? => m? = (S.taken record fields k child key).2 := by
  cases hk : k.isText with
  | true =>
    obtain ⟨name, styled, rfl⟩ := Node.isText_iff.mp hk
    exact fieldMeaning_finds record fields name styled child key
  | false =>
    have hmeaning : entryMeaning S.env record fields k child written key =
        oddFieldMeaning record k written key := by
      cases k <;> first | rfl | cases hk
    have htaken : S.taken record fields k child key = ([], some (.namespaced k)) := by
      cases k <;> first | rfl | cases hk
    cases written with
    | true => rw [hwritten rfl] at hk; cases hk
    | false =>
      rw [hmeaning, htaken]
      exact oddFieldMeaning_finds record k key

/-! ## A field -/

theorem sourceHints_finds (node : Node) (value : Option Span) (asHint : Node → Hint) :
    Finds S ctx (sourceHints node value asHint) {} fun _ => True := by
  unfold sourceHints
  split
  · rename_i items
    rw [← Findings.all_empty items.zipIdx]
    exact .forM fun i _ => .lift_bind fun _ _ => .hint _ _
  · exact .hint _ _

theorem setInterface_finds {i} (h : ctx.theStep = .ok i) (interface : Interface) :
    Finds S ctx (Walk.setInterface i interface) { interface := some interface } fun _ => True := by
  have hstep := step_of_theStep h
  intro s v s' hends hs
  obtain rfl := hends.modify
  have hrefl : Found S ctx {} s s := .refl hs
  refine ⟨⟨⟨hs.reader, hs.namespaces, hs.typeKeys⟩, hrefl.hints, by simp, hrefl.workflowCount,
    fun _ => .of_perm (by simp), hrefl.types, ?_, hrefl.workflows⟩, trivial⟩
  intro j _
  rw [getElem?_modify, hstep, Option.map_eq_map]
  congr 1
  funext step
  by_cases hij : i = j
  · rw [if_pos hij, if_pos (congrArg some hij)]
    rfl
  · rw [if_neg hij, if_neg fun h => hij (Option.some.inj h)]
    rfl

theorem text?_getD_beq (k : Node) (name : String) (h : name ≠ "") :
    (k.text?.getD "" == name) = k.isName name := by
  cases k with
  | text s styled => rfl
  | _ => exact beq_eq_false_iff_ne.mpr (Ne.symm h)

theorem takingHints_finds (takes child value) (asHint : Except Fault (Node → Hint)) :
    Finds S ctx (takingHints takes child value asHint) {} fun _ => True :=
  .ite (fun _ => .lift_bind fun _ _ => sourceHints_finds _ _ _) fun _ => .pure trivial

theorem namesAfter_of_run {k} (h : k.isName "run" = true) (record : Node) (m : Meaning)
    (named : List String) :
    namesAfter record k m named = named := by
  obtain ⟨styled, rfl⟩ := Node.isName_iff.mp h
  unfold namesAfter
  split <;> simp [Node.isName]

theorem noteProcess_finds (record k m child value named) :
    Finds S ctx (noteProcess record k (stepProcess m child (S.linked m value)) ctx (namesAfter record k m named))
      (S.runFindings record k m child value named) fun _ => True := by
  unfold noteProcess Scene.runFindings
  split
  · rename_i hstep
    rw [namesAfter_of_run (Bool.and_eq_true_iff.mp hstep).2]
    generalize Interface.ofProcess (stepProcess m child (S.linked m value)) = r
    obtain ⟨ds, i?⟩ := r
    have hsplit : ∀ i : Option Interface, ({ problems := ds, interface := i } : Findings) =
        { problems := ds } ++ { interface := i } := by
      simp [Findings.append_eq]
    dsimp only
    rw [hsplit]
    refine .bind (.reported (ds, i?)) fun i hi => .lift_bind fun step hstep => ?_
    obtain rfl : i? = .ok i := hi
    exact setInterface_finds hstep _
  · exact .pure trivial

theorem afterField_finds (record k m child value) {here}
    (hhere : stepProcess m child here.linked = stepProcess m child (S.linked m value)) (named) :
    Finds S ctx (afterField record k m child value ctx here named)
      (S.runFindings record k m child value named) fun names => names = namesAfter record k m named := by
  unfold afterField
  rw [hhere, ← Findings.append_empty (S.runFindings _ _ _ _ _ _)]
  refine .nothing_bind (takingHints_finds _ _ _ _) fun _ _ => .nothing_bind (takingHints_finds _ _ _ _) fun _ _ => ?_
  exact .bind (noteProcess_finds record k m child value named) fun _ _ => .pure rfl

/-- The inputs that are named once an entry is visited. -/
def Scene.named (S : Scene) (record : Node) (fields : Fields) (e : Node × Node) (named : List String) :
    List String :=
  match (S.taken record fields e.1 e.2 none).2 with
  | some m => namesAfter record e.1 m named
  | none => named

/-! ## Fields in the order of visits -/

/-- At most one entry has a name. -/
def UniqueNames (entries : List (Node × Node)) : Prop :=
  ∀ name, entries.Pairwise fun a b => a.1.isName name = true → b.1.isName name = false

theorem UniqueNames.of_textKeys {es} (h : TextKeys es) :
    UniqueNames (es.map fun e => (e.1, e.2.2)) := by
  intro name
  rw [pairwise_map]
  refine (h.unique (.str name)).imp ?_
  intro a b hab
  rwa [Node.same_text, Node.same_text] at hab

theorem UniqueNames.perm {entries'} (h : UniqueNames entries) (hperm : entries.Perm entries') :
    UniqueNames entries' := by
  intro name
  refine (h name).perm hperm ?_
  intro a b hab hb
  cases ha : a.1.isName name with
  | false => rfl
  | true => rw [hab ha] at hb; cases hb

theorem filter_eq_find?_toList (h : xs.Pairwise fun a b => p a = true → p b = false) :
    xs.filter p = (xs.find? p).toList := by
  induction h with
  | nil => rfl
  | @cons x xs hx _ ih =>
    cases hp : p x with
    | true =>
      rw [filter_cons_of_pos hp, find?_cons_of_pos hp]
      have hnone : xs.filter p = [] := filter_eq_nil_iff.mpr fun y hy => by simp [hx y hy hp]
      rw [hnone, Option.toList_some]
    | false => rw [filter_cons_of_neg (by simp [hp]), find?_cons_of_neg (by simp [hp]), ih]

theorem withFirst_eq (name entries) : withFirst name entries =
    (entries.filter fun e => e.1.isName name).reverse ++ entries.filter fun e => !e.1.isName name := by
  rw [withFirst, partition_eq_filter_filter]
  rfl

theorem withFirst_perm (name : String) (entries : List (Node × Node)) :
    (withFirst name entries).Perm entries := by
  rw [withFirst_eq]
  exact ((reverse_perm _).append_right _).trans (filter_append_perm _ _)

theorem visitOrder_perm (entries : List (Node × Node)) : (visitOrder entries).Perm entries :=
  (withFirst_perm _ _).trans (withFirst_perm _ _)

theorem visitOrder_eq (h : UniqueNames entries) :
    ∃ rest, visitOrder entries = (entries.find? fun e => e.1.isName "when").toList ++ rest ∧
      ∀ e ∈ rest, e.1.isName "when" = false := by
  have hperm := withFirst_perm "requirements" entries
  have hunique := h.perm hperm.symm
  refine ⟨(withFirst "requirements" entries).filter fun e => !e.1.isName "when", ?_, ?_⟩
  · rw [visitOrder, withFirst_eq, filter_eq_find?_toList (hunique "when"),
      Node.find?_eq_of_perm hperm (hunique "when")]
    cases entries.find? fun e => e.1.isName "when" <;> rfl
  · intro e he
    simpa using (mem_filter.mp he).2

/-- The entry of a name is found in the order of visits, too. -/
theorem visitOrder_find? (h : UniqueNames entries) (c name) :
    ((visitOrder entries).Pairwise fun a b => (c && a.1.isName name) = true → (c && b.1.isName name) = false) ∧
      (visitOrder entries).find? (fun e => c && e.1.isName name) =
        if c then entries.find? fun e => e.1.isName name else none := by
  have hperm := visitOrder_perm entries
  have hunique := h.perm hperm.symm name
  cases c with
  | true => exact ⟨hunique, Node.find?_eq_of_perm hperm hunique⟩
  | false => exact ⟨pairwise_of_forall fun _ _ => nofun, find?_eq_none.mpr fun _ _ => nofun⟩

theorem fieldFindings_of_not_run {record map key value} (h : e.1.isName "run" = false)
    (named named' : List String) :
    S.fieldFindings find record fields node map key value named e =
      S.fieldFindings find record fields node map key value named' e := by
  unfold Scene.fieldFindings Scene.runFindings
  rw [h, Bool.and_false]
  rfl

theorem named_of_not_when {record} (h : e.1.isName "when" = false) (named : List String) :
    S.named record fields e named = named := by
  unfold Scene.named
  split
  · unfold namesAfter
    split
    · rw [h, Bool.and_false]
      rfl
    · rfl
  · rfl

theorem conditionNames_eq (record : Node) (fields : Fields) (entries : List (Node × Node)) :
    S.conditionNames record fields entries = match entries.find? fun e => e.1.isName "when" with
      | none => []
      | some e => S.named record fields e [] := by
  unfold Scene.conditionNames
  cases he : entries.find? fun e => e.1.isName "when" with
  | none => rfl
  | some e =>
    have hwhen : e.1.isName "when" = true := by simpa using find?_some he
    unfold Scene.named namesAfter
    dsimp only
    rw [hwhen]
    simp only [Bool.and_true]
    generalize (S.taken record fields e.1 e.2 none).2 = m?
    cases m? with
    | none => rfl
    | some m => cases m <;> rfl

section Visits

variable (hS : S.Sound) (hvisit : Visits S visit find) {record : Node}
  (hfields : CwlType.fieldsOrderly (record.isName "Workflow") fields = true) (hctx : ctx.unlisted = [])
  (map : Option MapKey)
include hS hvisit hfields hctx

theorem visitMeaning_finds (named) {k child} (hchild : AllMaps Tidy child) {written}
    (hkey : written = true → k.isText = true) (key value) : Finds S ctx (do
      let m? ← entryMeaning S.env record fields k child written key
      visitMeaning visit record k child ctx map key value named m?)
      ({ problems := (S.taken record fields k child key).1 } ++ match (S.taken record fields k child key).2 with
        | none => {}
        | some m => find m child map key value ++ S.runFindings record k m child value named)
      fun names => names = S.named record fields (k, child) named := by
  refine .bind (entryMeaning_finds record fields k child hkey key) fun m? hm? => ?_
  subst hm?
  unfold Scene.named
  rw [← taken_snd record fields k child key]
  cases hm : (S.taken record fields k child key).2 with
  | none => exact .pure rfl
  | some m =>
    have hrole := taken_orderly hS hfields hchild hm
    have hbelow := hvisit _ m child (ctx.enter k) map key value hrole hchild hctx
    refine .bind (hbelow.inside rfl rfl) fun here hhere => ?_
    exact afterField_finds record k m child value hhere.2 named

theorem visitField_finds (key value : Option Span) (named : List String) (hchild : AllMaps Tidy e.2)
    (hkey : node.isMap = true → e.1.isText = true) :
    Finds S ctx (visitField S.env visit record fields node ctx map key value named e)
      (S.fieldFindings find record fields node map key value named e)
      fun names => names = S.named record fields e named := by
  unfold visitField Scene.fieldFindings
  refine .nothing_bind (enterField_finds fields node e.1 key value) fun spans hspans => ?_
  subst hspans
  refine .nothing_bind (classHint_finds _ _ _) fun _ _ => ?_
  exact visitMeaning_finds hS hvisit hfields hctx map named hchild hkey _ _

/-- What the visits of all fields find: the condition is visited first, so its names are known
when the process of a step is. -/
theorem visitFields_finds (key value) (hunique : UniqueNames entries)
    (hentries : ∀ e ∈ entries, AllMaps Tidy e.2 ∧ (node.isMap = true → e.1.isText = true)) :
    Finds S ctx ((visitOrder entries).foldlM (visitField S.env visit record fields node ctx map key value) [])
      (.all (S.fieldFindings find record fields node map key value
        (S.conditionNames record fields entries)) (visitOrder entries)) fun _ => True := by
  have heach := fun named e (he : e ∈ visitOrder entries) =>
    have htidy := hentries e ((visitOrder_perm entries).mem_iff.mp he)
    visitField_finds hS hvisit hfields hctx map key value named htidy.1 htidy.2
  obtain ⟨rest, horder, hrest⟩ := visitOrder_eq hunique
  generalize hnamed : S.conditionNames record fields entries = named
  rw [conditionNames_eq] at hnamed
  rw [horder] at heach ⊢
  have hothers : ∀ names, ∀ e ∈ rest, names = named →
      Finds S ctx (visitField S.env visit record fields node ctx map key value names e)
        (S.fieldFindings find record fields node map key value named e) fun names => names = named := by
    intro names e he hnames
    subst hnames
    refine (heach names e (mem_append_right _ he)).imp fun _ h => ?_
    rw [h, named_of_not_when (hrest e he)]
  cases hwhen : entries.find? fun e => e.1.isName "when" with
  | none =>
    simp only [hwhen] at hnamed
    exact (Finds.foldlM hothers hnamed).imp fun _ _ => trivial
  | some e =>
    simp only [hwhen] at hnamed heach
    have hrun : e.1.isName "run" = false := by
      have hname : e.1.isName "when" = true := by simpa using find?_some hwhen
      obtain ⟨styled, hk⟩ := Node.isName_iff.mp hname
      rw [hk]
      rfl
    rw [Option.toList_some, singleton_append, foldlM_cons, Findings.all_cons,
      fieldFindings_of_not_run hrun named []]
    refine .bind (heach [] e (by simp)) fun names hnames => ?_
    exact (Finds.foldlM hothers (hnames.trans hnamed)).imp fun _ _ => trivial

end Visits

/-! ## Records -/

theorem recordEntries_tidy (hnode : AllMaps Tidy node) {map}
    (h : recordEntries node map = some entries) : UniqueNames entries ∧
      ∀ e ∈ entries, AllMaps Tidy e.2 ∧ (node.isMap = true → e.1.isText = true) := by
  unfold recordEntries at h
  split at h
  · rename_i form es
    cases h
    refine ⟨.of_textKeys hnode.1.textKeys, ?_⟩
    intro e he
    obtain ⟨f, hf, rfl⟩ := mem_map.mp he
    exact ⟨Node.entriesAllMaps_iff.mp hnode.2 f hf, fun _ => hnode.1.textKeys.isText f hf⟩
  · rename_i hmap
    obtain ⟨m, _, rfl⟩ := Option.map_eq_some_iff.mp h
    refine ⟨fun _ => pairwise_singleton _ _, ?_⟩
    intro e he
    rw [mem_singleton.mp he]
    refine ⟨hnode, fun h => ?_⟩
    cases node <;> first | exact absurd rfl (hmap _ _) | cases h

theorem flatMap_eq_find? {β : Type} {f : α → List β} (hother : ∀ x ∈ xs, p x = false → f x = [])
    (hunique : xs.Pairwise fun a b => p a = true → p b = false) :
    xs.flatMap f = ((xs.find? p).map f).getD [] := by
  have hfilter : xs.flatMap f = (xs.filter p).flatMap f := by
    clear hunique
    induction xs with
    | nil => rfl
    | cons x xs ih =>
      rw [forall_mem_cons] at hother
      rw [flatMap_cons, ih hother.2]
      cases hp : p x with
      | true => rw [filter_cons_of_pos hp, flatMap_cons]
      | false => rw [filter_cons_of_neg (by simp [hp]), hother.1 hp, nil_append]
  rw [hfilter, filter_eq_find?_toList hunique]
  cases xs.find? p with
  | none => rfl
  | some x => simp

theorem openWorkflow_ends {index} (h : Ends (Walk.openWorkflow w) s index s') :
    index = s.1.workflows.length ∧ s' = ({ s.1 with workflows := s.1.workflows ++ [(w, [])] }, s.2) := by
  obtain ⟨a', r'⟩ := s'
  cases h
  exact ⟨rfl, rfl⟩

theorem Found.of_openWorkflow
    (h : Found S { ctx with workflow := some s.1.workflows.length } f
    ({ s.1 with workflows := s.1.workflows ++ [(w, [])] }, s.2) s') :
    Found S ctx { f with attached := [] } s s' ∧
      s'.1.workflows[s.1.workflows.length]? = some (w, .all f.attached) := by
  have hcount := h.workflowCount
  simp only [length_append, length_singleton] at hcount
  refine ⟨⟨h.standing, h.hints, h.stepCount, by omega, h.problems, h.types, h.steps, ?_⟩, ?_⟩
  · intro i hi
    rw [h.workflows i (by simp; omega), getElem?_append_left hi, ite_self, if_neg]
    simp
    omega
  · rw [h.workflows _ (by simp), if_pos rfl, getElem?_append_right (Nat.le_refl _), Nat.sub_self]
    rfl

section Fields

variable {find : Finder} (hfind : find.Confined) (hS : S.Sound) {record : Node} {fields : Fields}
  (hfields : CwlType.fieldsOrderly (record.isName "Workflow") fields = true) (node : Node)
  (map : Option MapKey) (key value : Option Span) (named : List String)
include hfind hS hfields

theorem fieldFindings_interface (hchild : AllMaps Tidy e.2)
    (h : (record.isName "WorkflowStep" && e.1.isName "run") = false) :
    (S.fieldFindings find record fields node map key value named e).interface = none := by
  unfold Scene.fieldFindings Scene.runFindings
  rw [h]
  dsimp only
  split
  · rfl
  · rename_i m hm
    have hrole := taken_orderly hS hfields hchild hm
    simp [hfind.interface hrole (fieldRole_ne_step record e.1)]

theorem fieldFindings_attached (hchild : AllMaps Tidy e.2)
    (h : (record.isName "Workflow" && e.1.isName "steps") = false) :
    (S.fieldFindings find record fields node map key value named e).attached = [] := by
  unfold Scene.fieldFindings Scene.runFindings
  dsimp only
  split
  · rfl
  · rename_i m hm
    have hrole := taken_orderly hS hfields hchild hm
    have hsteps : fieldRole record e.1 ≠ .steps := by
      unfold fieldRole Role.ofField
      rw [text?_getD_beq e.1 "steps" (by decide), h]
      nofun
    rw [Findings.attached_append, Findings.attached_append, hfind.attached hrole hsteps]
    split <;> rfl

variable {entries : List (Node × Node)} (hunique : UniqueNames entries) (hentries : ∀ e ∈ entries, AllMaps Tidy e.2)
include hunique hentries

theorem allFields_interface : (Findings.all (S.fieldFindings find record fields node map key value named)
      (visitOrder entries)).interface =
      if record.isName "WorkflowStep" then (entries.find? fun e => e.1.isName "run").bind fun e =>
        (S.fieldFindings find record fields node map key value named e).interface else none := by
  obtain ⟨hone, hfind?⟩ := visitOrder_find? hunique (record.isName "WorkflowStep") "run"
  rw [Findings.interface_all (fun e he => fieldFindings_interface hfind hS hfields node map key value named
    (hentries e ((visitOrder_perm entries).mem_iff.mp he))) hone, hfind?]
  split <;> rfl

theorem allFields_attached : (Findings.all (S.fieldFindings find record fields node map key value named)
      (visitOrder entries)).attached =
      if record.isName "Workflow" then ((entries.find? fun e => e.1.isName "steps").map fun e =>
        (S.fieldFindings find record fields node map key value named e).attached).getD [] else [] := by
  obtain ⟨hone, hfind?⟩ := visitOrder_find? hunique (record.isName "Workflow") "steps"
  rw [Findings.attached_all, flatMap_eq_find?
    (fun e he => fieldFindings_attached hfind hS hfields node map key value named
    (hentries e ((visitOrder_perm entries).mem_iff.mp he))) hone, hfind?]
  split <;> rfl

end Fields

/-- The connections of a workflow were checked to the end. -/
def Checked (inputs outputs steps : Node) (attached : List (Node × Interface)) : Prop :=
  ∃ w, Workflow.of inputs outputs steps = .ok w ∧
    (w.connectionProblems (Workflow.Steps.all attached)).2 = .ok ()

theorem visitWorkflow_finds {record} (hflow : record.isName "Workflow" = true) (form : Form)
    (es : Node.Entries) {body : Context → Walk Unit}
    (hbody : ∀ ctx' : Context, ctx'.unlisted = [] → Finds S ctx' (body ctx') f fun _ => True)
    (hctx : ctx.unlisted = []) : Finds S ctx (do
      let ctx ← enterWorkflow record (.map form es) ctx
      body ctx
      checkConnections record ctx
      pure ctx)
      { f with problems := f.problems ++ flowProblems (.map form es) f.attached, attached := [] }
      fun ctx' => ctx'.unlisted = [] ∧ Checked ((es.field? "inputs").getD .null)
        ((es.field? "outputs").getD .null) ((es.field? "steps").getD .null) f.attached := by
  have hhidden : (if ctx.path.isEmpty then ctx.unlisted else []) = [] := by rw [hctx, ite_self]
  unfold enterWorkflow checkConnections flowProblems
  simp only [hflow, if_true, hhidden, append_nil, bind_assoc]
  refine .lift_bind fun w hw => ?_
  intro s v s' hends hs
  obtain ⟨index, s₁, hopen, hends₁⟩ := hends.bind
  obtain ⟨rfl, rfl⟩ := openWorkflow_ends hopen
  rw [pure_bind] at hends₁
  obtain ⟨_, s₂, hvisits, hends₂⟩ := hends₁.bind
  have hinside := hbody { ctx with workflow := some s.1.workflows.length } hctx
  have hvisited := (hinside _ _ _ hvisits ⟨hs.reader, hs.namespaces, hs.typeKeys⟩).1
  obtain ⟨hfound, hopened⟩ := hvisited.of_openWorkflow
  obtain ⟨a, _, hget, hends₃⟩ := hends₂.bind
  obtain ⟨rfl, rfl⟩ := hget.get
  simp only [Option.getD_some, hopened] at hends₃
  obtain ⟨_, s₃, hreported, hend⟩ := hends₃.bind
  obtain ⟨rfl, rfl⟩ := hend.pure
  have hreport : ∀ r : Reported Unit, Finds S ctx (Walk.reported r) { problems := r.1 } _ := .reported
  obtain ⟨hchecked, hok⟩ := hreport _ _ _ _ hreported hfound.standing
  have herrors : (w.connectionProblems (.all f.attached)).1 = w.connectionErrors (.all f.attached) :=
    Workflow.connectionErrors_of_ends hw (Prod.ext rfl hok)
  refine ⟨(hfound.trans hchecked).congr ?_ ?_ ?_ ?_, hctx, w, hw, hok⟩
  · intro _
    rw [hw, Findings.problems_append, herrors]
  · simp
  · simp
  · simp

/-- The steps that a record attaches to a workflow. -/
def Scene.stepsOf (S : Scene) (find : Finder) (record : Node) (fields : Fields) (node : Node)
    (map : Option MapKey) (key value : Option Span) (entries : List (Node × Node)) :
    List (Node × Interface) :=
  ((entries.find? fun e => e.1.isName "steps").map fun e => (S.fieldFindings find record fields node map
    key value (S.conditionNames record fields entries) e).attached).getD []

theorem visitRecord_finds (hS : S.Sound) (hvisit : Visits S visit find) (hfind : find.Confined)
    {record} (hfields : CwlType.fieldsOrderly (record.isName "Workflow") fields = true)
    (hnode : AllMaps Tidy node) (hctx : ctx.unlisted = []) (map key value) :
    Finds S ctx (visitRecord S.env visit record fields node ctx map key value)
      (S.recordFindings find record fields node map key value) fun ctx' => ctx'.unlisted = [] ∧
        (record.isName "Workflow" = true → ∀ form es, node = .map form es →
          Checked ((Node.Entries.field? es "inputs").getD .null) ((Node.Entries.field? es "outputs").getD .null)
            ((Node.Entries.field? es "steps").getD .null)
            (S.stepsOf find record fields node map key value (es.map fun e => (e.1, e.2.2)))) := by
  unfold visitRecord Scene.recordFindings
  cases hentries : recordEntries node map with
  | none =>
    refine .pure ⟨hctx, ?_⟩
    rintro _ form es rfl
    cases hentries
  | some entries =>
    obtain ⟨hunique, htidy⟩ := recordEntries_tidy hnode hentries
    dsimp only
    have hperm := visitOrder_perm entries
    have hfold : ∀ {ctx : Context}, ctx.unlisted = [] → _ := fun hctx =>
      (visitFields_finds hS hvisit hfields hctx map key value hunique htidy).discarded
    have hsteps : S.stepsOf find record fields node map key value entries =
        ((entries.find? fun e => e.1.isName "steps").map fun e => (S.fieldFindings find record fields node
          map key value (S.conditionNames record fields entries) e).attached).getD [] := rfl
    generalize S.conditionNames record fields entries = named at hfold hsteps ⊢
    have hinterface := allFields_interface hfind hS hfields node map key value named hunique
      fun e he => (htidy e he).1
    have hattached := allFields_attached hfind hS hfields node map key value named hunique
      fun e he => (htidy e he).1
    generalize S.fieldFindings find record fields node map key value named = each at *
    have hproblems : (Findings.all each (visitOrder entries)).problems.Perm
        (entries.flatMap fun e => (each e).problems) := by
      rw [Findings.problems_all]
      exact hperm.flatMap_right _
    have himports : ∀ t, t ∈ (Findings.all each (visitOrder entries)).imports ↔
        t ∈ entries.flatMap fun e => (each e).imports := by
      intro t
      rw [Findings.imports_all]
      exact (hperm.flatMap_right _).mem_iff
    cases hflow : record.isName "Workflow" with
    | false =>
      rw [hflow, if_neg Bool.false_ne_true] at hattached
      unfold enterWorkflow checkConnections
      simp only [hflow, Bool.false_eq_true, if_false, pure_bind]
      refine Finds.congr (f := .all each (visitOrder entries) ++ {}) ?_ ?_ ?_ ?_ ?_
      · exact .bind (hfold hctx) fun _ _ => .pure ⟨hctx, nofun⟩
      all_goals rw [Findings.append_empty]
      · simpa using hproblems
      · exact himports
      · exact hinterface
      · exact hattached
    | true =>
      rw [hflow, if_pos rfl, ← hsteps] at hattached
      cases node with
      | map form es =>
        have hvisited := visitWorkflow_finds hflow form es (fun _ hctx => hfold hctx) hctx
        cases hentries
        rw [hattached] at hvisited
        refine Finds.congr (hvisited.imp fun _ h => ⟨h.1, fun _ form' es' hnode' => ?_⟩) ?_ himports hinterface rfl
        · cases hnode'
          exact h.2
        · rw [← hsteps]
          exact hproblems.append_right _
      | _ =>
        unfold enterWorkflow
        rw [if_pos hflow]
        exact .throw_bind _

end CwlService.Analysis
