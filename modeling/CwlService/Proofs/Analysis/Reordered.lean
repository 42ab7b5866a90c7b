import CwlService.Proofs.Analysis.Documents
import CwlService.Proofs.Language.Reordered

/-! # What there is to find in reordered documents

In a document and in the same one with entries of its maps in another order there is the same
to find. -/
namespace CwlService.Analysis

open Node (AllMaps TextKeys)
open List

/-! ## The same findings -/

/-- The same findings in another order. -/
structure Findings.Alike (f f' : Findings) : Prop where
  problems : f.problems.Perm f'.problems
  imports : f.imports.Perm f'.imports
  interface : f.interface = f'.interface
  attached : ∀ id, (Workflow.Steps.all f.attached).get? id = (Workflow.Steps.all f'.attached).get? id

namespace Findings.Alike

theorem refl (f : Findings) : f.Alike f := ⟨.refl _, .refl _, rfl, fun _ => rfl⟩

theorem of_problems {ds ds'} (h : ds = ds') :
    Alike { problems := ds } { problems := ds' } := by
  rw [h]
  exact refl _

variable {f f' : Findings}

theorem problems_append (h : f.Alike f') (ds : List Diagnostic) :
    Alike ({ problems := ds } ++ f) ({ problems := ds } ++ f') :=
  ⟨h.problems.append_left ds, h.imports.append_left [], congrArg (Option.or · none) h.interface, h.attached⟩

theorem append (h : f.Alike f') {g} (hg : g.attached = []) : (f ++ g).Alike (f' ++ g) := by
  refine ⟨h.problems.append_right _, h.imports.append_right _, ?_, ?_⟩
  · rw [interface_append, interface_append, h.interface]
  · rw [attached_append, attached_append, hg, append_nil, append_nil]
    exact h.attached

end Findings.Alike

/-- Finders that find the same in reordered data. -/
def Finder.Agrees (find find' : Finder) : Prop :=
  ∀ {m m' : Meaning} {node node' : Node} (map : Option MapKey) (key value : Option Span),
    m.Alike m' → Node.Reordered node node' → AllMaps Tidy node →
    (find m node map key value).Alike (find' m' node' map key value)

variable {node node' target : Node}

/-! ## Names and links -/

theorem symbolProblems_eq (symbols) (h : Node.Reordered node node') (value) :
    symbolProblems symbols node value = symbolProblems symbols node' value := by
  unfold symbolProblems
  cases hkey : node.isKey with
  | true => rw [h.eq_of_isKey hkey, hkey]
  | false => rw [← h.isKey_eq, hkey, Bool.false_and, Bool.false_and]

theorem exists_error_of_not_text {w : Workspace} {doc} (h : target.isText = false) (span r) :
    ∃ fault, ((w.followNode doc target span).run.run r).1 = .error fault := by
  unfold Workspace.followNode
  split
  · cases h
  · split_ifs <;> exact ⟨_, rfl⟩
  · exact ⟨_, rfl⟩
  · exact ⟨_, rfl⟩
  · exact ⟨_, rfl⟩
  · split_ifs <;> exact ⟨_, rfl⟩

section

variable {S : Scene}

theorem followed_of_not_key (h : target.isKey = false) (span : Option Span) :
    S.followed target span = .null ∧ S.linkProblems target span = [] := by
  have htext : target.isText = false := by
    cases target <;> first | rfl | cases h
  obtain ⟨fault, hfault⟩ := exists_error_of_not_text htext span S.start
  have hfollow : S.follow target span = .error fault := hfault
  simp only [Scene.followed, Scene.linkProblems, hfollow, Except.toOption]
  exact ⟨rfl, rfl⟩

theorem eq_of_key_items {form} {items : Node.Items} {n} (h : Node.Reordered (.seq form items) n)
    (hkeys : ∀ i ∈ items, i.2.isKey = true) :
    n = .seq form items := by
  obtain ⟨items', rfl, hitems⟩ := h.seq_left
  rw [Node.itemsReordered_iff] at hitems
  clear h
  refine congrArg (Node.seq form) ?_
  induction hitems with
  | nil => rfl
  | cons hi _ ih =>
    obtain ⟨hkey, hrest⟩ := forall_mem_cons.mp hkeys
    rw [ih hrest, Prod.ext hi.1.symm (hi.2.eq_of_isKey hkey)]

theorem prefixProblems_eq {D} (h : Node.Reordered S.namespaces D)
    (hkeys : AllMaps TextKeys S.namespaces)
    (hitems : ∀ form items, S.namespaces = .seq form items → ∀ i ∈ items, i.2.isKey = true)
    (name : Node) (key value : Option Span) : S.prefixProblems name key value =
      Scene.prefixProblems { S with namespaces := D } name key value := by
  have hsame : ∀ s, isDeclared s S.namespaces = isDeclared s D ∧
      prefixNames S.namespaces = prefixNames D := by
    intro s
    cases hdeclared : S.namespaces with
    | map form es =>
      rw [hdeclared] at h hkeys
      obtain ⟨es', rfl, hes⟩ := h.map_left
      refine ⟨congrArg pure (hes.any_eq fun _ _ he => by rw [he.key]), congrArg NameSet.members ?_⟩
      refine NameSet.ofList_eq_of_perm hes.keys_perm ?_ ?_
      · intro k hk
        obtain ⟨e, he, rfl⟩ := mem_map.mp hk
        exact hkeys.1.isText e he
      · rw [map_map]
        exact hkeys.1.distinct
    | seq form items =>
      rw [hdeclared] at h
      rw [eq_of_key_items h (hitems form items hdeclared)]
      exact ⟨rfl, rfl⟩
    | _ =>
      rw [hdeclared] at h
      rw [show D = _ from h]
      exact ⟨rfl, rfl⟩
  unfold Scene.prefixProblems
  cases name.text? with
  | none => rfl
  | some s =>
    dsimp only
    rw [(hsame _).1, (hsame s).2]

end

/-! ## Fields -/

section Record

variable {S : Scene} (hS : S.Sound)

theorem meaning_alike (hS : S.Sound) (h : Node.Reordered node node') (hnode : AllMaps Tidy node)
    (types key map) :
    SameOutcome Meaning.Alike (S.env.meaning ⟨node, types, key, map⟩) (S.env.meaning ⟨node', types, key, map⟩) := by
  rw [hS.meaning]
  refine infer_alike h (hnode.imp fun _ hes => hes.textKeys) ?_ S.env.language types key map
  intro c hc
  cases node with
  | map form es => exact (hnode.1.className c hc).1
  | _ => cases hc

variable {child child' : Node} {entries entries' : List (Node × Node)} {l l' : Listing}

theorem taken_alike (hS : S.Sound) (record fields k) (h : Node.Reordered child child')
    (hchild : AllMaps Tidy child) (key) :
    (S.taken record fields k child key).1 = (S.taken record fields k child' key).1 ∧
      Option.Rel Meaning.Alike (S.taken record fields k child key).2 (S.taken record fields k child' key).2 := by
  have hrefl : ∀ m? : Option Meaning, Option.Rel Meaning.Alike m? m? := by
    intro m?
    cases m? with
    | none => exact .none
    | some m => exact .some (.same m)
  cases k with
  | text name styled =>
    -- what a field of the record is taken for
    have hfield : ∀ types, Option.Rel Meaning.Alike
        (S.env.meaning ⟨child, types, some (.str name), none⟩).toOption
        (S.env.meaning ⟨child', types, some (.str name), none⟩).toOption := by
      intro types
      have hmeaning := meaning_alike hS h hchild types (some (.str name)) none
      generalize S.env.meaning ⟨child, types, some (.str name), none⟩ = r,
        S.env.meaning ⟨child', types, some (.str name), none⟩ = r' at hmeaning
      cases hmeaning with
      | ok hm => exact .some hm
      | error f => exact .none
    unfold Scene.taken
    dsimp only
    rw [← h.isText_eq]
    by_cases hrun : (record.isName "WorkflowStep" && name == "run" && child.isText) = true
    · have htext : child.isText = true := ((Bool.and_eq_true _ _).mp hrun).2
      have hkey : child.isKey = true := by
        obtain ⟨s, styled, rfl⟩ := Node.isText_iff.mp htext
        rfl
      rw [h.eq_of_isKey hkey]
      exact ⟨rfl, hrefl _⟩
    · cases fields.get? name with
      | some f =>
        simp only [if_neg hrun]
        split_ifs
        · exact ⟨rfl, .none⟩
        · exact ⟨rfl, .none⟩
        · exact ⟨rfl, hrefl _⟩
        · exact ⟨rfl, hfield f.2⟩
      | none =>
        simp only [if_neg hrun]
        exact ⟨trivial, hrefl _⟩
  | _ => exact ⟨rfl, hrefl _⟩

theorem fieldSpans_eq (h : Node.Reordered node node') (hnode : AllMaps Tidy node) (k : Node)
    (key value : Option Span) : fieldSpans node k key value = fieldSpans node' k key value := by
  unfold fieldSpans
  rw [← h.isMap_eq]
  cases node with
  | map form es =>
    obtain ⟨es', rfl, hes⟩ := h.map_left
    rw [hes.keySpan_eq hnode.1.textKeys, hes.valueSpan_eq hnode.1.textKeys]
  | _ => rfl

theorem runFindings_alike (record k : Node) {m m'} (hm : m.Alike m')
    (h : Node.Reordered child child') (hchild : AllMaps Tidy child) (value : Option Span)
    (named : List String) :
    S.runFindings record k m child value named = S.runFindings record k m' child' value named := by
  have hprocess : Interface.ofProcess (stepProcess m child (S.linked m value)) =
      Interface.ofProcess (stepProcess m' child' (S.linked m' value)) := by
    cases hm with
    | same m =>
      cases m with
      | linkedFile => rfl
      | linkedType => rfl
      | _ => exact Workflow.interface_eq h (hchild.imp fun _ hes => hes.textKeys)
    | file hkey hkey' =>
      simp only [stepProcess, Scene.linked, (followed_of_not_key hkey value).1,
        (followed_of_not_key hkey' value).1]
    | type hkey hkey' =>
      simp only [stepProcess, Scene.linked, (followed_of_not_key hkey value).1,
        (followed_of_not_key hkey' value).1]
  unfold Scene.runFindings
  rw [hprocess]

theorem runFindings_attached (record k : Node) (m : Meaning) (child : Node) (value : Option Span)
    (named : List String) : (S.runFindings record k m child value named).attached = [] := by
  unfold Scene.runFindings
  split <;> rfl

/-- An entry of a record, and the same one with its value reordered. -/
structure FieldReordered (e e' : Node × Node) : Prop where
  key : e.1 = e'.1
  value : Node.Reordered e.2 e'.2

variable {D : Node} {find find' : Finder} (hfind : find.Agrees find')

include hS hfind in
theorem fieldFindings_alike (record : Node) (fields : Fields) (h : Node.Reordered node node')
    (hnode : AllMaps Tidy node) (map : Option MapKey) (key value : Option Span)
    (named : List String) {e e'} (he : FieldReordered e e') (hchild : AllMaps Tidy e.2) :
    (S.fieldFindings find record fields node map key value named e).Alike
      (Scene.fieldFindings { S with namespaces := D } find' record fields node' map key value
        named e') := by
  obtain ⟨k, child⟩ := e
  obtain ⟨k', child'⟩ := e'
  obtain ⟨rfl, hvalue⟩ := he
  unfold Scene.fieldFindings
  dsimp only
  rw [← fieldSpans_eq h hnode]
  generalize fieldSpans node k key value = spans
  obtain ⟨hproblems, hmeaning⟩ := taken_alike hS record fields k hvalue hchild spans.1
  have htaken : Scene.taken { S with namespaces := D } record fields k child' spans.1 =
      S.taken record fields k child' spans.1 := rfl
  rw [htaken, ← hproblems]
  refine Findings.Alike.problems_append ?_ _
  generalize (S.taken record fields k child spans.1).2 = m?,
    (S.taken record fields k child' spans.1).2 = m?' at hmeaning
  cases hmeaning with
  | none => exact .refl _
  | @some m m' hm =>
    have hrun : Scene.runFindings { S with namespaces := D } record k m' child' spans.2 named =
        S.runFindings record k m child spans.2 named :=
      (runFindings_alike record k hm hvalue hchild spans.2 named).symm
    dsimp only
    rw [hrun]
    exact (hfind map spans.1 spans.2 hm hvalue hchild).append (runFindings_attached _ _ _ _ _ _)

theorem recordEntries_rel (h : Node.Reordered node node') (map : Option MapKey) :
    Option.Rel (Shuffled FieldReordered) (recordEntries node map) (recordEntries node' map) := by
  have hsingle : ∀ {n n' : Node}, Node.Reordered n n' → Option.Rel (Shuffled FieldReordered)
      ((map.filter fun m => !m.predicate.isNull).map fun m => [(m.predicate, n)])
      ((map.filter fun m => !m.predicate.isNull).map fun m => [(m.predicate, n')]) := by
    intro n n' hn
    cases map.filter fun m => !m.predicate.isNull with
    | none => exact .none
    | some m => exact .some (.of_forall₂ (.cons ⟨rfl, hn⟩ .nil))
  cases node with
  | map form es =>
    obtain ⟨es', rfl, inside, hinside, hperm⟩ := h.map_left
    refine .some ⟨inside.map fun e => (e.1, e.2.2), ?_, hperm.map _⟩
    rw [Node.entriesReordered_iff] at hinside
    rw [forall₂_map_left_iff, forall₂_map_right_iff]
    exact hinside.imp fun _ _ he => ⟨he.key, he.value⟩
  | seq form items =>
    obtain ⟨items', rfl, hitems⟩ := h.seq_left
    exact hsingle h
  | _ =>
    cases h
    exact hsingle rfl

theorem find?_rel (h : Shuffled FieldReordered entries entries') (hunique : UniqueNames entries)
    (name : String) : Option.Rel FieldReordered (entries.find? fun e => e.1.isName name)
      (entries'.find? fun e => e.1.isName name) := by
  obtain ⟨inside, hinside, hperm⟩ := h
  have hfound : Option.Rel FieldReordered (entries.find? fun e => e.1.isName name)
      (inside.find? fun e => e.1.isName name) := by
    clear hperm hunique
    induction hinside with
    | nil => exact .none
    | cons he _ ih =>
      rw [find?_cons, find?_cons, ← he.key]
      split
      · exact .some he
      · exact ih
  have hkeys : entries.map (·.1) = inside.map (·.1) := by
    clear hperm hfound hunique
    induction hinside with
    | nil => rfl
    | cons he _ ih => rw [map_cons, map_cons, he.key, ih]
  have hunique' : inside.Pairwise fun a b => a.1.isName name = true → b.1.isName name = false := by
    have hpairs : (entries.map (·.1)).Pairwise fun a b => a.isName name = true → b.isName name = false :=
      pairwise_map.mpr (hunique name)
    rw [hkeys] at hpairs
    exact pairwise_map.mp hpairs
  rwa [← Node.find?_eq_of_perm hperm hunique']

include hS in
theorem conditionNames_eq_of_shuffled (record : Node) (fields : Fields)
    (h : Shuffled FieldReordered entries entries') (hunique : UniqueNames entries)
    (htidy : ∀ e ∈ entries, AllMaps Tidy e.2) :
    S.conditionNames record fields entries = S.conditionNames record fields entries' := by
  have hfound := find?_rel h hunique "when"
  have hmem : ∀ e, (entries.find? fun e => e.1.isName "when") = some e → AllMaps Tidy e.2 :=
    fun e he => htidy e (mem_of_find?_eq_some he)
  unfold Scene.conditionNames
  generalize (entries.find? fun e => e.1.isName "when") = e?,
    (entries'.find? fun e => e.1.isName "when") = e?' at hfound hmem
  cases hfound with
  | none => rfl
  | @some e e' he =>
    obtain ⟨_, hmeaning⟩ := taken_alike hS record fields e.1 he.value (hmem e rfl) none
    dsimp only
    rw [← he.key]
    generalize (S.taken record fields e.1 e.2 none).2 = m?,
      (S.taken record fields e.1 e'.2 none).2 = m?' at hmeaning
    cases hmeaning with
    | none => rfl
    | some hm => cases hm <;> rfl

theorem flowProblems_perm (h : Node.Reordered node node') (hkeys : AllMaps TextKeys node)
    {attached attached'}
    (hattached : ∀ id, (Workflow.Steps.all attached).get? id = (Workflow.Steps.all attached').get? id) :
    (flowProblems node attached).Perm (flowProblems node' attached') := by
  cases node with
  | map form es =>
    obtain ⟨es', rfl, hes⟩ := h.map_left
    have hw := Workflow.of_reordered hes hkeys
    unfold flowProblems
    dsimp only
    generalize Workflow.of ((Node.Entries.field? es "inputs").getD .null)
        ((Node.Entries.field? es "outputs").getD .null) ((Node.Entries.field? es "steps").getD .null) = r,
      Workflow.of ((Node.Entries.field? es' "inputs").getD .null)
        ((Node.Entries.field? es' "outputs").getD .null)
        ((Node.Entries.field? es' "steps").getD .null) = r' at hw
    cases hw with
    | ok hw => exact Workflow.connectionErrors_perm hw hattached
    | error f => exact .refl _
  | seq form items =>
    obtain ⟨items', rfl, _⟩ := h.seq_left
    exact .refl _
  | _ =>
    cases h
    exact .refl _

section

variable {each each' : Node × Node → Findings}

theorem field_alike (h : Shuffled FieldReordered entries entries') (hunique : UniqueNames entries)
    (heach : ∀ e ∈ entries, ∀ e', FieldReordered e e' → (each e).Alike (each' e')) (k : String) :
    Option.Rel (fun e e' => (each e).Alike (each' e')) (entries.find? fun e => e.1.isName k)
      (entries'.find? fun e => e.1.isName k) := by
  have hfound := find?_rel h hunique k
  have hmem : ∀ e, (entries.find? fun e => e.1.isName k) = some e → e ∈ entries :=
    fun e => mem_of_find?_eq_some
  generalize (entries.find? fun e => e.1.isName k) = e?,
    (entries'.find? fun e => e.1.isName k) = e?' at hfound hmem
  cases hfound with
  | none => exact .none
  | some he => exact .some (heach _ (hmem _ rfl) _ he)

variable {e? e?' : Option (Node × Node)}

theorem attached_of_alike (h : Option.Rel (fun e e' => (each e).Alike (each' e')) e? e?') (id) :
    (Workflow.Steps.all ((e?.map fun e => (each e).attached).getD [])).get? id =
      (Workflow.Steps.all ((e?'.map fun e => (each' e).attached).getD [])).get? id := by
  cases h with
  | none => rfl
  | some he => exact he.attached id

theorem interface_of_alike (h : Option.Rel (fun e e' => (each e).Alike (each' e')) e? e?') :
    (e?.bind fun e => (each e).interface) = e?'.bind fun e => (each' e).interface := by
  cases h with
  | none => rfl
  | some he => exact he.interface

end

include hS hfind in
theorem recordFindings_alike (name : Node) (fields : Fields) (h : Node.Reordered node node')
    (hnode : AllMaps Tidy node) (map : Option MapKey) (key value : Option Span) :
    (S.recordFindings find name fields node map key value).Alike
      (Scene.recordFindings { S with namespaces := D } find' name fields node' map key value) := by
  have hentries := recordEntries_rel h map
  have htidy : ∀ entries, recordEntries node map = some entries → _ := fun _ => recordEntries_tidy hnode
  unfold Scene.recordFindings
  generalize recordEntries node map = entries?, recordEntries node' map = entries?' at hentries htidy
  cases hentries with
  | none => exact .refl _
  | @some entries entries' hshuffled =>
    obtain ⟨hunique, hvalues⟩ := htidy entries rfl
    have hnamed : Scene.conditionNames { S with namespaces := D } name fields entries' =
        S.conditionNames name fields entries :=
      (conditionNames_eq_of_shuffled hS name fields hshuffled hunique fun e he => (hvalues e he).1).symm
    dsimp only
    rw [hnamed]
    generalize S.conditionNames name fields entries = named
    have heach : ∀ e ∈ entries, ∀ e', FieldReordered e e' →
        (S.fieldFindings find name fields node map key value named e).Alike
          (Scene.fieldFindings { S with namespaces := D } find' name fields node' map key value
            named e') :=
      fun e he e' hee' => fieldFindings_alike hS hfind name fields h hnode map key value named hee' (hvalues e he).1
    generalize S.fieldFindings find name fields node map key value named = each,
      Scene.fieldFindings { S with namespaces := D } find' name fields node' map key value named =
        each' at heach
    have hflow : (if name.isName "Workflow" then
          flowProblems node (((entries.find? fun e => e.1.isName "steps").map fun e => (each e).attached).getD [])
        else []).Perm (if name.isName "Workflow" then
          flowProblems node' (((entries'.find? fun e => e.1.isName "steps").map fun e => (each' e).attached).getD [])
        else []) := by
      have hperm := flowProblems_perm h (hnode.imp fun _ hes => hes.textKeys)
        (attached_of_alike (field_alike hshuffled hunique heach "steps"))
      split
      · exact hperm
      · exact .refl _
    have hinterface := interface_of_alike (field_alike hshuffled hunique heach "run")
    rw [hinterface]
    exact ⟨.append (hshuffled.flatMap_perm fun e he e' _ hee' => (heach e he e' hee').problems) hflow,
      hshuffled.flatMap_perm fun e he e' _ hee' => (heach e he e' hee').imports, rfl, fun _ => rfl⟩

/-! ## Lists and maps -/

include hS hfind in
theorem itemFindings_alike (types : List CwlType) {i i'}
    (hspan : ∀ index, node.itemSpan index = node'.itemSpan index) (hindex : i.2 = i'.2)
    (h : Node.Reordered i.1.2 i'.1.2) (hitem : AllMaps Tidy i.1.2) : (S.itemFindings find types node i).Alike
      (Scene.itemFindings { S with namespaces := D } find' types node' i') := by
  have hmeaning := meaning_alike hS h hitem types none none
  unfold Scene.itemFindings
  dsimp only
  rw [hspan, hindex]
  generalize S.env.meaning ⟨i.1.2, types, none, none⟩ = r,
    S.env.meaning ⟨i'.1.2, types, none, none⟩ = r' at hmeaning
  cases hmeaning with
  | ok hm => exact hfind none none _ hm h hitem
  | error f => exact .refl _

theorem zipIdx_forall₂ {α β : Type} {R : α → β → Prop} {xs ys} (h : Forall₂ R xs ys) (n : Nat) :
    Forall₂ (fun x y => R x.1 y.1 ∧ x.2 = y.2) (xs.zipIdx n) (ys.zipIdx n) := by
  induction h generalizing n with
  | nil => exact .nil
  | cons hxy _ ih =>
    rw [zipIdx_cons, zipIdx_cons]
    exact .cons ⟨hxy, rfl⟩ (ih (n + 1))

include hS hfind in
theorem arrayFindings_alike (types) (h : Node.Reordered node node') (hnode : AllMaps Tidy node) :
    (S.arrayFindings find types node).Alike
      (Scene.arrayFindings { S with namespaces := D } find' types node') := by
  cases node with
  | seq form items =>
    obtain ⟨items', rfl, hitems⟩ := h.seq_left
    have hspan := hitems.itemSpan_eq form
    have hshuffled : Shuffled _ items.zipIdx items'.zipIdx :=
      .of_forall₂ (zipIdx_forall₂ (Node.itemsReordered_iff.mp hitems) 0)
    have heach : ∀ i ∈ items.zipIdx, ∀ i' ∈ items'.zipIdx,
        ((i.1.1 = i'.1.1 ∧ Node.Reordered i.1.2 i'.1.2) ∧ i.2 = i'.2) → _ := fun i hi i' _ hii' =>
      itemFindings_alike (D := D) hS hfind types hspan hii'.2 hii'.1.2 (item_tidy hnode hi)
    exact ⟨hshuffled.flatMap_perm fun i hi i' hi' hii' => (heach i hi i' hi' hii').problems,
      hshuffled.flatMap_perm fun i hi i' hi' hii' => (heach i hi i' hi' hii').imports, rfl, fun _ => rfl⟩
  | map form es =>
    obtain ⟨es', rfl, _⟩ := h.map_left
    exact .refl _
  | _ =>
    cases h
    exact .refl _

include hS hfind in
theorem entryFindings_alike (name : Node) (types : List CwlType) (mapKey : MapKey)
    (hform : l.form = l'.form) {e e'} (he : l.EntryReordered l' e e')
    (hentry : AllMaps Tidy e.value) :
    (S.entryFindings find name types mapKey l e).Alike
      (Scene.entryFindings { S with namespaces := D } find' name types mapKey l' e') := by
  unfold Scene.entryFindings
  dsimp only
  rw [← hform, ← he.key, ← he.idSpan, ← he.valueSpan]
  have hmeaning := meaning_alike hS he.value hentry types (if l.form == .map then some e.key else none)
    (if l.form == .map then some mapKey else none)
  generalize S.env.meaning ⟨e.value, types, if l.form == .map then some e.key else none,
      if l.form == .map then some mapKey else none⟩ = r,
    S.env.meaning ⟨e'.value, types, if l.form == .map then some e.key else none,
      if l.form == .map then some mapKey else none⟩ = r' at hmeaning
  cases hmeaning with
  | error f => exact .refl _
  | @ok m m' hm =>
    have hunknown : isUnknown m = isUnknown m' := by cases hm <;> rfl
    dsimp only
    rw [← hunknown]
    split
    · exact .refl _
    · exact hfind (some mapKey) _ _ hm he.value hentry

theorem attached_alike (h : l.Reordered l') {each each' : ListingEntry → Findings}
    (heach : ∀ e ∈ l.entries, ∀ e', l.EntryReordered l' e e' → (each e).Alike (each' e')) (id) :
    (Workflow.Steps.all (l.entries.map fun e => (e.key, (each e).interface.getD {}))).get? id =
      (Workflow.Steps.all (l'.entries.map fun e => (e.key, (each' e).interface.getD {}))).get? id := by
  have hstep : ∀ e ∈ l.entries, ∀ e', l.EntryReordered l' e e' →
      (e.key, (each e).interface.getD {}) = (e'.key, (each' e').interface.getD {}) := by
    intro e he e' hee'
    rw [hee'.key, (heach e he e' hee').interface]
  rcases h.order with hentries | htexts
  · -- one step after the other
    have hequal : (l.entries.map fun e => (e.key, (each e).interface.getD {})) =
        l'.entries.map fun e => (e.key, (each' e).interface.getD {}) := by
      rw [← forall₂_eq_eq_eq, forall₂_map_left_iff, forall₂_map_right_iff]
      exact ((forall₂_and_left _ _).mpr ⟨fun _ he => he, hentries⟩).imp fun e e' hee' =>
        hstep e hee'.1 e' hee'.2
    rw [hequal]
  · -- steps under different names
    refine Workflow.Steps.get?_all_of_perm ?_ (pairwise_map.mpr htexts.distinct_keys) id
    rw [map_eq_flatMap, map_eq_flatMap]
    exact h.entries.flatMap_perm fun e he e' _ hee' => by rw [hstep e he e' hee']

include hS hfind in
theorem listingFindings_alike (name : Node) (types : List CwlType) (mapKey : MapKey)
    (h : Node.Reordered node node') (hnode : AllMaps Tidy node) :
    (S.listingFindings find name types mapKey node).Alike
      (Scene.listingFindings { S with namespaces := D } find' name types mapKey node') := by
  obtain ⟨hproblems, hlisted⟩ := Listing.of_reordered h (hnode.imp fun _ hes => hes.textKeys) mapKey.subject
  have htidy : ∀ l, (Listing.of node mapKey.subject).2 = .ok l → ∀ e ∈ l.entries, EntryTidy l e :=
    fun l => entries_tidy hnode
  unfold Scene.listingFindings
  dsimp only
  rw [← hproblems]
  generalize (Listing.of node mapKey.subject).1 = ds
  generalize (Listing.of node mapKey.subject).2 = r, (Listing.of node' mapKey.subject).2 = r' at hlisted htidy
  cases hlisted with
  | error f => exact .refl _
  | @ok l l' hl =>
    have heach : ∀ e ∈ l.entries, ∀ e', l.EntryReordered l' e e' → _ := fun e he e' hee' =>
      entryFindings_alike (D := D) hS hfind name types mapKey hl.form hee' (htidy l rfl e he).value
    refine ⟨.append_left _ ?_, ?_, rfl, ?_⟩
    · exact hl.entries.flatMap_perm fun e he e' _ hee' => (heach e he e' hee').problems
    · exact hl.entries.flatMap_perm fun e he e' _ hee' => (heach e he e' hee').imports
    · intro id
      dsimp only
      split
      · exact attached_alike hl heach id
      · rfl

end Record

/-! ## All together -/

section

variable {S : Scene} (hS : S.Sound) {D : Node} (hdeclared : Node.Reordered S.namespaces D)
  (hitems : ∀ form items, S.namespaces = .seq form items → ∀ i ∈ items, i.2.isKey = true)
include hS hdeclared hitems

theorem findOne_agrees {find find'} (hfind : find.Agrees find') :
    (S.findOne find).Agrees (Scene.findOne { S with namespaces := D } find') := by
  intro m m' node node' map key value hm h hnode
  cases hm with
  | same m =>
    cases m with
    | typed t =>
      cases t with
      | enum name symbols => exact .of_problems (symbolProblems_eq symbols h value)
      | array name types => exact arrayFindings_alike hS hfind types h hnode
      | listOrMap name types mapKey => exact listingFindings_alike hS hfind name types mapKey h hnode
      | record name documented fields => exact recordFindings_alike hS hfind name fields h hnode map key value
      | _ => exact .refl _
    | dataType name symbols =>
      refine .of_problems ?_
      unfold Scene.typeProblems
      rw [h.text?_eq]
      rfl
    | namespaced name => exact .of_problems (prefixProblems_eq hdeclared hS.prefixes hitems name key value)
    | _ => exact .refl _
  | file hkey hkey' =>
    have hnone := followed_of_not_key (S := S) hkey value
    have hnone' := followed_of_not_key (S := { S with namespaces := D }) hkey' value
    exact .of_problems (hnone.2.trans hnone'.2.symm)
  | type hkey hkey' =>
    have hnone := followed_of_not_key (S := S) hkey value
    have hnone' := followed_of_not_key (S := { S with namespaces := D }) hkey' value
    simp only [Scene.findOne, hnone.1, hnone.2, hnone'.1, hnone'.2, importedName]
    exact .refl _

theorem findTo_agrees : ∀ depth, (S.findTo depth).Agrees (Scene.findTo { S with namespaces := D } depth)
  | 0 => fun _ _ _ _ _ _ => .refl _
  | depth + 1 => findOne_agrees hS hdeclared hitems (findTo_agrees depth)

end

end CwlService.Analysis
