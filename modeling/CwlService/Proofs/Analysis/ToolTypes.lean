import CwlService.Proofs.Analysis.Imports
import CwlService.Proofs.Analysis.Visited
import CwlService.Proofs.Language.TypeLists
import CwlService.Proofs.Sample.UserTypes

/-! # Which types a tool imports

In a tool that imports nothing but the types among its requirements, these are the only ones that
can be taken for links to types; and they are, in the one version of the language where the record
for such links comes first among the types. -/
namespace CwlService.Analysis

open Node (AllMaps TextKeys)
open UserTypes (importOf itemsOf typeItems requirementName)
open List

variable {S : Scene}

/-! ## Tools that import types only -/

/-- Whether the entries of a map import nothing, but for what stands under one name. -/
def freeBut (name : String) (inside : Node → Bool) (es : Node.Entries) : Bool :=
  !es.hasField "$import" &&
    es.all fun e => if e.1.isName name then inside e.2.2 else decide (ImportFree e.2.2)

/-- Whether all that is imported in a list of types are whole types. -/
def typesImport (n : Node) : Bool :=
  match n with
  | .seq _ items => items.all fun i => (importOf i.2).isSome || decide (ImportFree i.2)
  | n => decide (ImportFree n)

/-- Whether all that is imported in a requirement are the types that it lists. -/
def requirementImports (n : Node) : Bool :=
  match n with
  | .map _ es => freeBut "types" typesImport es
  | n => decide (ImportFree n)

/-- Whether all that is imported in requirements are the types that they list. Requirements by their
classes have no class themselves. -/
def requirementsImport (n : Node) : Bool :=
  match n with
  | .map _ es => !Node.Entries.hasField es "class" && freeBut requirementName requirementImports es
  | .seq _ items => items.all fun i =>
    if UserTypes.isRequirement i.2 then requirementImports i.2 else decide (ImportFree i.2)
  | n => decide (ImportFree n)

/-- Whether all that a process imports are the types among its requirements. -/
def importsTypesOnly (es : Node.Entries) : Bool := freeBut "requirements" requirementsImport es

variable {n path : Node} {v : String} {t : CwlType}

theorem typesImport_free (h : typesImport n = true) (hseq : n.isSeq = false) : ImportFree n := by
  cases n with
  | seq => cases hseq
  | _ => exact of_decide_eq_true h

theorem requirementImports_free (h : requirementImports n = true) (hmap : n.isMap = false) :
    ImportFree n := by
  cases n with
  | map => cases hmap
  | _ => exact of_decide_eq_true h

theorem requirementsImport_free (h : requirementsImport n = true) (hmap : n.isMap = false)
    (hseq : n.isSeq = false) : ImportFree n := by
  cases n with
  | map => cases hmap
  | seq => cases hseq
  | _ => exact of_decide_eq_true h

/-! ## What definitions in files are taken for -/

theorem importOf_eq_some (h : importOf n = some path) : ∃ form k places, n = .map form [(k, places, path)] ∧
    k.isName "$import" = true := by
  unfold importOf UserTypes.imported? at h
  split at h
  · split at h
    · split at h
      · rename_i k places value hk
        cases h
        exact ⟨_, _, _, rfl, hk⟩
      · cases h
    · cases h
  · cases h

/-- What stands in a file is taken for the link that the first record makes of it, whose name is
known beforehand. -/
theorem infer_import (l : Language) (ht : t.IsRecord (Language.firstType v)) (rest : List CwlType)
    (hn : importOf n = some path) : infer l n (t :: rest) none none =
      .ok (if v == "v1.0" then .linkedType path else .linkedFile path none) := by
  obtain ⟨form, k, places, rfl, hk⟩ := importOf_eq_some hn
  obtain ⟨styled, rfl⟩ := Node.isName_iff.mp hk
  obtain ⟨name, documented, fields, rfl, hname⟩ := ht
  obtain ⟨styled', rfl⟩ := Node.isName_iff.mp hname
  unfold Language.firstType
  cases v == "v1.0" <;> rfl

theorem infer_raw (l) (ht : t.IsRaw) (rest) (hn : importOf n = some path) :
    ∃ f, infer l n (t :: rest) none none = .error f := by
  obtain ⟨form, k, places, rfl, hk⟩ := importOf_eq_some hn
  obtain ⟨styled, rfl⟩ := Node.isName_iff.mp hk
  obtain ⟨name, rfl⟩ := ht
  exact ⟨_, rfl⟩

/-! ## What is found -/

/-- A name of a type that is imported in a list of types, in a version in which such imports are
known. -/
def Scene.ImportsType (S : Scene) (v : String) (types : Node) (t : String) : Prop :=
  v = "v1.0" ∧ ∃ i ∈ itemsOf types, ∃ path, importOf i.2 = some path ∧
    t ∈ UserTypes.linkNames S.env.workspace S.env.doc S.start path

theorem not_importsType {types} (h : itemsOf types = []) (t) : ¬S.ImportsType v types t := by
  rintro ⟨_, i, hi, _⟩
  rw [h] at hi
  cases hi

theorem followed_eq (path : Node) (span : Option Span) : S.followed path span =
    (UserTypes.linkData S.env.workspace S.env.doc S.start path).toOption.getD .null := by
  rw [UserTypes.linkData, ← Workspace.followNode_node _ _ _ span]
  unfold Scene.followed Scene.follow
  cases ((S.env.workspace.followNode S.env.doc path span).run.run S.start).1 <;> rfl

section

variable {v : String} {depth : Nat}

variable {m : Meaning} {node : Node} {u : CwlType} {items rest : List CwlType} {form : Form}
  {es : Node.Entries} {name : String} {fields : Fields} {documented required styled : Bool} {l : Language}
  {s s' : Analysis × Yaml.Reader}

theorem free_imports (hS : S.Sound) (hfree : ImportFree node)
    (hm : ∀ target, m ≠ .linkedType target) {types} (htypes : itemsOf types = [])
    (map : Option MapKey) (key value : Option Span) (t : String) :
    t ∈ (S.findTo depth m node map key value).imports ↔ S.ImportsType v types t := by
  rw [findTo_free hS depth map key value hfree hm]
  exact ⟨nofun, fun h => absurd h (not_importsType htypes t)⟩

theorem item_imports (hS : S.Sound) (hu : u.IsRaw ∨ u.IsRecord (Language.firstType v)) {i}
    (hitem : ((importOf i.1.2).isSome || decide (ImportFree i.1.2)) = true)
    (hm : S.env.meaning ⟨i.1.2, u :: rest, none, none⟩ = .ok m) (t : String) :
    t ∈ (S.itemFindings (S.findTo (depth + 1)) (u :: rest) node i).imports ↔
      v = "v1.0" ∧ ∃ path, importOf i.1.2 = some path ∧
        t ∈ UserTypes.linkNames S.env.workspace S.env.doc S.start path := by
  rw [Scene.itemFindings, hm]
  dsimp only
  cases himport : importOf i.1.2 with
  | none =>
    rw [himport] at hitem
    have hfree : ImportFree i.1.2 := by simpa using hitem
    rw [findTo_free hS _ _ _ _ hfree (meaning_free hS hfree hm)]
    simp
  | some path =>
    rw [hS.meaning] at hm
    rcases hu with hraw | hrecord
    · obtain ⟨f, hf⟩ := infer_raw S.env.language hraw rest himport
      rw [Language.inference, hf] at hm
      cases hm
    · rw [Language.inference, infer_import S.env.language hrecord rest himport] at hm
      cases hm
      by_cases hv : v = "v1.0"
      · rw [if_pos (by simpa using hv)]
        change t ∈ importedName path (S.followed path _) ↔ _
        rw [followed_eq]
        simp [hv, UserTypes.linkNames]
      · rw [if_neg (by simpa using hv)]
        change t ∈ [] ↔ _
        simp [hv]

theorem types_imports (hS : S.Sound) {field} (hu : u.IsRaw ∨ u.IsRecord (Language.firstType v))
    {items : Node.Items} (hitems : typesImport (.seq form items) = true)
    (hvisited : Visited (visitTo S.env (depth + 2)) (.typed (.array field (u :: rest))) (.seq form items))
    (map key value t) :
    t ∈ (S.findTo (depth + 2) (.typed (.array field (u :: rest))) (.seq form items) map key value).imports ↔
      S.ImportsType v (.seq form items) t := by
  change t ∈ (S.arrayFindings (S.findTo (depth + 1)) (u :: rest) (.seq form items)).imports ↔ _
  have hitem : ∀ i ∈ items.zipIdx,
    (t ∈ (S.itemFindings (S.findTo (depth + 1)) (u :: rest) (.seq form items) i).imports ↔
      v = "v1.0" ∧ ∃ path, importOf i.1.2 = some path ∧
        t ∈ UserTypes.linkNames S.env.workspace S.env.doc S.start path) := by
    intro i hi
    have hmem := fst_mem_of_mem_zipIdx hi
    obtain ⟨m, hm⟩ := visited_item hvisited hmem
    exact item_imports hS hu (all_eq_true.mp hitems _ hmem) hm t
  refine mem_flatMap.trans ⟨?_, ?_⟩
  · rintro ⟨i, hi, ht⟩
    obtain ⟨hv, path, hpath, hname⟩ := (hitem i hi).mp ht
    exact ⟨hv, i.1, fst_mem_of_mem_zipIdx hi, path, hpath, hname⟩
  · rintro ⟨hv, i, hi, path, hpath, hname⟩
    obtain ⟨n, hn⟩ := mem_iff_getElem?.mp hi
    have hmem : (i, n) ∈ items.zipIdx := mk_mem_zipIdx_iff_getElem?.mpr hn
    exact ⟨(i, n), hmem, (hitem _ hmem).mpr ⟨hv, path, hpath, hname⟩⟩

theorem freeBut_iff {inside : Node → Bool} : freeBut name inside es = true ↔ es.hasField "$import" = false ∧
      ∀ e ∈ es, if e.1.isName name then inside e.2.2 = true else ImportFree e.2.2 := by
  rw [freeBut, Bool.and_eq_true, Bool.not_eq_true', all_eq_true]
  refine and_congr_right fun _ => forall₂_congr fun e _ => ?_
  split
  · exact Iff.rfl
  · exact decide_eq_true_iff

theorem taken_plain (hname : name ∈ plainFields) {record types}
    (hfield : fields.get? name = some (required, types)) {k} (hk : k.isName name = true)
    (child : Node) (key : Option Span) : (S.taken record fields k child key).2 =
      (S.env.meaning ⟨child, types, some (.str name), none⟩).toOption := by
  obtain ⟨styled, rfl⟩ := Node.isName_iff.mp hk
  simp only [plainFields, mem_cons, not_mem_nil, or_false] at hname
  rcases hname with rfl | rfl <;> simp [Scene.taken, hfield]

theorem record_imports (hS : S.Sound) (hname : name ∈ plainFields) {inside : Node → Bool}
    (hkeys : TextKeys es) (hes : freeBut name inside es = true) {record types}
    (hfield : fields.get? name = some (required, types))
    (hvisited : Visited (visitTo S.env (depth + 1)) (.typed (.record record documented fields)) (.map form es))
    {t} {Q : Node → Prop} (hnull : ¬Q .null)
    (hchild : ∀ child m, inside child = true → es.field? name = some child →
      S.env.meaning ⟨child, types, some (.str name), none⟩ = .ok m →
        Visited (visitTo S.env depth) m child → ∀ map key value,
          t ∈ (S.findTo depth m child map key value).imports ↔ Q child) (map key value) :
    t ∈ (S.findTo (depth + 1) (.typed (.record record documented fields)) (.map form es) map key value).imports ↔
      Q ((es.field? name).getD .null) := by
  obtain ⟨_, heach⟩ := freeBut_iff.mp hes
  change t ∈ (S.recordFindings (S.findTo depth) record fields (.map form es) map key value).imports ↔ _
  unfold Scene.recordFindings
  simp only [recordEntries]
  rw [mem_flatMap]
  constructor
  · rintro ⟨_, hmem, ht⟩
    obtain ⟨e, he, rfl⟩ := mem_map.mp hmem
    have hinside := heach e he
    cases hk : e.1.isName name with
    | true =>
      rw [if_pos hk] at hinside
      have hget := hkeys.field?_of_mem he hk
      obtain ⟨m, hm, hvisit⟩ := visited_field hvisited hname hfield hget
      rw [fieldFindings_imports, taken_plain hname hfield hk, hm] at ht
      rw [hget]
      exact (hchild _ m hinside hget hm hvisit _ _ _).mp ht
    | false =>
      rw [if_neg (by simp [hk])] at hinside
      rw [fieldFindings_free hS (findTo_free hS depth) _ _ _ _ _ _ _ hinside] at ht
      cases ht
  · intro hQ
    cases hget : es.field? name with
    | none =>
      rw [hget] at hQ
      exact absurd hQ hnull
    | some child =>
      obtain ⟨m, hm, hvisit⟩ := visited_field hvisited hname hfield hget
      obtain ⟨e, he, hk, rfl⟩ := Node.field?_eq_some hget
      have hinside := heach e he
      rw [if_pos hk] at hinside
      refine ⟨_, mem_map_of_mem he, ?_⟩
      rw [fieldFindings_imports, taken_plain hname hfield hk, hm]
      rw [hget] at hQ
      exact (hchild _ m hinside hget hm hvisit _ _ _).mpr hQ

theorem infer_types (l) {field} (hfield : field.isName "types" = true) (types form)
    (items : Node.Items) (key) :
    infer l (.seq form items) [.array field types] key none = .ok (.typed (.array field types)) := by
  obtain ⟨styled, rfl⟩ := Node.isName_iff.mp hfield
  rfl

theorem requirement_imports (hS : S.Sound) {record}
    (hfields : Fields.Named "types" (fun f => CwlType.ListsTypes (Language.firstType v) f.2) fields)
    (htidy : AllMaps Tidy node) (hnode : requirementImports node = true)
    (hvisited : Visited (visitTo S.env (depth + 3)) (.typed (.record record documented fields)) node)
    (map key value t) :
    t ∈ (S.findTo (depth + 3) (.typed (.record record documented fields)) node map key value).imports ↔
      S.ImportsType v ((node.field? "types").getD .null) t := by
  obtain ⟨⟨required, types⟩, hget, field, u, rest, rfl, hfield, hu⟩ := hfields.get?
  cases hmap : node.isMap with
  | false =>
    refine free_imports hS (requirementImports_free hnode hmap) (fun _ h => by cases h) ?_ map key value t
    cases node with
    | map => cases hmap
    | _ => rfl
  | true =>
    cases node with
    | map form es =>
      refine record_imports hS (by simp [plainFields]) htidy.1.textKeys hnode hget hvisited
        (Q := fun n => S.ImportsType v n t) (not_importsType rfl t)
        (fun child m hinside _ hm hvisit map key value => ?_) map key value
      cases hseq : child.isSeq with
      | false =>
        have hfree := typesImport_free hinside hseq
        refine free_imports hS hfree (meaning_free hS hfree hm) ?_ map key value t
        cases child with
        | seq => cases hseq
        | _ => rfl
      | true =>
        cases child with
        | seq form' items =>
          rw [hS.meaning, Language.inference, infer_types _ hfield] at hm
          cases hm
          exact types_imports hS hu hinside hvisit map key value t
        | _ => cases hseq
    | _ => cases hmap

theorem findNamed_holder (l : Language) {first styled all} :
    ∀ items : List CwlType, (∀ t ∈ items, t.IsRaw ∨ t.IsRequirement first) →
      (∃ t ∈ items, t.IsRaw ∨ t.HoldsTypes first) →
      Gives (fun v => ∃ t, v = .yes (.typed t) ∧ t.HoldsTypes first)
        (findNamed l (.text requirementName styled) all items)
  | [], _, hsome => by
    obtain ⟨_, h, _⟩ := hsome
    cases h
  | t :: rest, hall, hsome => by
    obtain ⟨hfirst, hrest⟩ := forall_mem_cons.mp hall
    rcases hfirst with ⟨name, rfl⟩ | ⟨n, hany, ⟨k, hk, hkn⟩, hholds⟩
    · exact .throw_bind _ _
    have hstep : Gives (fun v => ∃ t, v = .yes (.typed t) ∧ t.HoldsTypes first) (do
        let n ← t.name?
        if n.same (.text requirementName styled) then pure (.yes (.typed t))
        else findNamed l (.text requirementName styled) all rest) := by
      rw [hk]
      refine .ite (fun hname => .pure ⟨t, rfl, hholds ?_⟩) fun hname => findNamed_holder l rest hrest ?_
      · rw [Node.same_text] at hname
        obtain ⟨styled', rfl⟩ := Node.isName_iff.mp hname
        exact (beq_iff_eq.mp hkn).symm
      · -- this one is not what is looked for, so it is among the others
        obtain ⟨u, hu, hholder⟩ := hsome
        refine ⟨u, (mem_cons.mp hu).resolve_left ?_, hholder⟩
        rintro rfl
        rcases hholder with ⟨name, rfl⟩ | ⟨k', _, _, rfl, hname', _⟩
        · cases hk
        · cases hk
          rw [Node.same_text] at hname
          exact hname hname'
    cases t with
    | any =>
      cases hk
      exact absurd (beq_iff_eq.mp hkn).symm hany
    | _ => exact hstep

theorem infer_holder {first} (hall : ∀ t ∈ items, t.IsRaw ∨ t.IsRequirement first)
    (hsome : ∃ t ∈ items, t.IsRaw ∨ t.HoldsTypes first) {key map}
    (hexplicit : explicitType node key map = some (.text requirementName styled))
    (h : infer l node items key map = .ok m) : ∃ t, m = .typed t ∧ t.HoldsTypes first := by
  have hnamed : isNamespaced (.text requirementName styled) = .ok false := by
    simp [isNamespaced, requirementName, pure, Except.pure]
  have hfound := @findNamed_holder l first styled items items hall hsome
  rcases infer_named hexplicit h with ⟨htrue, _⟩ | ⟨_, v, hv, rfl⟩
  · cases hnamed.symm.trans htrue
  · obtain ⟨t, rfl, ht⟩ := hfound v hv
    exact ⟨t, rfl, ht⟩

/-- What an entry of requirements imports: types, in the requirement that holds them, or nothing. -/
theorem requirement_cases (hnode : requirementsImport node = true) {l}
    (hl : (Listing.of node (.str "class")).2 = .ok l) {e} (he : e ∈ l.entries) :
    if e.key.isName requirementName then requirementImports e.value = true ∧ ∃ styled,
        explicitType e.value (if l.form == .map then some e.key else none)
          (if l.form == .map then some ⟨.str "class", .null⟩ else none) = some (.text requirementName styled)
      else ImportFree e.value := by
  rcases (Listing.mem_of hl he).2 with ⟨form, es, places, rfl, hform, hmem⟩ | ⟨form, items, rfl, hform, hentry⟩
  · rw [requirementsImport, Bool.and_eq_true] at hnode
    have hfree := (freeBut_iff.mp hnode.2).2 _ hmem
    split
    · rename_i hkey
      obtain ⟨styled, hstyled⟩ := Node.isName_iff.mp hkey
      rw [if_pos hkey] at hfree
      refine ⟨hfree, styled, ?_⟩
      rw [hform, hstyled]
      rfl
    · rename_i hkey
      rwa [if_neg hkey] at hfree
  · obtain ⟨place, hmem⟩ := hentry.item
    have hitem := all_eq_true.mp hnode _ (mem_of_getElem? hmem)
    have hclass : UserTypes.isRequirement e.value = e.key.isName requirementName := hentry.isUnder_eq requirementName
    rw [hclass] at hitem
    split
    · rename_i hkey
      rw [if_pos hkey] at hitem
      have hany : (e.value.field? "class").any (fun c => c.isName requirementName) = true := hclass.trans hkey
      rw [Option.any_eq_true] at hany
      obtain ⟨c, hc, hname⟩ := hany
      obtain ⟨styled, rfl⟩ := Node.isName_iff.mp hname
      refine ⟨hitem, styled, ?_⟩
      rw [hform]
      unfold explicitType
      dsimp only
      rw [if_neg (by decide), if_neg (by decide), hc]
      rfl
    · rename_i hkey
      rw [if_neg hkey] at hitem
      exact of_decide_eq_true hitem

theorem listed_eq {l} (hl : (Listing.of node (.str "class")).2 = .ok l) :
    (UserTypes.listed node).toOption.getD .null =
      ((Listing.valueOf l.entries requirementName).bind fun r => r.field? "types").getD .null := by
  rw [Listing.valueOf_of hl]
  unfold UserTypes.listed
  cases node with
  | map form es =>
    dsimp only
    cases Node.Entries.field? es requirementName with
    | none => rfl
    | some r => cases r <;> rfl
  | seq form items =>
    have hunder : (fun i : Option Place × Node => Listing.isUnder "class" requirementName i.2) =
      fun i => UserTypes.isRequirement i.2 := rfl
    dsimp only
    rw [hunder]
    cases (items.filter fun i => UserTypes.isRequirement i.2).getLast? <;> rfl
  | _ => rfl

theorem requirements_imports (hS : S.Sound) {field}
    (hall : ∀ t ∈ items, t.IsRaw ∨ t.IsRequirement (Language.firstType v))
    (hsome : ∃ t ∈ items, t.IsRaw ∨ t.HoldsTypes (Language.firstType v)) (htidy : AllMaps Tidy node)
    (hnode : requirementsImport node = true)
    (hvisited : Visited (visitTo S.env (depth + 4)) (.typed (.listOrMap field items ⟨.str "class", .null⟩)) node)
    (map key value t) :
    t ∈ (S.findTo (depth + 4) (.typed (.listOrMap field items ⟨.str "class", .null⟩)) node map key value).imports ↔
      S.ImportsType v ((UserTypes.listed node).toOption.getD .null) t := by
  obtain ⟨l, hl, hentries⟩ := visited_entry hvisited
  have hentry : ∀ e ∈ l.entries,
    (t ∈ (S.entryFindings (S.findTo (depth + 3)) field items ⟨.str "class", .null⟩ l e).imports ↔
      e.key.isName requirementName = true ∧ S.ImportsType v ((e.value.field? "types").getD .null) t) := by
    intro e he
    obtain ⟨m, hm, hvisit⟩ := hentries e he
    have hcase := requirement_cases hnode hl he
    cases hkey : e.key.isName requirementName with
    | false =>
      rw [if_neg (by simp [hkey])] at hcase
      rw [entryFindings_free hS (findTo_free hS (depth + 3)) field items _ l hcase]
      simp
    | true =>
      rw [if_pos hkey] at hcase
      obtain ⟨himports, styled, hexplicit⟩ := hcase
      have hinfer := hm
      rw [hS.meaning] at hinfer
      obtain ⟨u, rfl, record, documented, fields, rfl, _, hfields⟩ := infer_holder hall hsome hexplicit hinfer
      have hfound := requirement_imports hS hfields (entries_tidy htidy hl e he).value himports (hvisit rfl)
        (some ⟨.str "class", .null⟩) (l.idSpan e).toOption (l.valueSpan e).toOption t
      rw [Scene.entryFindings, hm]
      simpa [isUnknown] using hfound
  change t ∈ (S.listingFindings (S.findTo (depth + 3)) field items ⟨.str "class", .null⟩ node).imports ↔ _
  unfold Scene.listingFindings
  dsimp only
  rw [hl, listed_eq hl]
  refine mem_flatMap.trans ⟨?_, ?_⟩
  · rintro ⟨e, he, ht⟩
    obtain ⟨hkey, himports⟩ := (hentry e he).mp ht
    have hdistinct := Listing.distinct_keys hl fun form es hes => by
      subst hes
      exact htidy.1.textKeys.uniqueKeys
    rw [Listing.valueOf_of_mem hdistinct he hkey]
    exact himports
  · intro himports
    cases hvalue : Listing.valueOf l.entries requirementName with
    | none =>
      rw [hvalue] at himports
      exact absurd himports (not_importsType rfl t)
    | some r =>
      rw [hvalue] at himports
      obtain ⟨e, he, rfl⟩ := Option.map_eq_some_iff.mp hvalue
      have hkey : e.key.isName requirementName = true := by simpa using find?_some he
      have hmem := mem_of_find?_eq_some he
      exact ⟨e, hmem, (hentry e hmem).mpr ⟨hkey, himports⟩⟩

theorem infer_requirements {nothing} (hnothing : nothing.IsRaw ∨ nothing.HasName "null") {field}
    (hfield : field.isName "requirements" = true) {mapKey}
    (hlisted : node.isMap = true ∨ node.isSeq = true) (hclass : node.field? "class" = none) {key}
    (h : infer l node [nothing, .listOrMap field items mapKey] key none = .ok m) :
    m = .typed (.listOrMap field items mapKey) := by
  obtain ⟨styled, rfl⟩ := Node.isName_iff.mp hfield
  have hnull : node.isNull = false := by
    cases node with
    | null => simp [Node.isMap, Node.isSeq] at hlisted
    | _ => rfl
  rw [infer_eq, explicitType_of_no_class hclass] at h
  rcases hnothing with ⟨name, rfl⟩ | ⟨k, hk, hname⟩
  · cases node <;> cases h
  · -- nothing is not there, so it is asked next whether this is a listing
    have hfirst : ∀ hasKey, checkType node hasKey none nothing = .ok (.no (.absent nothing), false) := by
      intro hasKey
      unfold checkType
      rw [hk]
      change (if k.isName "null" = true then _ else _) = _
      rw [if_pos hname, hnull]
      rfl
    cases node with
    | map form es =>
      simp only [Node.isAgain, checkInOrder, hfirst] at h
      cases h
      rfl
    | seq form es =>
      simp only [Node.isAgain, checkInOrder, hfirst] at h
      cases h
      rfl
    | _ => simp [Node.isMap, Node.isSeq] at hlisted

theorem visited_of_walk {env} (hm : env.meaning ⟨n, rootTypes env.language, none, none⟩ = .ok m)
    (h : Ends (walk env ⟨n, []⟩) s () s') : Visited (visitTo env (visitDepth n)) m n := by
  unfold walk at h
  obtain ⟨m', s₁, hmeaning, hvisit⟩ := h.bind
  obtain ⟨hm', rfl⟩ := hmeaning.lift
  rw [full_eq, ite_self] at hm'
  cases hm.symm.trans hm'
  obtain ⟨ctx, hends⟩ := hvisit.discard
  exact ⟨_, _, _, _, _, _, _, hends⟩

/-- The types that are known after the way through a tool that imports nothing but types: those that
its requirements import, in the version in which such imports are known. -/
theorem tool_imports (hS : S.Sound) (hsteps : S.env.language.ListsSteps)
    (htypes : S.env.language.ListsTypes (Language.firstType v))
    (htidy : AllMaps Tidy (.map form es)) {kind} (hkind : kind ∈ Language.toolTypes)
    (hclass : es.field? "class" = some (.text kind styled)) (honly : importsTypesOnly es = true)
    (hs : Standing S s) (h : Ends (walk S.env ⟨.map form es, []⟩) s () s') (t) :
    Node.Entries.hasField s'.1.types t = true ↔ Node.Entries.hasField s.1.types t = true ∨ S.ImportsType v
        ((UserTypes.listed ((es.field? "requirements").getD .null)).toOption.getD .null) t := by
  obtain ⟨m, hm, hfound⟩ := walk_finds hS htidy hs h
  have hvisited := visited_of_walk hm h
  have hprocess : kind ∈ Language.processTypes := by
    simp only [Language.toolTypes, mem_cons, not_mem_nil, or_false] at hkind
    rcases hkind with rfl | rfl <;> simp [Language.processTypes]
  rw [hS.meaning] at hm
  have hnamed : Node.field? (.map form es) "class" = some (.text kind styled) := hclass
  obtain ⟨documented, fields, hget, rfl⟩ := infer_process hsteps hprocess hnamed hm
  obtain ⟨⟨required, types⟩, hfield, nothing, field, items, rfl, hnothing, hname, hall, hsome⟩ :=
    (htypes kind hkind _ _ _ hget).get?
  obtain ⟨depth, hdepth⟩ : ∃ depth, visitDepth (.map form es) = depth + 5 :=
    ⟨visitDepth (.map form es) - 5, by unfold visitDepth; omega⟩
  rw [hdepth] at hvisited hfound
  rw [hfound.types]
  refine or_congr_right (record_imports hS (by simp [plainFields]) htidy.1.textKeys honly hfield hvisited
    (Q := fun n => S.ImportsType v ((UserTypes.listed n).toOption.getD .null) t) (not_importsType rfl t)
    (fun child m hinside hchild hm hvisit map key value => ?_) none none none)
  have hchildTidy : AllMaps Tidy child := AllMaps.field? (n := .map form es) htidy hchild
  by_cases hlisted : child.isMap = true ∨ child.isSeq = true
  · have hnone : child.field? "class" = none := by
      cases child with
      | map form' own =>
        rw [requirementsImport, Bool.and_eq_true, Bool.not_eq_true'] at hinside
        exact Node.field?_eq_none hinside.1
      | _ => rfl
    rw [hS.meaning] at hm
    obtain rfl := infer_requirements hnothing hname hlisted hnone hm
    exact requirements_imports hS hall hsome hchildTidy hinside hvisit map key value t
  · have hother : child.isMap = false ∧ child.isSeq = false := by simpa using hlisted
    have hfree := requirementsImport_free hinside hother.1 hother.2
    refine free_imports hS hfree (meaning_free hS hfree hm) ?_ map key value t
    cases child with
    | map => cases hother.1
    | seq => cases hother.2
    | _ => rfl

end

end CwlService.Analysis
