import CwlService.Proofs.Analysis.EntryOrder
import CwlService.Proofs.Node.Listed

/-! # Data that imports nothing

A document imports a type where a map with the field `$import` is taken for the link to one. In data
without such maps, however deep, nothing is. -/
namespace CwlService.Analysis

open Node (AllMaps)
open List

variable {S : Scene}

/-- No map in a node imports anything. -/
def ImportFree (n : Node) : Prop := AllMaps (fun es => es.hasField "$import" = false) n

instance (n : Node) : Decidable (ImportFree n) := Node.decidableAllMaps n

theorem ImportFree.field?_import {n} (h : ImportFree n) : n.field? "$import" = none := by
  cases n with
  | map form es =>
    exact Node.field?_eq_none h.1
  | _ => rfl

/-- Only what imports something is taken for a link to a type. -/
theorem meaning_free (hS : S.Sound) {q} (hq : ImportFree q.node) {m} (h : S.env.meaning q = .ok m)
    (target : Node) : m ≠ .linkedType target := by
  rw [hS.meaning] at h
  have hfits := infer_gives_of_class (P := fun _ => True) _ _ _ _ _ (fun _ _ => trivial)
    (fun _ _ _ _ _ _ => trivial) m h
  rintro rfl
  cases hfits with
  | linkedType himport =>
    rw [hq.field?_import] at himport
    cases himport

theorem taken_free (hS : S.Sound) {record fields k child} (hchild : ImportFree child) {key m}
    (h : (S.taken record fields k child key).2 = some m) (target : Node) :
    m ≠ .linkedType target := by
  unfold Scene.taken at h
  split at h
  · rename_i name _
    cases hget : fields.get? name with
    | none =>
      simp only [hget] at h
      split_ifs at h <;> cases h <;> rintro ⟨⟩
    | some f =>
      simp only [hget] at h
      split_ifs at h
      · cases h
        rintro ⟨⟩
      · cases h
        rintro ⟨⟩
      · have hm := eq_ok_of_toOption h
        exact meaning_free hS hchild hm target
  · cases h
    rintro ⟨⟩

theorem runFindings_imports (record k : Node) (m : Meaning) (child : Node) (value : Option Span)
    (named : List String) : (S.runFindings record k m child value named).imports = [] := by
  unfold Scene.runFindings
  split <;> rfl

theorem fieldFindings_imports (find record fields node map key value named e) :
    (S.fieldFindings find record fields node map key value named e).imports =
      match (S.taken record fields e.1 e.2 (fieldSpans node e.1 key value).1).2 with
      | none => []
      | some m => (find m e.2 map (fieldSpans node e.1 key value).1 (fieldSpans node e.1 key value).2).imports := by
  unfold Scene.fieldFindings
  dsimp only
  cases (S.taken record fields e.1 e.2 (fieldSpans node e.1 key value).1).2 with
  | none => rfl
  | some m =>
    dsimp only
    rw [Findings.imports_append, Findings.imports_append, runFindings_imports, append_nil, nil_append]

/-- A way of finding that finds no imports in what imports nothing. -/
def Finder.Free (find : Finder) : Prop := ∀ {m : Meaning} {node : Node} (map : Option MapKey)
  (key value : Option Span), ImportFree node → (∀ target, m ≠ .linkedType target) →
    (find m node map key value).imports = []

theorem fieldFindings_free (hS : S.Sound) {find} (hfind : find.Free) (record : Node)
    (fields : Fields) (node : Node) (map : Option MapKey) (key value : Option Span)
    (named : List String) {e} (he : ImportFree e.2) :
      (S.fieldFindings find record fields node map key value named e).imports = [] := by
  rw [fieldFindings_imports]
  split
  · rfl
  · rename_i m hm
    exact hfind _ _ _ he (taken_free hS he hm)

theorem entryFindings_free (hS : S.Sound) {find} (hfind : find.Free) (name : Node)
    (types : List CwlType) (mapKey : MapKey) (l : Listing) {e} (he : ImportFree e.value) :
    (S.entryFindings find name types mapKey l e).imports = [] := by
  unfold Scene.entryFindings
  split
  · rfl
  · rename_i m hm
    split
    · rfl
    · exact hfind _ _ _ he (meaning_free hS he hm)

theorem recordEntries_free {node} (hnode : ImportFree node) {map entries}
    (h : recordEntries node map = some entries) : ∀ e ∈ entries, ImportFree e.2 := by
  unfold recordEntries at h
  split at h
  · cases h
    intro e he
    obtain ⟨f, hf, rfl⟩ := mem_map.mp he
    exact Node.entriesAllMaps_iff.mp hnode.2 f hf
  · obtain ⟨m, _, rfl⟩ := Option.map_eq_some_iff.mp h
    intro e he
    rw [mem_singleton.mp he]
    exact hnode

theorem findTo_free (hS : S.Sound) : ∀ depth : Nat, Finder.Free (S.findTo depth)
  | 0, _, _, _, _, _, _, _ => rfl
  | depth + 1, m, node, map, key, value, hnode, hm => by
    cases m with
    | linkedType target => exact absurd rfl (hm target)
    | typed t =>
      cases t with
      | array name types =>
        change (S.arrayFindings (S.findTo depth) types node).imports = []
        cases node with
        | seq form items =>
          refine flatMap_eq_nil_iff.mpr fun i hi => ?_
          have hitem : ImportFree i.1.2 := Node.itemsAllMaps_iff.mp hnode _ (fst_mem_of_mem_zipIdx hi)
          unfold Scene.itemFindings
          split
          · rename_i m hm
            exact findTo_free hS depth _ _ _ hitem (meaning_free hS hitem hm)
          · rfl
        | _ => rfl
      | listOrMap name types mapKey =>
        change (S.listingFindings (S.findTo depth) name types mapKey node).imports = []
        unfold Scene.listingFindings
        dsimp only
        split
        · rfl
        · rename_i l hl
          refine flatMap_eq_nil_iff.mpr fun e he => ?_
          exact entryFindings_free hS (findTo_free hS depth) name types mapKey l
            (Listing.allMaps_of_listed hl hnode e he)
      | record name documented fields =>
        change (S.recordFindings (S.findTo depth) name fields node map key value).imports = []
        unfold Scene.recordFindings
        split
        · rfl
        · rename_i entries hentries
          refine flatMap_eq_nil_iff.mpr fun e he => ?_
          exact fieldFindings_free hS (findTo_free hS depth) _ _ _ _ _ _ _ (recordEntries_free hnode hentries e he)
      | _ => rfl
    | _ => rfl

end CwlService.Analysis
