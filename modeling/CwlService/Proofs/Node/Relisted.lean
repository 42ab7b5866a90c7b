import CwlService.Proofs.Node.Extent
import CwlService.Proofs.Node.Order
import Mathlib.Data.List.Perm.Basic

/-! # Listings of reordered data

A list of items and its reordered form have the same entries one after the other; a map and
its reordered form have the same entries in another order, under different texts. Either
way the spans are the same, and so are the problems. -/
namespace CwlService

open List

/-- Elements that are related one by one and then come in another order. -/
def Shuffled {α β : Type} (R : α → β → Prop) (xs : List α) (ys : List β) : Prop :=
  ∃ zs, Forall₂ R xs zs ∧ zs.Perm ys

namespace Shuffled

variable {α β γ : Type} {R : α → β → Prop} {xs : List α} {ys : List β}

theorem of_forall₂ (h : Forall₂ R xs ys) : Shuffled R xs ys := ⟨ys, h, .refl _⟩

theorem flatMap_perm (h : Shuffled R xs ys) {f : α → List γ} {g : β → List γ}
    (hfg : ∀ x ∈ xs, ∀ y ∈ ys, R x y → (f x).Perm (g y)) : (xs.flatMap f).Perm (ys.flatMap g) := by
  obtain ⟨zs, hzs, hperm⟩ := h
  refine .trans ?_ (hperm.flatMap_right g)
  replace hfg : ∀ x ∈ xs, ∀ z ∈ zs, R x z → (f x).Perm (g z) :=
    fun x hx z hz => hfg x hx z (hperm.mem_iff.mp hz)
  clear hperm
  induction hzs with
  | nil => exact .refl _
  | @cons x z xs zs hxz _ ih =>
    rw [flatMap_cons, flatMap_cons]
    refine .append (hfg x (by simp) z (by simp) hxz) (ih ?_)
    exact fun x hx z hz => hfg x (mem_cons_of_mem _ hx) z (mem_cons_of_mem _ hz)

theorem of_perm {xs' ys'} (h : Shuffled R xs ys) (hxs : xs'.Perm xs) (hys : ys.Perm ys') : Shuffled R xs' ys' := by
  obtain ⟨zs, hzs, hperm⟩ := h
  obtain ⟨zs', hzs', hperm'⟩ := perm_comp_forall₂ hxs hzs
  exact ⟨zs', hzs', hperm'.trans (hperm.trans hys)⟩

variable {f : α → γ} {g : β → γ}

theorem map_perm (h : Shuffled R xs ys) (hfg : ∀ x y, R x y → f x = g y) : (xs.map f).Perm (ys.map g) := by
  rw [map_eq_flatMap, map_eq_flatMap]
  exact h.flatMap_perm fun x _ y _ hxy => by rw [hfg x y hxy]

theorem map_filter_perm (h : Shuffled R xs ys) {p : α → Bool} {q : β → Bool} (hpq : ∀ x y, R x y → p x = q y)
    (hfg : ∀ x y, R x y → f x = g y) : ((xs.filter p).map f).Perm ((ys.filter q).map g) := by
  obtain ⟨zs, hzs, hperm⟩ := h
  refine .trans ?_ ((hperm.filter q).map g)
  clear hperm
  induction hzs with
  | nil => exact .refl _
  | @cons x z xs zs hxz _ ih =>
    rw [filter_cons, filter_cons, hpq x z hxz]
    split
    · rw [map_cons, map_cons, hfg x z hxz]
      exact .cons _ ih
    · exact ih

end Shuffled

namespace Listing

open Node (AllMaps TextKeys)

/-! ## Items -/

/-- An entry of a list, and the same one with its value reordered. -/
structure ItemReordered (e e' : ListingEntry) : Prop where
  isKey : e.key.isKey = true
  key : e.key = e'.key
  value : Node.Reordered e.value e'.value
  keySpan : e.keySpan = e'.keySpan
  index : e.index = e'.index

variable {e : ListingEntry} {es es' : List ListingEntry} {items : Node.Items} {keyField n n' : Node}
  {withSpans : Bool}

theorem put_reordered {e'} (h : Forall₂ ItemReordered es es') (he : ItemReordered e e') :
    Forall₂ ItemReordered (put es e) (put es' e') := by
  unfold put
  rw [any_of_forall₂ ItemReordered.key h fun k => k.same e.key, ← he.key]
  split
  · rw [forall₂_map_left_iff, forall₂_map_right_iff]
    refine h.imp ?_
    intro f f' hf
    rw [hf.key]
    split
    · exact ⟨by rw [← hf.key]; exact hf.isKey, rfl, he.value, he.keySpan, he.index⟩
    · exact hf
  · exact rel_append h (.cons he .nil)

theorem ofItems_reordered {source source'} (keyField withSpans)
    (hspan : ∀ index, source.itemSpan index = source'.itemSpan index) :
    ∀ {items items'}, Node.ItemsReordered items items' → Node.ItemsAllMaps TextKeys items →
      ∀ index {acc acc'} ds,
        Forall₂ ItemReordered acc acc' → (ofItems source keyField withSpans index items acc ds).1 =
            (ofItems source' keyField withSpans index items' acc' ds).1 ∧
          SameOutcome (Forall₂ ItemReordered) (ofItems source keyField withSpans index items acc ds).2
            (ofItems source' keyField withSpans index items' acc' ds).2
  | [], _, rfl, _, index, acc, acc', ds, hacc => ⟨rfl, .ok hacc⟩
  | (place, item) :: rest, _, ⟨item', rest', rfl, hitem, hrest⟩, hkeys, index, acc, acc', ds, hacc => by
    have ih := @ofItems_reordered source source' keyField withSpans hspan rest rest' hrest hkeys.2
      (index + 1)
    cases item with
    | map form es =>
      obtain ⟨es', rfl, hes⟩ := hitem.map_left
      have hvalueSpan := hes.valueSpan_eq hkeys.1.1 form keyField
      have hkey : Node.Reordered
          ((if keyField.isKey then Node.Entries.value? es keyField else none).getD .null)
          ((if keyField.isKey then Node.Entries.value? es' keyField else none).getD .null) := by
        split
        · have hvalue := hes.value?_rel hkeys.1.1 keyField
          generalize Node.Entries.value? es keyField = v, Node.Entries.value? es' keyField = v' at hvalue
          cases hvalue with
          | none => rfl
          | some hv => exact hv
        · rfl
      -- the entry that is found, wherever the key stands
      have hfound : ∀ key span, key.isKey = true → ItemReordered ⟨key, .map form es, span, index⟩
          ⟨key, .map form es', span, index⟩ := fun key span hkey => ⟨hkey, rfl, hitem, rfl, rfl⟩
      simp only [ofItems, hvalueSpan, hspan]
      generalize (if keyField.isKey then Node.Entries.value? es keyField else none).getD .null = key,
        (if keyField.isKey then Node.Entries.value? es' keyField else none).getD .null = key' at hkey ⊢
      split
      · exact ⟨rfl, .error _⟩
      cases key with
      | null =>
        cases hkey
        simp only
        cases source'.itemSpan index with
        | ok span => exact ih _ hacc
        | error f => exact ⟨rfl, .error f⟩
      | seq form items =>
        obtain ⟨items', rfl, _⟩ := hkey.seq_left
        exact ⟨rfl, .error _⟩
      | map form es =>
        obtain ⟨es', rfl, _⟩ := hkey.map_left
        exact ⟨rfl, .error _⟩
      | _ =>
        cases hkey
        simp only
        split
        · exact ⟨rfl, .error _⟩
        rename_i hkey
        rw [Bool.not_eq_true, Bool.not_eq_false'] at hkey
        cases withSpans with
        | false => exact ih ds (put_reordered hacc (hfound _ none hkey))
        | true =>
          simp only [if_true]
          cases (Node.map form es').valueSpan keyField with
          | ok span => exact ih ds (put_reordered hacc (hfound _ (some span) hkey))
          | error f => exact ⟨rfl, .error f⟩
    | seq form items =>
      obtain ⟨items', rfl, _⟩ := hitem.seq_left
      exact ih ds hacc
    | again =>
      cases hitem
      exact ⟨rfl, .error _⟩
    | _ =>
      cases hitem
      exact ih ds hacc

/-! ## Listings -/

/-- An entry of a listing, and the same one of another listing with its value reordered. -/
structure EntryReordered (l l' : Listing) (e e' : ListingEntry) : Prop where
  isKey : e.key.isKey = true
  key : e.key = e'.key
  value : Node.Reordered e.value e'.value
  idSpan : l.idSpan e = l'.idSpan e'
  valueSpan : l.valueSpan e = l'.valueSpan e'

/-- Entries under different texts. -/
structure TextEntries (es : List ListingEntry) : Prop where
  isText : ∀ e ∈ es, e.key.isText = true
  distinct : ((es.map (·.key)).map Node.text?).Nodup

/-- Listings with the same entries, one after the other or under different texts. -/
structure Reordered (l l' : Listing) : Prop where
  form : l.form = l'.form
  entries : Shuffled (EntryReordered l l') l.entries l'.entries
  order : Forall₂ (EntryReordered l l') l.entries l'.entries ∨ TextEntries l.entries

theorem TextEntries.distinct_keys (h : TextEntries es) : es.Pairwise fun e f => e.key.same f.key = false := by
  have hkeys : ∀ k ∈ es.map (·.key), k.isText = true := by
    intro k hk
    obtain ⟨e, he, rfl⟩ := mem_map.mp hk
    exact h.isText e he
  exact pairwise_map.mp ((Node.nodup_texts_iff hkeys).mp h.distinct)

theorem sorted_perm (h : es.Pairwise fun e f => e.key.same f.key = false) : (sorted es).Perm es := by
  have hfold : ∀ es acc : List ListingEntry,
      ((acc ++ es).Pairwise fun e f => e.key.same f.key = false) →
      (es.foldl insert acc).Perm (acc ++ es) := by
    intro es
    induction es with
    | nil => intro acc _; rw [append_nil]; exact .refl _
    | cons e es ih =>
      intro acc h
      have hnew : (acc.any fun f => f.key.same e.key) = false := by
        rw [any_eq_false]
        intro f hf
        rw [(pairwise_append.mp h).2.2 f hf e (by simp)]
        exact Bool.false_ne_true
      have hinsert : (insert acc e).Perm (e :: acc) := by
        rw [insert, if_neg (by simp [hnew])]
        refine perm_middle.trans (.cons e ?_)
        rw [takeWhile_append_dropWhile]
      have hperm : (insert acc e ++ es).Perm (acc ++ e :: es) :=
        (hinsert.append_right es).trans perm_middle.symm
      refine (ih _ (hperm.symm.pairwise h ?_)).trans hperm
      intro e f hef
      rwa [Node.same_comm]
  exact hfold es [] h

theorem textEntries_ofEntries {es} (h : TextKeys es) : TextEntries (ofEntries es) := by
  refine ⟨?_, ?_⟩
  · intro e he
    obtain ⟨f, hf, rfl⟩ := mem_map.mp he
    exact h.isText f hf
  · rw [ofEntries, map_map, map_map]
    exact h.distinct

theorem map_reordered {form es es'} (h : Node.Rearranged es es') (hkeys : TextKeys es) :
    Reordered ⟨.map, .map form es, ofEntries es⟩ ⟨.map, .map form es', ofEntries es'⟩ := by
  refine ⟨rfl, ?_, .inr (textEntries_ofEntries hkeys)⟩
  have hkeySpan := h.keySpan_eq hkeys form
  have hvalueSpan := h.valueSpan_eq hkeys form
  obtain ⟨inside, hinside, hperm⟩ := h
  refine ⟨ofEntries inside, ?_, hperm.map _⟩
  rw [Node.entriesReordered_iff] at hinside
  unfold ofEntries
  rw [forall₂_map_left_iff, forall₂_map_right_iff]
  refine ((forall₂_and_left es inside).mpr ⟨hkeys.isText, hinside⟩).imp ?_
  rintro ⟨k, places, v⟩ ⟨k', places', v'⟩ ⟨htext, hk, _, hv⟩
  obtain rfl : k = k' := hk
  obtain ⟨s, styled, hs⟩ := Node.isText_iff.mp htext
  exact ⟨by rw [show k = _ from hs]; rfl, rfl, hv, hkeySpan k, hvalueSpan k⟩

theorem seq_reordered {form items'} (h : Node.ItemsReordered items items')
    (hes : Forall₂ ItemReordered es es') :
    Reordered ⟨.list, .seq form items, es⟩ ⟨.list, .seq form items', es'⟩ := by
  have hentries : Forall₂ (EntryReordered ⟨.list, .seq form items, es⟩
      ⟨.list, .seq form items', es'⟩) es es' := by
    refine hes.imp ?_
    rintro ⟨k, v, keySpan, index⟩ ⟨k', v', keySpan', index'⟩ ⟨hkey, hk, hv, hspan, hindex⟩
    obtain rfl : k = k' := hk
    obtain rfl : keySpan = keySpan' := hspan
    obtain rfl : index = index' := hindex
    exact ⟨hkey, rfl, hv, rfl, h.itemSpan_eq form index⟩
  exact ⟨rfl, .of_forall₂ hentries, .inl hentries⟩

namespace Reordered

variable {l l' : Listing} (h : Reordered l l')

include h

theorem textEntries (htexts : TextEntries l.entries) : TextEntries l'.entries := by
  have hkeys : (l.entries.map (·.key)).Perm (l'.entries.map (·.key)) :=
    h.entries.map_perm fun _ _ he => he.key
  refine ⟨?_, ?_⟩
  · intro e he
    obtain ⟨f, hf, hkey⟩ := mem_map.mp (hkeys.mem_iff.mpr (mem_map_of_mem he))
    rw [← hkey]
    exact htexts.isText f hf
  · exact (hkeys.map Node.text?).nodup_iff.mp htexts.distinct

theorem sorted : Shuffled (EntryReordered l l') (sorted l.entries) (sorted l'.entries) := by
  rcases h.order with hentries | htexts
  · exact .of_forall₂ (sorted_forall₂ EntryReordered.key hentries)
  · exact h.entries.of_perm (sorted_perm htexts.distinct_keys) (sorted_perm (h.textEntries htexts).distinct_keys).symm

end Reordered

theorem of_reordered (h : Node.Reordered n n') (hkeys : AllMaps TextKeys n) (keyField : Node) :
    (of n keyField).1 = (of n' keyField).1 ∧
      SameOutcome Reordered (of n keyField).2 (of n' keyField).2 := by
  cases n with
  | map form es =>
    obtain ⟨es', rfl, hes⟩ := h.map_left
    exact ⟨rfl, .ok (map_reordered hes hkeys.1)⟩
  | seq form items =>
    obtain ⟨items', rfl, hitems⟩ := h.seq_left
    obtain ⟨hproblems, hentries⟩ := ofItems_reordered keyField true (hitems.itemSpan_eq form) hitems
      hkeys 0 [] .nil
    exact ⟨hproblems, hentries.map fun _ _ => seq_reordered hitems⟩
  | _ =>
    cases h
    exact ⟨rfl, .ok ⟨rfl, .of_forall₂ .nil, .inl .nil⟩⟩

theorem allMaps_of_listed {P : Node.Entries → Prop} {l} (h : (of n keyField).2 = .ok l)
    (hn : AllMaps P n) : ∀ e ∈ l.entries, AllMaps P e.value := by
  intro e he
  cases lists_of h with
  | map form es =>
    obtain ⟨f, hf, rfl⟩ := mem_map.mp he
    exact Node.entriesAllMaps_iff.mp hn.2 f hf
  | list hitems =>
    cases isLast_ofItems hitems he with
    | intro => exact Node.itemsAllMaps_iff.mp hn (_, e.value) (mem_append_right _ mem_cons_self)
  | neither => cases he

theorem asMap_reordered (h : Node.Reordered n n') (hkeys : AllMaps TextKeys n) (keyField : Node) :
    (asMap n keyField).1 = (asMap n' keyField).1 ∧
      SameOutcome (fun es es' => NameSet.ofList (es.map (·.key)) = NameSet.ofList (es'.map (·.key)))
        (asMap n keyField).2 (asMap n' keyField).2 := by
  cases n with
  | map form es =>
    obtain ⟨es', rfl, hes⟩ := h.map_left
    refine ⟨rfl, .ok ?_⟩
    simp only [ofEntries, map_map, Function.comp_def]
    refine NameSet.ofList_eq_of_perm hes.keys_perm ?_ ?_
    · intro k hk
      obtain ⟨e, he, rfl⟩ := mem_map.mp hk
      exact hkeys.1.isText e he
    · rw [map_map]
      exact hkeys.1.distinct
  | seq form items =>
    obtain ⟨items', rfl, hitems⟩ := h.seq_left
    obtain ⟨hproblems, hentries⟩ := ofItems_reordered keyField false (hitems.itemSpan_eq form) hitems
      hkeys 0 [] .nil
    refine ⟨hproblems, ?_⟩
    simp only [asMap]
    generalize (ofItems (.seq form items) keyField false 0 items [] []).2 = r,
      (ofItems (.seq form items') keyField false 0 items' [] []).2 = r' at hentries ⊢
    cases hentries with
    | error f => exact .error f
    | ok hes => exact .ok (by rw [Node.map_eq_of_forall₂ hes fun _ _ => ItemReordered.key])
  | _ =>
    cases h
    exact ⟨rfl, .ok rfl⟩

end Listing
end CwlService
