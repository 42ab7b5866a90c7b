import CwlService.Proofs.Node.Moved
import CwlService.Proofs.Node.Told
import Mathlib.Data.List.Forall2

/-! # Maps under names

Maps under names are written down as a map from the names, or as a list in which each map
carries its name besides its other fields. Seen as a listing, both forms have the same keys
and, the names apart, the same fields under them, and both know all spans. -/
namespace CwlService

open List

variable {n : Node}

namespace Node

/-- The name that an item of a list carries. -/
def itemName (n : Node) : Node := (n.field? "id").getD .null

/-- An item of a list that carries a text as its name, with places. -/
structure IsNamedItem (i : Option Place × Node) : Prop where
  placed : i.1.isSome = true
  isText : i.2.itemName.isText = true
  knowsPlace : i.2.knowsPlace "id" = true

/-- A map under a text, with places. -/
structure IsNamedEntry (e : Node × Option (Place × Place) × Node) : Prop where
  placed : e.2.1.isSome = true
  isText : e.1.isText = true
  isMap : e.2.2.isMap = true

/-- A node writes down maps under names, in one of the two forms or as nothing. -/
inductive Writes : Node → List (Node × Node) → Prop
  | nothing : Writes .null []
  | map {form} {entries : Entries} (marked : form.marked = true)
      (named : ∀ e ∈ entries, IsNamedEntry e) (distinct : Distinct (entries.map (·.1))) :
      Writes (.map form entries) (entries.map fun e => (e.1, e.2.2))
  | list {form} {items : Items} (marked : form.marked = true) (named : ∀ i ∈ items, IsNamedItem i)
      (distinct : Distinct (items.map (·.2.itemName))) :
      Writes (.seq form items) (items.map fun i => (i.2.itemName, i.2.dropField "id"))

/-- A map that has the fields of another, its name apart. -/
structure Carries (value body : Node) : Prop where
  isMap : value.isMap = true
  field : ∀ name, name ≠ "id" → value.field? name = body.field? name
  place : ∀ name, name ≠ "id" → value.knowsPlace name = body.knowsPlace name

theorem carries_self (h : n.isMap = true) : Carries n n :=
  ⟨h, fun _ _ => rfl, fun _ _ => rfl⟩

theorem carries_dropField (h : n.isMap = true) : Carries n (n.dropField "id") :=
  ⟨h, fun _ hne => (field?_dropField hne n).symm, fun _ hne => (knowsPlace_dropField hne n).symm⟩

theorem isMap_of_knowsPlace {name} (h : n.knowsPlace name = true) : n.isMap = true := by
  cases n with
  | map => rfl
  | _ => cases h

end Node

namespace Listing

open Node

/-! ## Lists -/

/-- The entry of an item. -/
def itemEntry (withSpans : Bool) (i : (Option Place × Node) × Nat) : ListingEntry :=
  ⟨i.1.2.itemName, i.1.2, if withSpans then (i.1.2.valueSpan (.str "id")).toOption else none, i.2⟩

theorem tell_named {i} (hi : IsNamedItem i.1) (source : Node) (withSpans : Bool) :
    tell source (.str "id") withSpans i.2 i.1.2 = .ok ([], [itemEntry withSpans i]) := by
  obtain ⟨⟨place, item⟩, index⟩ := i
  obtain ⟨s, styled, hname⟩ := isText_iff.mp hi.isText
  obtain ⟨span, hspan⟩ := exists_of_isOk ((isOk_valueSpan item "id" false).trans hi.knowsPlace)
  cases item with
  | map form es =>
    have hkey : itemKey? (.str "id") (.map form es) = some (.text s styled) := by
      change (Entries.field? es "id").getD .null = _ at hname
      rw [itemKey?, if_pos (by rfl), value?_text]
      cases hfield : Entries.field? es "id" with
      | none => rw [hfield] at hname; cases hname
      | some k => rw [hfield, Option.getD_some] at hname; rw [hname]; rfl
    rw [tell, if_neg (by simp [isKey]), hkey, itemEntry, hname, hspan]
    cases withSpans <;> rfl
  | _ => cases hi.knowsPlace

theorem keys_itemEntry (withSpans : Bool) (items : Items) :
    ((items.zipIdx 0).map (itemEntry withSpans)).map (·.key) = items.map (·.2.itemName) := by
  rw [map_map]
  nth_rewrite 2 [← zipIdx_map_fst 0 items]
  rw [map_map]
  rfl

theorem ofItems_named (source withSpans) {items} (hnamed : ∀ i ∈ items, IsNamedItem i)
    (hdistinct : Distinct (items.map (·.2.itemName))) :
    ofItems source (.str "id") withSpans 0 items [] [] = ([], .ok ((items.zipIdx 0).map (itemEntry withSpans))) := by
  have htell := fun i (hi : i ∈ items.zipIdx) => tell_named (hnamed i.1 (fst_mem_of_mem_zipIdx hi)) source withSpans
  have hok : (ofItems source (.str "id") withSpans 0 items [] []).2.isOk = true := by
    rw [isOk_ofItems, all_eq_true]
    intro i hi
    rw [htell i hi]
    rfl
  obtain ⟨es, hes⟩ := exists_of_isOk hok
  have htold : ∀ i ∈ items.zipIdx, [] = itemProblems source (.str "id") i ∧
      [itemEntry withSpans i] = itemEntries (.str "id") withSpans i :=
    fun i hi => Prod.mk.inj (tell_eq (htell i hi) i.1.1)
  rw [ofItems_eq hes, flatMap_eq_nil_iff.mpr fun i hi => (htold i hi).1.symm,
    flatMap_congr fun i hi => (htold i hi).2.symm, ← map_eq_flatMap, foldl_put_of_distinct]
  · rfl
  · rwa [keys_itemEntry]

/-! ## Either form -/

/-- A listing that knows where all its entries are. -/
structure KnowsSpans (l : Listing) : Prop where
  value : ∀ e ∈ l.entries, (l.valueSpan e).isOk = true
  id : ∀ e ∈ l.entries, (l.idSpan e).isOk = true

/-- A listing that shows maps under names. -/
structure Shows (l : Listing) (content : List (Node × Node)) : Prop where
  entries : Forall₂ (fun e c => e.key = c.1 ∧ Carries e.value c.2) l.entries content
  spans : KnowsSpans l

theorem shows_list {form} {items : Items} (hmarked : form.marked = true)
    (hnamed : ∀ i ∈ items, IsNamedItem i) :
    Shows ⟨.list, .seq form items, (items.zipIdx 0).map (itemEntry true)⟩
      (items.map fun i => (i.2.itemName, i.2.dropField "id")) := by
  have hitem : ∀ i ∈ items.zipIdx 0, IsNamedItem i.1 := fun i hi =>
    hnamed i.1 (fst_mem_of_mem_zipIdx hi)
  refine ⟨?_, ?_, ?_⟩
  · rw [← zipIdx_map_fst 0 items, map_map, forall₂_map_left_iff,
      forall₂_map_right_iff, zipIdx_map_fst, forall₂_same]
    intro i hi
    exact ⟨rfl, carries_dropField (isMap_of_knowsPlace (hitem i hi).knowsPlace)⟩
  · intro e he
    obtain ⟨i, hi, rfl⟩ := mem_map.mp he
    have hget : items[i.2]? = some i.1 := by simpa using mem_zipIdx_iff_getElem?.mp hi
    refine (isOk_itemSpan form items i.2).trans ?_
    rw [hmarked, hget, Option.any_some, (hitem i hi).placed]
    rfl
  · intro e he
    obtain ⟨i, hi, rfl⟩ := mem_map.mp he
    have hok := isOk_valueSpan i.1.2 "id" false
    rw [(hitem i hi).knowsPlace] at hok
    unfold idSpan itemEntry
    cases hspan : i.1.2.valueSpan (.str "id") with
    | error f => rw [hspan] at hok; cases hok
    | ok span => rfl

theorem knowsPlace_of_named {form : Form} {entries : Entries} (hmarked : form.marked = true)
    (hnamed : ∀ e ∈ entries, IsNamedEntry e) {name styled}
    (hkey : text name styled ∈ entries.map (·.1)) : (map form entries).knowsPlace name = true := by
  obtain ⟨e, he, hkey⟩ := mem_map.mp hkey
  have hfound : (find? (fun e => e.1.isName name) entries).isSome = true := by
    rw [find?_isSome]
    exact ⟨e, he, by simp [hkey, isName]⟩
  obtain ⟨f, hf⟩ := Option.isSome_iff_exists.mp hfound
  rw [knowsPlace, hmarked, hf, Option.any_some, (hnamed f (mem_of_find?_eq_some hf)).placed]
  rfl

theorem shows_map {form} {entries : Entries} (hmarked : form.marked = true)
    (hnamed : ∀ e ∈ entries, IsNamedEntry e) :
    Shows ⟨.map, .map form entries, ofEntries entries⟩ (entries.map fun e => (e.1, e.2.2)) := by
  have hplace : ∀ e ∈ entries, ∃ name styled, e.1 = .text name styled ∧
      (map form entries).knowsPlace name = true := by
    intro e he
    obtain ⟨name, styled, hkey⟩ := isText_iff.mp (hnamed e he).isText
    exact ⟨name, styled, hkey,
      knowsPlace_of_named hmarked hnamed (mem_map.mpr ⟨e, he, hkey⟩)⟩
  refine ⟨?_, ?_, ?_⟩
  · rw [ofEntries, forall₂_map_left_iff, forall₂_map_right_iff, forall₂_same]
    intro e he
    exact ⟨rfl, carries_self (hnamed e he).isMap⟩
  · intro f hf
    obtain ⟨e, he, rfl⟩ := mem_map.mp hf
    obtain ⟨name, styled, hkey, hknows⟩ := hplace e he
    simp only [valueSpan, hkey, isOk_valueSpan, hknows]
  · intro f hf
    obtain ⟨e, he, rfl⟩ := mem_map.mp hf
    obtain ⟨name, styled, hkey, hknows⟩ := hplace e he
    simp only [idSpan, hkey, isOk_keySpan, hknows]

variable {content : List (Node × Node)}

theorem of_writes (h : Writes n content) : ∃ l, of n (.str "id") = ([], .ok l) ∧ Shows l content := by
  cases h with
  | nothing => exact ⟨_, rfl, .nil, by simp, by simp⟩
  | map marked named distinct => exact ⟨_, rfl, shows_map marked named⟩
  | @list form items marked named distinct =>
    refine ⟨⟨.list, .seq form items, (items.zipIdx 0).map (itemEntry true)⟩, ?_,
      shows_list marked named⟩
    rw [of, ofItems_named _ true named distinct]
    rfl

theorem asMap_writes (h : Writes n content) :
    ∃ es, asMap n (.str "id") = ([], .ok es) ∧ es.map (·.key) = content.map (·.1) := by
  cases h with
  | nothing => exact ⟨[], rfl, rfl⟩
  | map marked named distinct =>
    refine ⟨_, rfl, ?_⟩
    rw [ofEntries, map_map, map_map]
    rfl
  | @list form items marked named distinct =>
    refine ⟨_, ofItems_named _ false named distinct, ?_⟩
    rw [keys_itemEntry, map_map]
    rfl

end Listing
end CwlService
