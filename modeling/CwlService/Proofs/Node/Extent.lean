import CwlService.Node.Spans
import CwlService.Proofs.Node.Reordered
import CwlService.Proofs.Text.Extent

/-! # Spans in reordered data

The text of a collection extends as far whatever the order of the entries in its maps. So
the spans of keys, values and items in reordered data are the same. -/
namespace CwlService.Node

open Text (extent extent_around extent_after extent_intercalate)
open List

/-! ## Texts of collections -/

theorem innerPairs_eq_map (around : List Nat) (es : Entries) : innerPairs around es =
    es.map fun e => "(" ++ innerKeyIn around e.1 ++ ", " ++ innerIn around e.2.2 ++ ")" := by
  induction es with
  | nil => rw [innerPairs, map_nil]
  | cons e es ih => rw [innerPairs, ih, map_cons]

theorem innerEntries_eq_map (around : List Nat) (es : Entries) : innerEntries around es =
    es.map fun e => innerKeyIn around e.1 ++ ": " ++ innerIn around e.2.2 := by
  induction es with
  | nil => rw [innerEntries, map_nil]
  | cons e es ih => rw [innerEntries, ih, map_cons]

theorem innerItems_eq_map (around : List Nat) (items : Items) :
    innerItems around items = items.map fun i => innerIn around i.2 := by
  induction items with
  | nil => rw [innerItems, map_nil]
  | cons i items ih => rw [innerItems, ih, map_cons]

theorem getLast?_toList_append (s : String) {t} (ht : t.toList ≠ []) :
    (s ++ t).toList.getLast? = t.toList.getLast? := by
  rw [String.toList_append, getLast?_append_of_ne_nil _ ht]

theorem extent_entry (key : String) {s t} (h : extent s = extent t) :
    extent ("(" ++ key ++ ", " ++ s ++ ")") = extent ("(" ++ key ++ ", " ++ t ++ ")") ∧
      extent (key ++ ": " ++ s) = extent (key ++ ": " ++ t) := by
  constructor
  · refine extent_around ?_ (by decide) h
    rw [getLast?_toList_append _ (by decide)]
    decide
  · refine extent_after ?_ h
    rw [getLast?_toList_append _ (by decide)]
    decide

theorem extent_fixedText {parts parts'} (h : parts.map extent = parts'.map extent) :
    extent (fixedText parts) = extent (fixedText parts') := by
  have hmany : extent ("(" ++ ", ".intercalate parts ++ ")") =
      extent ("(" ++ ", ".intercalate parts' ++ ")") :=
    extent_around (by decide) (by decide) (extent_intercalate (by rw [h]))
  cases parts with
  | nil =>
    cases parts' with
    | nil => rfl
    | cons part' rest' => cases h
  | cons part rest =>
    cases parts' with
    | nil => cases h
    | cons part' rest' =>
      obtain ⟨hpart, hrest⟩ := cons.inj h
      cases rest with
      | nil =>
        obtain rfl : rest' = [] := by simpa using hrest.symm
        show extent ("(" ++ part ++ ",)") = extent ("(" ++ part' ++ ",)")
        exact extent_around (by decide) (by decide) hpart
      | cons next rest =>
        cases rest' with
        | nil => cases hrest
        | cons next' rest' => exact hmany

theorem extent_innerIn {n n'} (h : Reordered n n') (around : List Nat) :
    extent (innerIn around n) = extent (innerIn around n') := by
  induction n using induction generalizing n' around with
  | leaf n hseq hmap => rw [h.eq_of_leaf hseq hmap]
  | seq form items ih =>
    obtain ⟨items', rfl, hitems⟩ := h.seq_left
    have hparts : (innerItems (form.around around) items).map extent =
      (innerItems (form.around around) items').map extent := by
      rw [innerItems_eq_map, innerItems_eq_map, map_map, map_map]
      have heach := hitems.each (R := fun m n => extent (innerIn (form.around around) m) =
        extent (innerIn (form.around around) n)) fun i hi _ hn => ih i hi hn _
      exact map_eq_of_forall₂ heach fun _ _ => id
    simp only [innerIn]
    split
    · rfl
    split
    · exact extent_fixedText hparts
    · exact extent_around (by decide) (by decide) (extent_intercalate (by rw [hparts]))
  | map form es ih =>
    obtain ⟨es', rfl, inside, hinside, hperm⟩ := h.map_left
    have heach := hinside.each (R := fun m n => extent (innerIn (form.around around) m) =
      extent (innerIn (form.around around) n)) fun e he _ hn => ih e he hn _
    have hpairs : ((innerPairs (form.around around) es).map extent).Perm
        ((innerPairs (form.around around) es').map extent) := by
      simp only [innerPairs_eq_map, map_map]
      refine .trans (.of_eq (map_eq_of_forall₂ heach fun e e' he => ?_)) (hperm.map _)
      rw [Function.comp, Function.comp, he.1]
      exact (extent_entry _ he.2).1
    have hentries : ((innerEntries (form.around around) es).map extent).Perm
        ((innerEntries (form.around around) es').map extent) := by
      simp only [innerEntries_eq_map, map_map]
      refine .trans (.of_eq (map_eq_of_forall₂ heach fun e e' he => ?_)) (hperm.map _)
      rw [Function.comp, Function.comp, he.1]
      exact (extent_entry _ he.2).2
    have hempty : es.isEmpty = es'.isEmpty := by
      have hlength : es.length = es'.length := heach.length_eq.trans hperm.length_eq
      cases es <;> cases es' <;> simp_all
    simp only [innerIn, hempty]
    split
    · rfl
    split
    · split
      · rfl
      · refine extent_around ?_ (by decide) (extent_intercalate hpairs)
        rw [getLast?_toList_append _ (by decide)]
        decide
    · exact extent_around (by decide) (by decide) (extent_intercalate hentries)

/-! ## Where values end -/

theorem isOpen_append (s : String) {t} (ht : t.toList ≠ []) :
    Text.isOpen false (s ++ t).toList = Text.isOpen false t.toList := by
  unfold Text.isOpen
  rw [getLast?_toList_append s ht]

theorem isOpen_fixedText (parts) : Text.isOpen false (fixedText parts).toList = true := by
  unfold fixedText
  split
  · rw [isOpen_append _ (by decide)]
    decide
  · rw [isOpen_append _ (by decide)]
    decide

theorem isOpen_seq (around : List Nat) (form : Form) (items : Items) :
    Text.isOpen false (innerIn around (.seq form items)).toList = true := by
  simp only [innerIn]
  split
  · unfold seqDots
    split <;> decide
  split
  · exact isOpen_fixedText _
  · rw [isOpen_append _ (by decide)]
    decide

theorem isOpen_map (around : List Nat) (form : Form) (es : Entries) :
    Text.isOpen false (innerIn around (.map form es)).toList = true := by
  simp only [innerIn]
  split
  · unfold mapDots
    split <;> decide
  split
  · split
    · rw [isOpen_append _ (by decide)]
      decide
    · rw [isOpen_append _ (by decide)]
      decide
  · rw [isOpen_append _ (by decide)]
    decide

theorem endPlace_of_shown {n} (h : n.isNull = false) (start : Place) : endPlace start n =
    match Text.lines n.shown with
    | [] => start
    | [line] => ⟨start.line, start.column + line.length⟩
    | ls => ⟨start.line + ls.length, lineEnd⟩ := by
  unfold endPlace
  split
  · cases h
  · rfl

theorem endPlace_of_inner {α : Type} {make : α → Node} {x y} (h : Reordered (make x) (make y))
    (hshown : ∀ x, (make x).isNull = false ∧ (make x).shown = innerIn [] (make x))
    (hopen : ∀ x, Text.isOpen false (innerIn [] (make x)).toList = true) (start : Place) :
    endPlace start (make x) = endPlace start (make y) := by
  rw [endPlace_of_shown (hshown x).1, endPlace_of_shown (hshown y).1, (hshown x).2, (hshown y).2]
  have hextent := extent_innerIn h []
  rcases Text.lines_of_extent hextent (hopen x) (hopen y) with ⟨hone, hone'⟩ | ⟨hlength, hmany⟩
  · rw [hone, hone']
    dsimp only
    rw [(Prod.mk.inj hextent).1]
  · have htwo : ∀ ls : List String, 1 < ls.length → ∃ a b rest, ls = a :: b :: rest := by
      intro ls hls
      match ls, hls with
      | a :: b :: rest, _ => exact ⟨a, b, rest, rfl⟩
    obtain ⟨a, b, rest, hlines⟩ := htwo _ hmany
    obtain ⟨a', b', rest', hlines'⟩ := htwo _ (hlength ▸ hmany)
    rw [hlines, hlines'] at hlength ⊢
    dsimp only
    rw [hlength]

theorem Reordered.endPlace_eq {n n'} (h : Reordered n n') (start : Place) :
    endPlace start n = endPlace start n' := by
  cases n with
  | seq form items =>
    obtain ⟨items', rfl, _⟩ := h.seq_left
    exact @endPlace_of_inner _ (.seq form) _ _ h (fun _ => ⟨rfl, rfl⟩) (isOpen_seq [] form) start
  | map form es =>
    obtain ⟨es', rfl, _⟩ := h.map_left
    exact @endPlace_of_inner _ (.map form) _ _ h (fun _ => ⟨rfl, rfl⟩) (isOpen_map [] form) start
  | _ =>
    cases h
    rfl

/-! ## Spans -/

namespace Rearranged

variable {es es' : Entries} (h : Rearranged es es') (hkeys : TextKeys es) (form : Form)

include h hkeys

theorem entryPlaces_eq (k : Node) : (map form es).entryPlaces k = (map form es').entryPlaces k := by
  have hunder := h.under?_rel hkeys k
  have hany : (es.any fun e => e.2.1.isSome) = es'.any fun e => e.2.1.isSome :=
    h.any_eq fun _ _ he => by rw [he.places]
  have hplaces : (Entries.under? es k).bind (·.2.1) = (Entries.under? es' k).bind (·.2.1) := by
    generalize Entries.under? es k = e, Entries.under? es' k = e' at hunder
    cases hunder with
    | none => rfl
    | some he => exact he.places
  simp only [entryPlaces, hplaces, hany]

theorem keySpan_eq (k : Node) : (map form es).keySpan k = (map form es').keySpan k := by
  unfold keySpan
  rw [h.entryPlaces_eq hkeys form k]

theorem valueSpan_eq (k : Node) : (map form es).valueSpan k = (map form es').valueSpan k := by
  have hend : ∀ start, endPlace start ((es.value? k).getD .null) =
      endPlace start ((es'.value? k).getD .null) := by
    intro start
    have hvalue := h.value?_rel hkeys k
    generalize es.value? k = v, es'.value? k = v' at hvalue
    cases hvalue with
    | none => rfl
    | some hv => exact hv.endPlace_eq start
  unfold valueSpan
  rw [h.entryPlaces_eq hkeys form k]
  simp only [hend]

end Rearranged

theorem ItemsReordered.itemSpan_eq {items items'} (h : ItemsReordered items items') (form : Form)
    (index : Nat) :
    (seq form items).itemSpan index = (seq form items').itemSpan index := by
  rw [itemsReordered_iff] at h
  have hany : (items.any fun i => i.1.isSome) = items'.any fun i => i.1.isSome := by
    induction h with
    | nil => rfl
    | cons hi _ ih => rw [any_cons, any_cons, hi.1, ih]
  have hget : Option.Rel (fun i i' => i.1 = i'.1 ∧ Reordered i.2 i'.2) items[index]? items'[index]? := by
    clear hany
    induction h generalizing index with
    | nil => exact .none
    | cons hi _ ih =>
      cases index with
      | zero => exact .some hi
      | succ index => exact ih index
  simp only [itemSpan, itemPlace, hany]
  generalize items[index]? = i, items'[index]? = i' at hget ⊢
  cases hget with
  | none => rfl
  | @some i i' hi =>
    obtain ⟨place, n⟩ := i
    obtain ⟨place', n'⟩ := i'
    obtain rfl : place = place' := hi.1
    have hend : ∀ start, endPlace start n = endPlace start n' := hi.2.endPlace_eq
    simp only [Option.map_some, Option.getD_some, hend]
    cases place <;> rfl

end CwlService.Node
