import CwlService.Proofs.Node.Named
import CwlService.Proofs.Node.Relisted

/-! # What can be listed

Maps can always be seen as keys and values. A list can if each of its maps either has its name
in the field `id`, a scalar that knows its place, or knows its own place, so that its missing
name can be reported. A listing has every key once. -/
namespace CwlService

open Node (Distinct)
open List

theorem find?_of_unique {α : Type} {p : α → Bool} {xs : List α}
    (h : xs.Pairwise fun a b => p a = true → p b = false) {x} (hx : x ∈ xs) (hp : p x = true) :
    xs.find? p = some x := by
  induction h with
  | nil => cases hx
  | @cons y ys hy _ ih =>
    rcases mem_cons.mp hx with rfl | hx
    · exact List.find?_cons_of_pos hp
    · have hnot : ¬p y = true := by
        intro hpy
        rw [hy x hx hpy] at hp
        cases hp
      rw [List.find?_cons_of_neg hnot, ih hx]

namespace Node

/-- Entries of which no two have the same key. -/
def UniqueKeys (es : Entries) : Prop := Distinct (es.map (·.1))

instance (names : List Node) : Decidable (Distinct names) :=
  inferInstanceAs (Decidable (names.Pairwise fun a b => a.same b = false))

instance (es : Entries) : Decidable (UniqueKeys es) :=
  inferInstanceAs (Decidable (Distinct (es.map (·.1))))

variable {es : Entries} {name : String}

theorem field?_eq_none (h : es.hasField name = false) : es.field? name = none := by
  rw [Entries.hasField, ← isSome_find?, Option.isSome_eq_false_iff, Option.isNone_iff_eq_none] at h
  exact Option.map_eq_none_iff.mpr h

theorem TextKeys.field?_of_mem (h : TextKeys es) {e} (he : e ∈ es)
    (hname : e.1.isName name = true) : es.field? name = some e.2.2 := by
  have hunique := h.unique (.str name)
  simp only [same_text] at hunique
  exact Option.map_eq_some_iff.mpr ⟨e, find?_of_unique hunique he hname, rfl⟩

theorem TextKeys.uniqueKeys (h : TextKeys es) : UniqueKeys es := by
  refine pairwise_map.mpr ((pairwise_map.mp h.distinct).imp_of_mem ?_)
  intro e e' he _ hne
  obtain ⟨s, styled, hs⟩ := isText_iff.mp (h.isText e he)
  rw [Bool.eq_false_iff, same_of_isName (n := s) (by simp [hs, isName])]
  intro hname
  obtain ⟨styled', hs'⟩ := isName_iff.mp hname
  exact hne (by rw [hs, hs']; rfl)

end Node

namespace Listing

/-! ## Which nodes can be listed -/

/-- Whether an item of a list can be listed by its name, or reported for having none. -/
def itemListable (form : Form) (i : Option Place × Node) : Bool :=
  match i.2 with
  | .map _ es =>
    match (Node.Entries.field? es "id").getD .null with
    | .null => form.marked && i.1.isSome
    | name => name.isKey && i.2.knowsPlace "id"
  | .again _ => false
  | _ => true

/-- Whether a node can be seen as keys and values. -/
def listable : Node → Bool
  | .seq form items => items.all (itemListable form)
  | _ => true

/-- Whether what an item of a list tells can be told. -/
def tellable (keyField : Node) (withSpans : Bool) (form : Form) (i : Option Place × Node) : Bool :=
  match i.2 with
  | .map own _ =>
    (keyField.isKey || own.marked) &&
    match itemKey? keyField i.2 with
    | none => form.marked && i.1.isSome
    | some key => key.isKey && (!withSpans || (i.2.valueSpan keyField).isOk)
  | .again _ => false
  | _ => true

theorem isOk_tell (keyField withSpans form) {items : Node.Items} {i : (Option Place × Node) × Nat}
    (hi : items[i.2]? = some i.1) :
    (tell (.seq form items) keyField withSpans i.2 i.1.2).isOk = tellable keyField withSpans form i.1 := by
  obtain ⟨⟨place, item⟩, index⟩ := i
  have hspan := Node.isOk_itemSpan form items index
  rw [hi, Option.any_some] at hspan
  cases item with
  | map own es =>
    simp only [tell, tellable, ← Bool.not_or, ← hspan]
    cases keyField.isKey || own.marked with
    | false => rfl
    | true =>
      -- an item without a key is reported at its place, any other key has to be one with its own
      rcases itemKey? keyField (.map own es) with _ | key
      · cases (Node.seq form items).itemSpan index <;> rfl
      dsimp only
      cases key.isKey with
      | false => rfl
      | true =>
        cases withSpans with
        | false => rfl
        | true => cases (Node.map own es).valueSpan keyField <;> rfl
  | again => rfl
  | _ => rfl

theorem isOk_ofItems_seq (keyField : Node) (withSpans : Bool) (form : Form) (items : Node.Items) :
    (ofItems (.seq form items) keyField withSpans 0 items [] []).2.isOk =
    items.all (tellable keyField withSpans form) := by
  rw [isOk_ofItems]
  conv_rhs => rw [← zipIdx_map_fst 0 items, all_map]
  rw [Bool.eq_iff_iff, all_eq_true, all_eq_true]
  refine forall₂_congr fun i hi => ?_
  rw [isOk_tell keyField withSpans form (by simpa using mem_zipIdx_iff_getElem?.mp hi)]
  rfl

theorem tellable_id (form : Form) (i : Option Place × Node) :
    tellable (.str "id") true form i = itemListable form i := by
  obtain ⟨place, item⟩ := i
  cases item with
  | map own es =>
    have hkey : (Node.str "id").isKey = true := rfl
    have hid := Node.isOk_valueSpan (.map own es) "id" false
    simp only [tellable, itemListable, itemKey?, hkey, Bool.true_or, Bool.true_and, if_true,
      Node.value?_text, hid, Bool.not_true,
      Bool.false_or]
    rcases Node.Entries.field? es "id" with _ | name
    · rfl
    · cases name <;> rfl
  | _ => rfl

theorem isOk_of (n : Node) : (Listing.of n (.str "id")).2.isOk = listable n := by
  cases n with
  | seq form items =>
    have hall := isOk_ofItems_seq (.str "id") true form items
    rw [funext (tellable_id form)] at hall
    unfold Listing.of
    dsimp only
    refine .trans ?_ hall
    cases (ofItems (.seq form items) (.str "id") true 0 items [] []).2 <;> rfl
  | _ => rfl

variable {es : List ListingEntry} {l : Listing} {keyField n : Node} {e : ListingEntry} {field : String}
  {items : Node.Items}

/-! ## Keys -/

theorem distinct_keys (h : (Listing.of n keyField).2 = .ok l)
    (hkeys : ∀ form es, n = .map form es → Node.UniqueKeys es) : Distinct (l.entries.map (·.key)) := by
  cases lists_of h with
  | map form es =>
    have hmap : (ofEntries es).map (·.key) = es.map (·.1) := by
      rw [ofEntries, map_map]
      rfl
    rw [hmap]
    exact hkeys form es rfl
  | list hitems =>
    rw [keys_eq, pairs_ofItems hitems]
    exact Table.distinct_setAll _ List.Pairwise.nil
  | neither => exact List.Pairwise.nil

/-! ## What stands under a name -/

/-- The value of the entry of a name. -/
def valueOf (es : List ListingEntry) (name : String) : Option Node :=
  (es.find? fun e => e.key.isName name).map (·.value)

theorem valueOf_of_mem (h : Distinct (es.map (·.key))) (he : e ∈ es) {name}
    (hname : e.key.isName name = true) : valueOf es name = some e.value := by
  have hunique : es.Pairwise fun a b => a.key.isName name = true → b.key.isName name = false := by
    refine (pairwise_map.mp h).imp ?_
    intro a b hab ha
    rwa [Node.same_of_isName ha] at hab
  exact Option.map_eq_some_iff.mpr ⟨e, find?_of_unique hunique he hname, rfl⟩

theorem valueOf_eq (es name) : valueOf es name = Table.get? (pairs es) (.str name) := by
  rw [Table.get?, pairs, List.find?_map, Option.map_map]
  simp only [Node.same_text]
  rfl

/-- Whether an item of a list has a name in a field. -/
def isUnder (field name : String) (n : Node) : Bool := (n.field? field).any fun k => k.isName name

theorem field?_of_itemKey? {k} (h : itemKey? (.str field) n = some k) : n.field? field = some k := by
  cases n with
  | map form es =>
    have hkey : (Node.str field).isKey = true := rfl
    rw [itemKey?, if_pos hkey, Node.value?_text] at h
    exact (Option.filter_eq_some_iff.mp h).1
  | _ => cases h

theorem isUnder_eq (field name : String) (n : Node) :
    isUnder field name n = (itemKey? (.str field) n).any fun k => k.isName name := by
  cases n with
  | map form es =>
    have hkey : (Node.str field).isKey = true := rfl
    rw [itemKey?, if_pos hkey, Node.value?_text, isUnder, Node.field?]
    rcases Node.Entries.field? es field with _ | k
    · rfl
    · cases k <;> rfl
  | _ => rfl

theorem get?_keyed (field name : String) (items : Node.Items) :
    Table.get? (keyed (.str field) items).reverse (.str name) =
    (items.filter fun i => isUnder field name i.2).getLast?.map (·.2) := by
  rw [Table.get?, keyed, ← filterMap_reverse, List.find?_filterMap, List.getLast?_eq_head?_reverse,
    ← filter_reverse, head?_filter]
  have hunder : (fun i : Option Place × Node => Option.any (fun e : Node × Node => e.1.same (.str name))
      ((itemKey? (.str field) i.2).map fun key => (key, i.2))) = fun i => isUnder field name i.2 := by
    funext i
    rw [isUnder_eq, Option.any_map]
    simp only [Node.same_text]
  rw [hunder]
  cases hfind : items.reverse.find? fun i => isUnder field name i.2 with
  | none => rfl
  | some i =>
    have hi : isUnder field name i.2 = true := by simpa using List.find?_some hfind
    rw [isUnder_eq] at hi
    obtain ⟨k, hk, -⟩ := (Option.any_eq_true _ _).mp hi
    simp [hk]

/-- What stands under a name in a listing: what a map has under it, or the last item of that name. -/
theorem valueOf_of (h : (Listing.of n (.str field)).2 = .ok l) (name) : valueOf l.entries name =
      match n with
      | .map _ es => Node.Entries.field? es name
      | .seq _ items => (items.filter fun i => isUnder field name i.2).getLast?.map (·.2)
      | _ => none := by
  cases lists_of h with
  | map form es =>
    unfold valueOf ofEntries
    rw [List.find?_map, Option.map_map]
    rfl
  | list hitems =>
    rw [valueOf_eq, pairs_ofItems hitems, Table.get?_setAll, get?_keyed]
    exact Option.or_none
  | neither hmap hseq =>
    cases n with
    | map => cases hmap
    | seq => cases hseq
    | _ => rfl

/-- An entry is an item of a list, under the key that the item has or the same one of another. -/
structure IsItem (items : Node.Items) (field : String) (e : ListingEntry) : Prop where
  item : ∃ place, items[e.index]? = some (place, e.value)
  key : ∃ own, e.value.field? field = some own ∧
    (e.key = own ∨ e.key.same own = true ∧ ∃ i ∈ items, i.2.field? field = some e.key)

theorem isItem_ofItems {source withSpans ds}
    (h : (ofItems source (.str field) withSpans 0 items [] ds).2 = .ok es) (he : e ∈ es) : IsItem items field e := by
  cases isLast_ofItems h he with
  | intro hindex _ hown hkey _ =>
    refine ⟨⟨_, by rw [hindex]; simp; rfl⟩, _, field?_of_itemKey? hown, hkey.imp_right (.imp_right ?_)⟩
    rintro ⟨i, hi, hkey⟩
    exact ⟨i, mem_append_left _ hi, field?_of_itemKey? hkey⟩

theorem IsItem.isUnder_eq (h : IsItem items field e) (name : String) :
    isUnder field name e.value = e.key.isName name := by
  obtain ⟨own, hown, hkey⟩ := h.key
  rw [isUnder, hown, Option.any_some]
  rcases hkey with rfl | ⟨hsame, _⟩
  · rfl
  · exact (Node.isName_of_same hsame name).symm

/-- Where the entries of a listing come from: a map has them, or they are items of a list. -/
theorem mem_of (h : (Listing.of n (.str field)).2 = .ok l) (he : e ∈ l.entries) : l.source = n ∧
    ((∃ form es places, n = .map form es ∧ l.form = .map ∧ (e.key, places, e.value) ∈ es) ∨
      ∃ form items, n = .seq form items ∧ l.form = .list ∧ IsItem items field e) := by
  cases lists_of h with
  | map form es =>
    obtain ⟨f, hf, rfl⟩ := mem_map.mp he
    exact ⟨rfl, .inl ⟨form, es, f.2.1, rfl, rfl, hf⟩⟩
  | @list form items _ hitems => exact ⟨rfl, .inr ⟨form, items, rfl, rfl, isItem_ofItems hitems he⟩⟩
  | neither => cases he

/-! ## Where entries start -/

/-- Where the value of an entry starts, if the place is known. -/
def start? (l : Listing) (e : ListingEntry) : Option Place :=
  match l.source with
  | .map form es => if form.marked then ((Node.Entries.under? es e.key).bind (·.2.1)).map (·.2) else none
  | .seq form items => if form.marked then items[e.index]?.bind (·.1) else none
  | _ => none

theorem start_valueSpan (h : (Listing.of n keyField).2 = .ok l) (e : ListingEntry) :
    (l.valueSpan e).toOption.map (·.start) = l.start? e := by
  cases lists_of h with
  | map form es =>
    simp only [Listing.valueSpan, Node.valueSpan, Node.entryPlaces, start?]
    cases form.marked with
    | false => rfl
    | true =>
      cases (Node.Entries.under? es e.key).bind (·.2.1) with
      | some places => rfl
      | none => cases List.any es (·.2.1.isSome) <;> rfl
  | @list form items =>
    simp only [Listing.valueSpan, Node.itemSpan, Node.itemPlace, start?]
    cases form.marked with
    | false => rfl
    | true =>
      rcases items[e.index]? with _ | ⟨_ | place, item⟩
      · cases List.any items (·.1.isSome) <;> rfl
      · cases List.any items (·.1.isSome) <;> rfl
      · rfl
  | neither hmap hseq =>
    cases n with
    | map => cases hmap
    | seq => cases hseq
    | _ => rfl

/-! ## Lists that know their places -/

/-- Whether an item knows its place and that of its key, which can be looked up if there is one. -/
def itemLocated (keyField : Node) (i : Option Place × Node) : Bool :=
  i.1.isSome && (itemKey? keyField i.2).all (·.isKey) &&
  match i.2 with
  | .map form es => form.marked && (Node.Entries.under? es keyField).all (·.2.1.isSome)
  | .again _ => false
  | _ => true

theorem isOk_valueSpan_of_located {i key} (hi : itemLocated keyField i = true)
    (hkey : itemKey? keyField i.2 = some key) : (i.2.valueSpan keyField).isOk = true := by
  obtain ⟨place, item⟩ := i
  cases item with
  | map form es =>
    simp only [itemLocated, Bool.and_eq_true] at hi
    obtain ⟨-, hmarked, hplaces⟩ := hi
    have hvalue : Node.Entries.value? es keyField = some key := by
      have hsome := (Option.filter_eq_some_iff.mp hkey).1
      split at hsome
      · exact hsome
      · cases hsome
    obtain ⟨e, he, -⟩ := Option.map_eq_some_iff.mp hvalue
    rw [he, Option.all_some] at hplaces
    obtain ⟨places, hsome⟩ := Option.isSome_iff_exists.mp hplaces
    simp [Node.valueSpan, Node.entryPlaces, hmarked, he, hsome]
    rfl
  | _ => cases hkey

theorem tellable_of_located {form} (hmarked : form.marked = true) {i}
    (hi : itemLocated keyField i = true) (withSpans) : tellable keyField withSpans form i = true := by
  obtain ⟨place, item⟩ := i
  have hspan : ∀ key, itemKey? keyField item = some key → _ := fun _ => isOk_valueSpan_of_located hi
  simp only [itemLocated, Bool.and_eq_true] at hi
  obtain ⟨⟨hplace, hkey⟩, hitem⟩ := hi
  cases item with
  | map own es =>
    simp only [tellable, (Bool.and_eq_true_iff.mp hitem).1, Bool.or_true, Bool.true_and]
    cases hsome : itemKey? keyField (.map own es) with
    | none => rw [hmarked, hplace]; rfl
    | some key =>
      rw [hsome, Option.all_some] at hkey
      simp [hkey, hspan key hsome]
  | again => cases hitem
  | _ => rfl

/-- What a list tells, as a listing with spans and as keys and values without them. -/
structure Agree (keyField : Node) (form : Form) (items : Node.Items) (l : Listing) (es : List ListingEntry)
    (missing : List Span) : Prop where
  listed : Listing.of (.seq form items) keyField = (missing.map (missingKey keyField), .ok l)
  mapped : asMap (.seq form items) keyField = (missing.map (missingKey keyField), .ok es)
  /-- The problems are those of the maps without a key, one for each. -/
  keyless : (items.zipIdx.filter fun i => i.1.2.isMap && (itemKey? keyField i.1.2).isNone).map
    (fun i => (Node.seq form items).itemSpan i.2) = missing.map .ok
  same : pairs es = pairs l.entries
  /-- Entries, spans of keys and indices have the same keys as if each were set in a table of its own. -/
  values : pairs l.entries = Table.setAll [] (keyed keyField items)
  spans : l.entries.map (fun e => (e.key, e.keySpan)) = Table.setAll [] (items.zipIdx.filterMap fun i =>
    (itemKey? keyField i.1.2).map fun key => (key, (i.1.2.valueSpan keyField).toOption))
  indices : l.entries.map (fun e => (e.key, e.index)) = Table.setAll [] (items.zipIdx.filterMap fun i =>
    (itemKey? keyField i.1.2).map fun key => (key, i.2))
  distinct : Distinct (l.entries.map (·.key))
  found : ∀ key, (l.entries.any fun e => e.key.same key) = items.any fun i => (itemKey? keyField i.2).any (·.same key)
  last : ∀ e ∈ l.entries, IsLast keyField true items e
  idSpan : ∀ e ∈ l.entries, l.idSpan e = e.value.valueSpan keyField
  valueSpan : ∀ e ∈ l.entries, l.valueSpan e = (Node.seq form items).itemSpan e.index

theorem problems_located {form} (keyField) (items : Node.Items) (hmarked : form.marked = true) :
    ∀ xs : List ((Option Place × Node) × Nat), (∀ i ∈ xs, items[i.2]? = some i.1 ∧ i.1.1.isSome = true) →
    ∃ missing : List Span, xs.flatMap (itemProblems (.seq form items) keyField) = missing.map (missingKey keyField) ∧
      (xs.filter fun i => i.1.2.isMap && (itemKey? keyField i.1.2).isNone).map
        (fun i => (Node.seq form items).itemSpan i.2) = missing.map .ok
  | [], _ => ⟨[], rfl, rfl⟩
  | i :: rest, h => by
    obtain ⟨hi, hrest⟩ := forall_mem_cons.mp h
    obtain ⟨missing, hproblems, hspans⟩ := problems_located keyField items hmarked rest hrest
    rw [flatMap_cons, hproblems, filter_cons, itemProblems]
    cases i.1.2.isMap && (itemKey? keyField i.1.2).isNone with
    | false => exact ⟨missing, rfl, hspans⟩
    | true =>
      have hok := Node.isOk_itemSpan form items i.2
      rw [hi.1, Option.any_some, hi.2, hmarked] at hok
      cases hspan : (Node.seq form items).itemSpan i.2 with
      | error => rw [hspan] at hok; cases hok
      | ok span => exact ⟨span :: missing, rfl, by rw [if_pos rfl, map_cons, hspan, hspans]; rfl⟩

/-- A list that knows its places is told alike with and without the spans of keys, and what is told of an
entry, its value, its spans and its index, belongs to one item, the last that has the key. -/
theorem agree_of_located {form : Form} (hmarked : form.marked = true)
    (h : (items.all (itemLocated keyField)) = true) : ∃ l es missing, Agree keyField form items l es missing := by
  have hok : ∀ withSpans, ∃ es, (ofItems (.seq form items) keyField withSpans 0 items [] []).2 = .ok es := by
    intro withSpans
    refine exists_of_isOk ?_
    rw [isOk_ofItems_seq, all_eq_true]
    exact fun i hi => tellable_of_located hmarked (all_eq_true.mp h i hi) withSpans
  obtain ⟨es, hes⟩ := hok false
  obtain ⟨entries, hentries⟩ := hok true
  obtain ⟨missing, hproblems, hspans⟩ := problems_located keyField items hmarked items.zipIdx
    fun i hi => by
      have hmem := mem_zipIdx_iff_getElem?.mp hi
      have hplaced := all_eq_true.mp h i.1 (mem_of_getElem? hmem)
      simp only [itemLocated, Bool.and_eq_true] at hplaced
      exact ⟨hmem, hplaced.1.1⟩
  have hvalues := pairs_ofItems hentries
  refine ⟨⟨.list, .seq form items, entries⟩, es, missing,
    { listed := ?_, mapped := ?_, keyless := hspans, same := (pairs_ofItems hes).trans hvalues.symm, values := hvalues,
      spans := rows_ofItems (fun _ _ => rfl) hentries, indices := rows_ofItems (fun _ _ => rfl) hentries,
      distinct := ?_, found := fun key => ?_, last := fun e he => isLast_ofItems hentries he, idSpan := fun e he => ?_,
      valueSpan := fun _ _ => rfl }⟩
  · rw [Listing.of, ofItems_eq hentries, ← eq_of_ofItems hentries, hproblems]
    rfl
  · rw [asMap, ofItems_eq hes, ← eq_of_ofItems hes, hproblems]
    rfl
  · rw [keys_eq, hvalues]
    exact Table.distinct_setAll _ List.Pairwise.nil
  · have hany := Table.isSome_get? (pairs entries) key
    rw [hvalues, Table.get?_setAll, Option.isSome_or, Table.isSome_get?, any_reverse, ← hvalues, pairs, any_map, keyed,
      any_filterMap, show (Table.get? [] key : Option Node).isSome = false from rfl, Bool.or_false] at hany
    refine hany.symm.trans (congrArg items.any (funext fun i => ?_))
    cases itemKey? keyField i.2 <;> rfl
  · cases isLast_ofItems hentries he with
    | @intro before after place _ own _ hspan hown =>
      have hok := isOk_valueSpan_of_located (all_eq_true.mp h (place, e.value) (by simp)) hown
      obtain ⟨span, hspan'⟩ := exists_of_isOk hok
      rw [hspan'] at hspan ⊢
      rw [Listing.idSpan, hspan]
      rfl

/-- Two items of one key, a map without a key and a text: the key keeps its place and has the later index. -/
theorem agree_of_located_repeated : ∃ items l es missing, items.all (itemLocated (.str "id")) = true ∧
    Agree (.str "id") .placed items l es missing ∧ l.entries.map (fun e => (e.key, e.index)) =
    [(.str "a", 4), (.str "b", 1)] := by
  let items : Node.Items := [Node.placedMap [("id", .str "a")], Node.placedMap [("id", .str "b")],
    Node.placedMap [("id", .null)], .str "c", Node.placedMap [("id", .str "a")]].map fun n => (some ⟨0, 0⟩, n)
  have hlocated : items.all (itemLocated (.str "id")) = true := by decide +kernel
  have hmarked : Form.placed.marked = true := rfl
  obtain ⟨l, es, missing, h⟩ := agree_of_located hmarked hlocated
  exact ⟨items, l, es, missing, hlocated, h, h.indices.trans (by with_unfolding_all rfl)⟩

end Listing
end CwlService
