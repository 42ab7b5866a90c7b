import CwlService.Node.Listing
import CwlService.Proofs.Node.Table
import CwlService.Proofs.Outcome
import Mathlib.Data.List.Basic
import Mathlib.Data.List.Induction

/-! # What the items of a list tell

Each item of a list tells one thing: a map that has a key tells an entry, a map that has none tells a
problem, and anything else tells nothing. What is listed in the end is what all items told, put together
one after the other, whether or not the spans of keys are asked for. -/
namespace CwlService

open List

namespace Listing

variable {source keyField item n : Node} {withSpans : Bool} {index : Nat} {place : Option Place}
  {items rest : Node.Items} {acc es : List ListingEntry} {ds : List Diagnostic} {e f : ListingEntry} {l : Listing}

/-- The key of an item of a list: what a map has in the key field, unless that is null. -/
def itemKey? (keyField : Node) : Node → Option Node
  | .map _ es => (if keyField.isKey then Node.Entries.value? es keyField else none).filter fun k => !k.isNull
  | _ => none

/-- What an item of a list tells, unless it cannot be told. -/
def tell (source keyField : Node) (withSpans : Bool) (index : Nat) (item : Node) :
    Except Fault (List Diagnostic × List ListingEntry) :=
  match item with
  | .map form _ =>
    if !keyField.isKey && !form.marked then throw .wrongKind else
    match itemKey? keyField item with
    | none => do return ([missingKey keyField (← source.itemSpan index)], [])
    | some key =>
      if !key.isKey then throw .wrongKind
      else if withSpans then do return ([], [⟨key, item, some (← item.valueSpan keyField), index⟩])
      else pure ([], [⟨key, item, none, index⟩])
  | .again _ => throw .endless
  | _ => pure ([], [])

theorem ofItems_cons : ofItems source keyField withSpans index ((place, item) :: rest) acc ds =
    match tell source keyField withSpans index item with
    | .error f => (ds, .error f)
    | .ok (found, added) => ofItems source keyField withSpans (index + 1) rest (added.foldl put acc) (ds ++ found) := by
  have hnone : ds = ds ++ [] := (append_nil ds).symm
  cases item with
  | map form es =>
    simp only [ofItems, tell, itemKey?]
    split
    · rfl
    generalize (if keyField.isKey then Node.Entries.value? es keyField else none) = key
    rcases key with _ | key
    · cases source.itemSpan index <;> rfl
    cases key with
    | null => cases source.itemSpan index <;> rfl
    | _ =>
      simp only [Option.getD_some, Option.filter_some, Node.isNull, Bool.not_false, if_true]
      split
      · rfl
      split
      · cases (Node.map form es).valueSpan keyField with
        | error f => rfl
        | ok span => exact congrArg _ hnone
      · exact congrArg _ hnone
  | again => rfl
  | _ => exact congrArg _ hnone

/-- The problem of a map without a key. -/
def itemProblems (source keyField : Node) (i : (Option Place × Node) × Nat) : List Diagnostic :=
  if i.1.2.isMap && (itemKey? keyField i.1.2).isNone then (source.itemSpan i.2).toOption.toList.map
    (missingKey keyField)
  else []

/-- The entry of an item that has a key. -/
def itemEntries (keyField : Node) (withSpans : Bool) (i : (Option Place × Node) × Nat) : List ListingEntry :=
  (itemKey? keyField i.1.2).toList.map fun key =>
    ⟨key, i.1.2, if withSpans then (i.1.2.valueSpan keyField).toOption else none, i.2⟩

theorem tell_eq {told} (h : tell source keyField withSpans index item = .ok told) (place) : told =
      (itemProblems source keyField ((place, item), index), itemEntries keyField withSpans ((place, item), index)) := by
  unfold itemProblems itemEntries
  cases item with
  | map form own =>
    simp only [tell] at h
    split at h
    · cases h
    split at h <;> rename_i hkey <;> rw [hkey]
    · obtain ⟨span, hspan, hret⟩ := bind_eq_ok h
      cases hret
      rw [hspan]
      rfl
    · split at h
      · cases h
      split at h <;> rename_i hspans
      · obtain ⟨span, hspan, hret⟩ := bind_eq_ok h
        cases hret
        simp [hspans, hspan, Except.toOption]
      · cases h
        simp [hspans]
  | again => cases h
  | _ =>
    cases h
    rfl

theorem isOk_ofItems : ∀ items index acc ds,
    (ofItems source keyField withSpans index items acc ds).2.isOk =
      (items.zipIdx index).all fun i => (tell source keyField withSpans i.2 i.1.2).isOk
  | [], _, _, _ => rfl
  | i :: rest, index, acc, ds => by
    rw [ofItems_cons, zipIdx_cons, all_cons]
    cases tell source keyField withSpans index i.2 with
    | error f => rfl
    | ok told => exact (isOk_ofItems rest (index + 1) _ _).trans (Bool.true_and _).symm

/-- What all items tell is put together. -/
theorem ofItems_eq : ∀ {items index acc ds},
    (ofItems source keyField withSpans index items acc ds).2 = .ok es →
    ofItems source keyField withSpans index items acc ds =
      (ds ++ (items.zipIdx index).flatMap (itemProblems source keyField),
        .ok (((items.zipIdx index).flatMap (itemEntries keyField withSpans)).foldl put acc))
  | [], _, _, ds, h => by
    rw [zipIdx_nil, flatMap_nil, append_nil]
    rfl
  | (place, item) :: rest, index, acc, ds, h => by
    rw [ofItems_cons] at h ⊢
    cases htell : tell source keyField withSpans index item with
    | error f => rw [htell] at h; cases h
    | ok told =>
      rw [htell, tell_eq htell place] at h
      rw [tell_eq htell place, zipIdx_cons, flatMap_cons, flatMap_cons, foldl_append, ← append_assoc]
      exact ofItems_eq h

theorem eq_of_ofItems (h : (ofItems source keyField withSpans index items acc ds).2 = .ok es) :
    es = ((items.zipIdx index).flatMap (itemEntries keyField withSpans)).foldl put acc := by
  rw [ofItems_eq h] at h
  exact (Except.ok.inj h).symm

/-! ## Entries put together -/

/-- The keys and values of entries, without their spans. -/
def pairs (es : List ListingEntry) : List (Node × Node) := es.map fun e => (e.key, e.value)

theorem keys_eq (es : List ListingEntry) : es.map (·.key) = (pairs es).map (·.1) := by simp [pairs]

theorem map_foldl_put {α : Type} {g : ListingEntry → α} (hg : ∀ e k, g { e with key := k } = g e) :
    ∀ added es : List ListingEntry, (added.foldl put es).map (fun f => (f.key, g f)) =
      Table.setAll (es.map fun f => (f.key, g f)) (added.map fun f => (f.key, g f))
  | [], _ => rfl
  | e :: rest, es => by
    have hput : (put es e).map (fun f => (f.key, g f)) = _ :=
      Table.map_set (c := fun f : ListingEntry => { e with key := f.key }) (fun _ => rfl) (fun _ => hg e _) rfl
    rw [foldl_cons, map_foldl_put hg rest, hput]
    rfl

theorem foldl_put_of_distinct {added : List ListingEntry} (h : Node.Distinct (added.map (·.key))) :
    added.foldl put [] = added := by
  have hrows := map_foldl_put (g := fun e => (e.value, e.keySpan, e.index)) (fun _ _ => rfl) added []
  rw [map_nil, Table.setAll_of_distinct _ _ (by rw [nil_append, map_map]; exact h), nil_append] at hrows
  refine map_injective_iff.mpr (fun e f hef => ?_) hrows
  cases e
  cases f
  simpa using hef

/-- The items that have a key, under it. -/
def keyed (keyField : Node) (items : Node.Items) : List (Node × Node) :=
  items.filterMap fun i => (itemKey? keyField i.2).map fun key => (key, i.2)

/-- The entries of a list by one part of them, which is set for one item after the other. -/
theorem rows_ofItems {α : Type} {g : ListingEntry → α} (hg : ∀ e k, g { e with key := k } = g e)
    (h : (ofItems source keyField withSpans index items [] ds).2 = .ok es) :
    es.map (fun e => (e.key, g e)) = Table.setAll [] ((items.zipIdx index).filterMap fun i =>
      (itemKey? keyField i.1.2).map fun key =>
        (key, g ⟨key, i.1.2, if withSpans then (i.1.2.valueSpan keyField).toOption else none, i.2⟩)) := by
  rw [eq_of_ofItems h, map_foldl_put hg, map_nil, map_flatMap, filterMap_eq_flatMap_toList]
  refine congrArg _ (flatMap_congr fun i _ => ?_)
  rw [itemEntries]
  cases itemKey? keyField i.1.2 <;> rfl

theorem pairs_ofItems (h : (ofItems source keyField withSpans index items [] ds).2 = .ok es) :
    pairs es = Table.setAll [] (keyed keyField items) := by
  rw [pairs, rows_ofItems (fun _ _ => rfl) h, keyed, ← zipIdx_map_fst index items, filterMap_map, zipIdx_map_fst]
  rfl

/-- An entry of the last item of its key, under the key as it came first. -/
inductive IsLast (keyField : Node) (withSpans : Bool) : Node.Items → ListingEntry → Prop where
  | intro {before after : Node.Items} {place e own} (hindex : e.index = before.length)
      (hspan : e.keySpan = if withSpans then (e.value.valueSpan keyField).toOption else none)
      (hown : itemKey? keyField e.value = some own)
      (hkey : e.key = own ∨ e.key.same own = true ∧ ∃ i ∈ before, itemKey? keyField i.2 = some e.key)
      (hlast : ∀ i ∈ after, ∀ k, itemKey? keyField i.2 = some k → e.key.same k = false) :
    IsLast keyField withSpans (before ++ (place, e.value) :: after) e

theorem IsLast.concat (h : IsLast keyField withSpans items e) {i}
    (hi : ∀ k, itemKey? keyField i.2 = some k → e.key.same k = false) : IsLast keyField withSpans (items ++ [i]) e := by
  cases h with
  | intro hindex hspan hown hkey hlast =>
    rw [append_assoc, cons_append]
    exact .intro hindex hspan hown hkey (forall_mem_append.mpr ⟨hlast, by simpa using hi⟩)

theorem isLast_of_mem (h : e ∈ ((items.zipIdx).flatMap (itemEntries keyField withSpans)).foldl put []) :
    IsLast keyField withSpans items e := by
  induction items using reverseRec generalizing e with
  | nil => cases h
  | append_singleton items i ih =>
    obtain ⟨place, item⟩ := i
    rw [zipIdx_append, flatMap_append, foldl_append, zipIdx_singleton, flatMap_singleton, itemEntries] at h
    cases hown : itemKey? keyField item with
    | none =>
      rw [hown] at h
      exact (ih h).concat fun k hk => nomatch hown.symm.trans hk
    | some own =>
      have hself : ∀ key, (key = own ∨ key.same own = true ∧ ∃ i ∈ items, itemKey? keyField i.2 = some key) →
          IsLast keyField withSpans (items ++ [(place, item)])
            ⟨key, item, if withSpans then (item.valueSpan keyField).toOption else none, 0 + items.length⟩ :=
        fun key hkey => @IsLast.intro keyField withSpans items [] place ⟨key, item, _, _⟩ own
          (Nat.zero_add _) rfl hown hkey
          (by simp)
      rw [hown] at h
      rcases Table.mem_replaced h with ⟨h, hne⟩ | rfl | ⟨g, hg, hsame, rfl⟩
      · exact (ih h).concat fun k hk => Option.some.inj (hown.symm.trans hk) ▸ hne
      · exact hself own (.inl rfl)
      · refine hself g.key (.inr ⟨hsame, ?_⟩)
        cases ih hg with
        | intro _ _ hown hkey _ =>
          rcases hkey with rfl | ⟨-, i, hi, hkey⟩
          · exact ⟨_, mem_append_right _ mem_cons_self, hown⟩
          · exact ⟨i, mem_append_left _ hi, hkey⟩

theorem isLast_ofItems (h : (ofItems source keyField withSpans 0 items [] ds).2 = .ok es) (he : e ∈ es) :
    IsLast keyField withSpans items e := by
  rw [eq_of_ofItems h] at he
  exact isLast_of_mem he

/-! ## Listings -/

/-- The listing of a node. -/
inductive Lists (keyField : Node) : Node → Listing → Prop where
  | map (form : Form) (es : Node.Entries) : Lists keyField (.map form es) ⟨.map, .map form es, ofEntries es⟩
  | list {form : Form} {items : Node.Items} {es}
      (h : (ofItems (.seq form items) keyField true 0 items [] []).2 = .ok es) :
    Lists keyField (.seq form items) ⟨.list, .seq form items, es⟩
  | neither {n : Node} (hmap : n.isMap = false) (hseq : n.isSeq = false) : Lists keyField n ⟨.neither, n, []⟩

theorem lists_of (h : (of n keyField).2 = .ok l) : Lists keyField n l := by
  cases n with
  | map form es =>
    cases h
    exact .map form es
  | seq form items =>
    obtain ⟨es, hes, rfl⟩ := map_eq_ok h
    exact .list hes
  | _ =>
    cases h
    exact .neither rfl rfl

theorem pairs_of_asMap (h : (asMap n keyField).2 = .ok es) (h' : (of n keyField).2 = .ok l) :
    pairs l.entries = pairs es := by
  cases lists_of h' with
  | map form fields =>
    cases h
    rfl
  | list hitems => rw [pairs_ofItems hitems, pairs_ofItems h]
  | neither hmap hseq =>
    cases n with
    | map => cases hmap
    | seq => cases hseq
    | _ =>
      cases h
      rfl

theorem keys_of_asMap (h : (asMap n keyField).2 = .ok es) (h' : (of n keyField).2 = .ok l) :
    l.entries.map (·.key) = es.map (·.key) := by
  rw [keys_eq, keys_eq, pairs_of_asMap h h']

theorem exists_of_pairs {fs} (h : pairs fs = pairs es) (he : e ∈ es) :
    ∃ e' ∈ fs, e'.key = e.key ∧ e'.value = e.value := by
  have hpair : (e.key, e.value) ∈ pairs fs := h ▸ mem_map_of_mem he
  obtain ⟨e', he', heq⟩ := mem_map.mp hpair
  exact ⟨e', he', congrArg Prod.fst heq, congrArg Prod.snd heq⟩

end Listing
end CwlService
