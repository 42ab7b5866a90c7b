import CwlService.Node.Spans
import CwlService.Proofs.Node.Keys

/-! # The same data at other places

When a part of a document is written in another way, what follows it moves. Data that has
moved has the same fields, and knows the places of the same ones. -/
namespace CwlService.Node

mutual
/-- The data, with all that has a place at the beginning of a text. -/
def atOrigin : Node → Node
  | .seq form items => .seq form (itemsAtOrigin items)
  | .map form entries => .map form (entriesAtOrigin entries)
  | n => n

def itemsAtOrigin : Items → Items
  | [] => []
  | (place, n) :: rest => (place.map fun _ => ⟨0, 0⟩, atOrigin n) :: itemsAtOrigin rest

def entriesAtOrigin : Entries → Entries
  | [] => []
  | (k, places, n) :: rest =>
    (k, places.map fun _ => (⟨0, 0⟩, ⟨0, 0⟩), atOrigin n) :: entriesAtOrigin rest
end

/-- Two pieces of data that differ at most in where they are. -/
def Moved (a b : Node) : Prop := a.atOrigin = b.atOrigin

variable (n : Node) (form : Form) (items : Items) (index : Nat)

/-- A map without the entries under a text. -/
def dropField (name : String) : Node :=
  match n with
  | .map form es => .map form (Entries.eraseField es name)
  | n => n

/-- Whether a map knows the place of what is under a text. -/
def knowsPlace (name : String) : Bool :=
  match n with
  | .map form es => form.marked && (List.find? (fun e => e.1.isName name) es).any (·.2.1.isSome)
  | _ => false

/-! ## Spans of fields -/

theorem isOk_entryPlaces (es : Entries) (name : String) (styled : Bool) :
    ((map form es).entryPlaces (.text name styled)).isOk = (map form es).knowsPlace name := by
  simp only [entryPlaces, knowsPlace, under?_text]
  cases form.marked with
  | false => rfl
  | true =>
    cases hplaces : (List.find? (fun e => e.1.isName name) es).bind (·.2.1) with
    | some places =>
      obtain ⟨e, he, hsome⟩ := Option.bind_eq_some_iff.mp hplaces
      simp [he, hsome]
      rfl
    | none =>
      have hnone : ((List.find? (fun e => e.1.isName name) es).any (·.2.1.isSome)) = false := by
        rw [Option.any_eq_false_iff_get]
        intro hsome
        simpa using Option.bind_eq_none_iff.mp hplaces _ (Option.some_get hsome).symm
      rw [hnone]
      cases List.any es (·.2.1.isSome) <;> rfl

theorem isOk_valueSpan (name : String) (styled : Bool) :
    (n.valueSpan (.text name styled)).isOk = n.knowsPlace name := by
  cases n with
  | map form es =>
    rw [← isOk_entryPlaces form es name styled, valueSpan]
    cases (map form es).entryPlaces (.text name styled) <;> rfl
  | _ => rfl

theorem isOk_keySpan (name styled) : (n.keySpan (.text name styled)).isOk = n.knowsPlace name := by
  cases n with
  | map form es =>
    rw [← isOk_entryPlaces form es name styled, keySpan]
    cases (map form es).entryPlaces (.text name styled) <;> rfl
  | _ => rfl

theorem isOk_itemPlace :
    ((seq form items).itemPlace index).isOk = (form.marked && items[index]?.any (·.1.isSome)) := by
  simp only [itemPlace]
  cases form.marked with
  | false => rfl
  | true =>
    rcases items[index]? with _ | ⟨_ | place, n⟩
    · cases items.any (·.1.isSome) <;> rfl
    · cases items.any (·.1.isSome) <;> rfl
    · rfl

theorem isOk_itemSpan :
    ((seq form items).itemSpan index).isOk = (form.marked && items[index]?.any (·.1.isSome)) := by
  rw [← isOk_itemPlace, itemSpan]
  cases (seq form items).itemPlace index <;> rfl

/-! ## Fields besides a dropped one -/

section

variable {name other : String}

theorem find?_eraseField (hne : name ≠ other) (es : Entries) :
    List.find? (fun e => e.1.isName name) (Entries.eraseField es other) =
      List.find? (fun e => e.1.isName name) es := by
  induction es with
  | nil => rfl
  | cons e es ih =>
    rw [Entries.eraseField, List.filter_cons]
    cases hname : e.1.isName name with
    | true =>
      have hother : e.1.isName other = false := by
        obtain ⟨styled, hkey⟩ := isName_iff.mp hname
        simpa [hkey, isName] using hne
      rw [hother, Bool.not_false, if_pos rfl, List.find?_cons, List.find?_cons, hname]
    | false =>
      rw [List.find?_cons, hname, ← ih, Entries.eraseField]
      split
      · rw [List.find?_cons, hname]
      · rfl

theorem field?_dropField (hne : name ≠ other) (n : Node) :
    (n.dropField other).field? name = n.field? name := by
  cases n with
  | map form es => simp only [dropField, field?, Entries.field?, find?_eraseField hne]
  | _ => rfl

theorem knowsPlace_dropField (hne : name ≠ other) (n : Node) :
    (n.dropField other).knowsPlace name = n.knowsPlace name := by
  cases n with
  | map form es => simp only [dropField, knowsPlace, find?_eraseField hne]
  | _ => rfl

end

/-! ## Moved data -/

theorem itemsAtOrigin_eq_map : itemsAtOrigin items = items.map fun i => (i.1.map fun _ => ⟨0, 0⟩, i.2.atOrigin) := by
  induction items with
  | nil => rfl
  | cons i items ih => rw [itemsAtOrigin, ih, List.map_cons]

theorem find?_entriesAtOrigin (name : String) (es : Entries) :
    List.find? (fun e => e.1.isName name) (entriesAtOrigin es) =
      (List.find? (fun e => e.1.isName name) es).map fun e =>
        (e.1, e.2.1.map fun _ => (⟨0, 0⟩, ⟨0, 0⟩), e.2.2.atOrigin) := by
  induction es with
  | nil => rfl
  | cons e es ih =>
    rw [entriesAtOrigin, List.find?_cons, List.find?_cons]
    cases e.1.isName name with
    | true => rfl
    | false => exact ih

theorem field?_atOrigin (name) : n.atOrigin.field? name = (n.field? name).map atOrigin := by
  cases n with
  | map form es =>
    simp only [atOrigin, field?, Entries.field?, find?_entriesAtOrigin, Option.map_map]
    rfl
  | _ => rfl

theorem knowsPlace_atOrigin (name : String) : n.atOrigin.knowsPlace name = n.knowsPlace name := by
  cases n with
  | map form es =>
    simp only [atOrigin, knowsPlace, find?_entriesAtOrigin, Option.any_map]
    congr 2
    funext e
    simp
  | _ => rfl

theorem atOrigin_of_isKey {n : Node} (h : n.isKey = true) : n.atOrigin = n := by
  cases n with
  | seq => cases h
  | map => cases h
  | _ => rfl

theorem isKey_atOrigin : n.atOrigin.isKey = n.isKey := by
  cases n <;> rfl

theorem atOrigin_getD (n : Option Node) (default : Node) :
    (n.getD default).atOrigin = (n.map atOrigin).getD default.atOrigin := by
  cases n <;> rfl

namespace Moved

variable {a b : Node}

theorem isKey_eq (h : Moved a b) : a.isKey = b.isKey := by
  rw [← isKey_atOrigin a, h, isKey_atOrigin]

theorem field?_eq (h : Moved a b) (name : String) :
    (a.field? name).map atOrigin = (b.field? name).map atOrigin := by
  rw [← field?_atOrigin, ← field?_atOrigin, h]

theorem knowsPlace_eq (h : Moved a b) (name : String) : a.knowsPlace name = b.knowsPlace name := by
  rw [← knowsPlace_atOrigin a, h, knowsPlace_atOrigin]

theorem seq_left {form} {items : Items} (h : Moved (.seq form items) b) :
    ∃ items', b = .seq form items' ∧ itemsAtOrigin items = itemsAtOrigin items' := by
  cases b with
  | seq form' items' =>
    obtain ⟨rfl, hitems⟩ := seq.inj h
    exact ⟨items', rfl, hitems⟩
  | _ => cases h

theorem isOk_itemSpan_eq {form items items'} (h : itemsAtOrigin items = itemsAtOrigin items')
    (index : Nat) :
    ((seq form items).itemSpan index).isOk = ((seq form items').itemSpan index).isOk := by
  have hplaces : ∀ items : Items, (items[index]?.any (·.1.isSome)) =
      (itemsAtOrigin items)[index]?.any (·.1.isSome) := by
    intro items
    rw [itemsAtOrigin_eq_map, List.getElem?_map, Option.any_map]
    congr 1
    funext i
    simp
  rw [isOk_itemSpan, isOk_itemSpan, hplaces items, hplaces items', h]

theorem eq_of_isKey (h : Moved a b) (hkey : a.isKey = true) : a = b := by
  rw [← atOrigin_of_isKey hkey, h, atOrigin_of_isKey (h.isKey_eq ▸ hkey)]

end Moved

end CwlService.Node
