import CwlService.Proofs.Node.Sameness
import Mathlib.Data.List.Forall2

/-! # Maps in another order

Data is reordered if the entries of its maps, at any depth, come in another order; every key
keeps its value and its places. As long as the keys of a map are different texts, what is
found under a name does not depend on the order. -/
namespace CwlService.Node

open List

mutual
/-- The same data, with entries of its maps in another order. -/
def Reordered : Node → Node → Prop
  | .seq form items, n => ∃ items', n = .seq form items' ∧ ItemsReordered items items'
  | .map form entries, n => ∃ inside entries', n = .map form entries' ∧
      EntriesReordered entries inside ∧ inside.Perm entries'
  | m, n => n = m

/-- Items that are reordered one by one. -/
def ItemsReordered : Items → Items → Prop
  | [], items => items = []
  | (place, n) :: rest, items => ∃ n' rest', items = (place, n') :: rest' ∧ Reordered n n' ∧
      ItemsReordered rest rest'

/-- Entries whose values are reordered one by one. -/
def EntriesReordered : Entries → Entries → Prop
  | [], entries => entries = []
  | (k, places, n) :: rest, entries => ∃ n' rest', entries = (k, places, n') :: rest' ∧
      Reordered n n' ∧ EntriesReordered rest rest'
end

/-- Entries in another order, with their values reordered. -/
def Rearranged (es es' : Entries) : Prop := ∃ inside, EntriesReordered es inside ∧ inside.Perm es'

mutual
/-- All maps in a piece of data have a property. -/
def AllMaps (P : Entries → Prop) : Node → Prop
  | .seq _ items => ItemsAllMaps P items
  | .map _ entries => P entries ∧ EntriesAllMaps P entries
  | _ => True

def ItemsAllMaps (P : Entries → Prop) : Items → Prop
  | [] => True
  | (_, n) :: rest => AllMaps P n ∧ ItemsAllMaps P rest

def EntriesAllMaps (P : Entries → Prop) : Entries → Prop
  | [] => True
  | (_, _, n) :: rest => AllMaps P n ∧ EntriesAllMaps P rest
end

/-- Entries under different texts. -/
structure TextKeys (es : Entries) : Prop where
  isText : ∀ e ∈ es, e.1.isText = true
  distinct : (es.map (·.1.text?)).Nodup

instance {es : Entries} : Decidable (TextKeys es) :=
  decidable_of_iff ((∀ e ∈ es, e.1.isText = true) ∧ (es.map (·.1.text?)).Nodup)
    ⟨fun h => ⟨h.1, h.2⟩, fun h => ⟨h.isText, h.distinct⟩⟩

mutual
instance decidableAllMaps {P : Entries → Prop} [DecidablePred P] : (n : Node) → Decidable (AllMaps P n)
  | .seq _ items => decidableItemsAllMaps items
  | .map _ entries => @instDecidableAnd _ _ _ (decidableEntriesAllMaps entries)
  | .null | .bool _ | .int _ _ | .float _ _ | .text _ _ | .date _ _ | .moment _ _ _ | .bytes _ | .tagged _
  | .set _ _ | .again _ => .isTrue trivial

instance decidableItemsAllMaps {P : Entries → Prop} [DecidablePred P] :
    (items : Items) → Decidable (ItemsAllMaps P items)
  | [] => .isTrue trivial
  | (_, n) :: rest => @instDecidableAnd _ _ (decidableAllMaps n) (decidableItemsAllMaps rest)

instance decidableEntriesAllMaps {P : Entries → Prop} [DecidablePred P] :
    (es : Entries) → Decidable (EntriesAllMaps P es)
  | [] => .isTrue trivial
  | (_, _, n) :: rest => @instDecidableAnd _ _ (decidableAllMaps n) (decidableEntriesAllMaps rest)
end

/-- A property of all data: data without parts has it, and collections do if their parts do. -/
theorem induction {C : Node → Prop} (leaf : ∀ n : Node, n.isSeq = false → n.isMap = false → C n)
    (seq : ∀ form items, (∀ i ∈ items, C i.2) → C (.seq form items))
    (map : ∀ form es, (∀ e ∈ es, C e.2.2) → C (.map form es)) : ∀ n, C n
  | .seq form items => seq form items fun i _ => induction leaf seq map i.2
  | .map form es => map form es fun e _ => induction leaf seq map e.2.2
  | .null | .bool _ | .int _ _ | .float _ _ | .text _ _ | .date _ _ | .moment _ _ _ | .bytes _ | .tagged _
  | .set _ _ | .again _ => leaf _ rfl rfl
termination_by n => sizeOf n
decreasing_by
  · rename_i hi
    have hlt := sizeOf_lt_of_mem hi
    obtain ⟨place, n⟩ := i
    simp only [Prod.mk.sizeOf_spec, Node.seq.sizeOf_spec] at hlt ⊢
    omega
  · rename_i he
    have hlt := sizeOf_lt_of_mem he
    obtain ⟨k, places, n⟩ := e
    simp only [Prod.mk.sizeOf_spec, Node.map.sizeOf_spec] at hlt ⊢
    omega

/-! ## Shapes -/

variable {form : Form} {es es' : Entries} {P Q : Entries → Prop} {name : String} {n : Node}

namespace Reordered

variable {a b : Node}

theorem eq_of_leaf (h : Reordered a b) (hseq : a.isSeq = false) (hmap : a.isMap = false) : b = a := by
  cases a with
  | seq => cases hseq
  | map => cases hmap
  | _ => exact h

theorem eq_of_isKey (h : Reordered a b) (hkey : a.isKey = true) : b = a := by
  cases a with
  | seq => cases hkey
  | map => cases hkey
  | _ => exact h

theorem map_left (h : Reordered (.map form es) b) : ∃ es', b = .map form es' ∧ Rearranged es es' := by
  obtain ⟨inside, es', rfl, hinside, hperm⟩ := h
  exact ⟨es', rfl, inside, hinside, hperm⟩

theorem seq_left {items : Items} (h : Reordered (.seq form items) b) :
    ∃ items', b = .seq form items' ∧ ItemsReordered items items' := h

theorem kind_eq {α : Type} {f : Node → α} (h : Reordered a b)
    (hseq : ∀ form items items', f (.seq form items) = f (.seq form items'))
    (hmap : ∀ form es es', f (.map form es) = f (.map form es')) : f a = f b := by
  cases a with
  | seq form items =>
    obtain ⟨items', rfl, _⟩ := h.seq_left
    exact hseq form items items'
  | map form es =>
    obtain ⟨es', rfl, _⟩ := h.map_left
    exact hmap form es es'
  | _ => exact congrArg f h.symm

theorem isKey_eq (h : Reordered a b) : a.isKey = b.isKey := h.kind_eq (fun _ _ _ => rfl) fun _ _ _ => rfl

theorem isMap_eq (h : Reordered a b) : a.isMap = b.isMap := h.kind_eq (fun _ _ _ => rfl) fun _ _ _ => rfl

theorem isText_eq (h : Reordered a b) : a.isText = b.isText :=
  h.kind_eq (fun _ _ _ => rfl) fun _ _ _ => rfl

theorem isNull_eq (h : Reordered a b) : a.isNull = b.isNull :=
  h.kind_eq (fun _ _ _ => rfl) fun _ _ _ => rfl

theorem text?_eq (h : Reordered a b) : a.text? = b.text? := h.kind_eq (fun _ _ _ => rfl) fun _ _ _ => rfl

theorem same_eq (h : Reordered a b) {k : Node} (hk : k.isKey = true) : k.same a = k.same b := by
  cases ha : a.isKey with
  | true => rw [h.eq_of_isKey ha]
  | false =>
    -- a collection is the same as no key
    have hnone : ∀ {n : Node}, n.isKey = false → k.same n = false := by
      intro n hn
      rw [← Bool.not_eq_true]
      intro hsame
      rw [isKey_of_same (same_symm k n hsame) hk] at hn
      cases hn
    rw [hnone ha, hnone (h.isKey_eq ▸ ha)]

end Reordered

/-! ## Lists -/

theorem map_eq_of_forall₂ {α β γ : Type} {R : α → β → Prop} {f : α → γ} {g : β → γ} {xs ys}
    (h : Forall₂ R xs ys) (hfg : ∀ x y, R x y → f x = g y) : xs.map f = ys.map g := by
  rw [← forall₂_eq_eq_eq, forall₂_map_left_iff, forall₂_map_right_iff]
  exact h.imp hfg

theorem exists_of_forall₂ {α β : Type} {R : α → β → Prop} {xs ys} (h : Forall₂ R xs ys) :
    ∀ a ∈ xs, ∃ b ∈ ys, R a b := by
  induction h with
  | nil => nofun
  | cons hab _ ih =>
    refine forall_mem_cons.mpr ⟨⟨_, mem_cons_self, hab⟩, fun a ha => ?_⟩
    obtain ⟨b, hb, hR⟩ := ih a ha
    exact ⟨b, mem_cons_of_mem _ hb, hR⟩

theorem itemsReordered_iff {items items'} : ItemsReordered items items' ↔
    Forall₂ (fun i i' => i.1 = i'.1 ∧ Reordered i.2 i'.2) items items' := by
  induction items generalizing items' with
  | nil => simp [ItemsReordered]
  | cons i rest ih =>
    rw [forall₂_cons_left_iff, ItemsReordered]
    constructor
    · rintro ⟨n', rest', rfl, hn, hrest⟩
      exact ⟨(i.1, n'), rest', ⟨rfl, hn⟩, ih.mp hrest, rfl⟩
    · rintro ⟨⟨place, n'⟩, rest', ⟨hplace, hn⟩, hrest, rfl⟩
      obtain rfl : i.1 = place := hplace
      exact ⟨n', rest', rfl, hn, ih.mpr hrest⟩

/-- An entry of a map, and the same one with its value reordered. -/
structure EntryReordered (e e' : Node × Option (Place × Place) × Node) : Prop where
  key : e.1 = e'.1
  places : e.2.1 = e'.2.1
  value : Reordered e.2.2 e'.2.2

theorem entriesReordered_iff : EntriesReordered es es' ↔ Forall₂ EntryReordered es es' := by
  induction es generalizing es' with
  | nil => simp [EntriesReordered]
  | cons e rest ih =>
    rw [forall₂_cons_left_iff, EntriesReordered]
    constructor
    · rintro ⟨n', rest', rfl, hn, hrest⟩
      exact ⟨(e.1, e.2.1, n'), rest', ⟨rfl, rfl, hn⟩, ih.mp hrest, rfl⟩
    · rintro ⟨⟨k, places, n'⟩, rest', ⟨hk, hplaces, hn⟩, hrest, rfl⟩
      obtain rfl : e.1 = k := hk
      obtain rfl : e.2.1 = places := hplaces
      exact ⟨n', rest', rfl, hn, ih.mpr hrest⟩

theorem itemsAllMaps_iff {items} : ItemsAllMaps P items ↔ ∀ i ∈ items, AllMaps P i.2 := by
  induction items with
  | nil => simp [ItemsAllMaps]
  | cons i rest ih => rw [ItemsAllMaps, ih, forall_mem_cons]

theorem entriesAllMaps_iff : EntriesAllMaps P es ↔ ∀ e ∈ es, AllMaps P e.2.2 := by
  induction es with
  | nil => simp [EntriesAllMaps]
  | cons e rest ih => rw [EntriesAllMaps, ih, forall_mem_cons]

theorem Reordered.refl (n : Node) : Reordered n n := by
  induction n using induction with
  | leaf n hseq hmap =>
    cases n with
    | seq => cases hseq
    | map => cases hmap
    | _ => rfl
  | seq form items ih => exact ⟨items, rfl, itemsReordered_iff.mpr (forall₂_same.mpr fun i hi => ⟨rfl, ih i hi⟩)⟩
  | map form es ih =>
    exact ⟨es, es, rfl, entriesReordered_iff.mpr (forall₂_same.mpr fun e he => ⟨rfl, rfl, ih e he⟩), .refl es⟩

theorem EntriesReordered.refl (es : Entries) : EntriesReordered es es :=
  entriesReordered_iff.mpr (forall₂_same.mpr fun e _ => ⟨rfl, rfl, .refl e.2.2⟩)

theorem AllMaps.imp (h : ∀ es, P es → Q es) : AllMaps P n → AllMaps Q n := by
  induction n using induction with
  | leaf n hseq hmap =>
    cases n with
    | seq => cases hseq
    | map => cases hmap
    | _ => exact id
  | seq form items ih => exact fun hn => itemsAllMaps_iff.mpr fun i hi => ih i hi (itemsAllMaps_iff.mp hn i hi)
  | map form es ih => exact fun hn => ⟨h es hn.1, entriesAllMaps_iff.mpr fun e he =>
    ih e he (entriesAllMaps_iff.mp hn.2 e he)⟩

theorem field?_eq_some (h : es.field? name = some n) : ∃ e ∈ es, e.1.isName name = true ∧ e.2.2 = n := by
  obtain ⟨e, he, rfl⟩ := Option.map_eq_some_iff.mp h
  have hname := find?_some he
  exact ⟨e, mem_of_find?_eq_some he, hname, rfl⟩

theorem AllMaps.field? {value} (h : AllMaps P n) (hvalue : n.field? name = some value) :
    AllMaps P value := by
  cases n with
  | map form es =>
    obtain ⟨e, he, _, rfl⟩ := field?_eq_some hvalue
    exact entriesAllMaps_iff.mp h.2 e he
  | _ => cases hvalue

theorem AllMaps.part (h : AllMaps P (.map form es)) (name : String) :
    AllMaps P ((es.field? name).getD .null) := by
  cases hfield : es.field? name with
  | none => trivial
  | some n => exact AllMaps.field? (n := .map form es) h hfield

/-! ## Entries in another order -/

theorem find?_eq_of_perm {α : Type} {p : α → Bool} {xs ys : List α} (h : xs.Perm ys)
    (hunique : xs.Pairwise fun a b => p a = true → p b = false) : xs.find? p = ys.find? p := by
  induction h with
  | nil => rfl
  | cons a _ ih =>
    rw [find?_cons, find?_cons, ih hunique.of_cons]
  | swap a b rest =>
    rw [find?_cons, find?_cons, find?_cons, find?_cons]
    have hab : p b = true → p a = false := by
      rw [pairwise_cons] at hunique
      exact hunique.1 a (by simp)
    cases hb : p b with
    | false => rfl
    | true => rw [hab hb]
  | trans hxy _ ih ih' =>
    refine (ih hunique).trans (ih' ?_)
    refine hxy.pairwise hunique ?_
    intro a b hab hb
    cases ha : p a with
    | false => rfl
    | true => rw [hab ha] at hb; cases hb

namespace TextKeys

variable {es : Entries}

theorem unique (h : TextKeys es) (k : Node) :
    es.Pairwise fun e e' => e.1.same k = true → e'.1.same k = false := by
  refine (pairwise_map.mp h.distinct).imp_of_mem ?_
  intro e e' he he' hne hk
  obtain ⟨s, styled, hs⟩ := isText_iff.mp (h.isText e he)
  obtain ⟨t, styled', ht⟩ := isText_iff.mp (h.isText e' he')
  have hst : s ≠ t := fun heq => hne (by rw [hs, ht, heq]; rfl)
  rw [same_of_isName (n := s) (by simp [hs, isName])] at hk
  rw [same_of_isName (n := t) (by simp [ht, isName])]
  obtain ⟨styled'', rfl⟩ := isName_iff.mp hk
  simpa [isName] using hst

end TextKeys

theorem keys_eq_of_reordered (h : EntriesReordered es es') : es.map (·.1) = es'.map (·.1) :=
  map_eq_of_forall₂ (entriesReordered_iff.mp h) fun _ _ he => he.key

theorem TextKeys.of_perm (h : TextKeys es) (hperm : (es.map (·.1)).Perm (es'.map (·.1))) : TextKeys es' := by
  refine ⟨fun e he => ?_, ?_⟩
  · obtain ⟨f, hf, hkey⟩ := mem_map.mp (hperm.mem_iff.mpr (mem_map_of_mem he))
    rw [← hkey]
    exact h.isText f hf
  · have htexts := (hperm.map text?).nodup_iff
    simp only [map_map] at htexts
    exact htexts.mp h.distinct

namespace Rearranged

variable {es es' : Entries}

variable (h : Rearranged es es')

include h

theorem keys_perm : (es.map (·.1)).Perm (es'.map (·.1)) := by
  obtain ⟨inside, hinside, hperm⟩ := h
  rw [keys_eq_of_reordered hinside]
  exact hperm.map _

theorem textKeys (hkeys : TextKeys es) : TextKeys es' :=
  hkeys.of_perm h.keys_perm

/-- The entries under a key are the same but for their values, which are reordered. -/
theorem under?_rel (hkeys : TextKeys es) (k : Node) :
    Option.Rel EntryReordered (Entries.under? es k) (Entries.under? es' k) := by
  obtain ⟨inside, hinside, hperm⟩ := h
  have hunique : TextKeys inside := hkeys.of_perm (by rw [keys_eq_of_reordered hinside])
  unfold Entries.under?
  rw [← find?_eq_of_perm hperm (hunique.unique k)]
  rw [entriesReordered_iff] at hinside
  clear hperm hunique hkeys
  induction hinside with
  | nil => exact .none
  | cons he _ ih =>
    rw [find?_cons, find?_cons, ← he.key]
    split
    · exact .some he
    · exact ih

theorem value?_rel (hkeys : TextKeys es) (k : Node) :
    Option.Rel Reordered (es.value? k) (es'.value? k) := by
  have hunder := h.under?_rel hkeys k
  unfold Entries.value?
  generalize Entries.under? es k = e, Entries.under? es' k = e' at hunder ⊢
  cases hunder with
  | none => exact .none
  | some he => exact .some he.value

theorem field?_rel (hkeys : TextKeys es) (name : String) :
    Option.Rel Reordered (es.field? name) (es'.field? name) := by
  rw [← value?_text es name false, ← value?_text es' name false]
  exact h.value?_rel hkeys (.str name)

theorem part (hkeys : TextKeys es) (name : String) :
    Reordered ((es.field? name).getD .null) ((es'.field? name).getD .null) := by
  have hfield := h.field?_rel hkeys name
  generalize es.field? name = v, es'.field? name = v' at hfield
  cases hfield with
  | none => rfl
  | some hv => exact hv

/-- Whether some entry has a property that does not depend on the order of its value. -/
theorem any_eq {p : Node × Option (Place × Place) × Node → Bool}
    (hp : ∀ e e', EntryReordered e e' → p e = p e') : es.any p = es'.any p := by
  obtain ⟨inside, hinside, hperm⟩ := h
  have hmap : ∀ es : Entries, es.any p = (es.map p).any id := fun es => by rw [any_map]; rfl
  rw [← hperm.any_eq, hmap es, hmap inside, map_eq_of_forall₂ (entriesReordered_iff.mp hinside) hp]

end Rearranged

theorem Reordered.field?_rel {n'} (h : Reordered n n') (hkeys : AllMaps TextKeys n) (name) :
    Option.Rel Reordered (n.field? name) (n'.field? name) := by
  cases n with
  | map form es =>
    obtain ⟨es', rfl, hes⟩ := h.map_left
    exact hes.field?_rel hkeys.1 name
  | seq form items =>
    obtain ⟨items', rfl, _⟩ := h.seq_left
    exact .none
  | _ =>
    cases h
    exact .none

/-! ## What stays at every depth -/

theorem itemsDepth_eq (items : Items) : itemsDepth items = (items.map (·.2.depth)).foldr max 0 := by
  induction items with
  | nil => rfl
  | cons i rest ih => rw [itemsDepth, ih]; rfl

theorem entriesDepth_eq (es : Entries) : entriesDepth es = (es.map (·.2.2.depth)).foldr max 0 := by
  induction es with
  | nil => rfl
  | cons e rest ih => rw [entriesDepth, ih]; rfl

section

variable {R : Node → Node → Prop}

theorem ItemsReordered.each {items items'} (h : ItemsReordered items items')
    (hR : ∀ i ∈ items, ∀ n, Reordered i.2 n → R i.2 n) : Forall₂ (fun i i' => R i.2 i'.2) items items' :=
  ((forall₂_and_left items items').mpr ⟨hR, itemsReordered_iff.mp h⟩).imp fun _ _ hi => hi.1 _ hi.2.2

theorem EntriesReordered.each (h : EntriesReordered es es') (hR : ∀ e ∈ es, ∀ n, Reordered e.2.2 n → R e.2.2 n) :
    Forall₂ (fun e e' => e.1 = e'.1 ∧ R e.2.2 e'.2.2) es es' :=
  ((forall₂_and_left es es').mpr ⟨hR, entriesReordered_iff.mp h⟩).imp fun _ _ he => ⟨he.2.key, he.1 _ he.2.value⟩

end

theorem depth_of_reordered {n'} (h : Reordered n n') : n.depth = n'.depth := by
  induction n using induction generalizing n' with
  | leaf n hseq hmap => rw [h.eq_of_leaf hseq hmap]
  | seq form items ih =>
    obtain ⟨items', rfl, hitems⟩ := h.seq_left
    have hdepths := map_eq_of_forall₂ (hitems.each (R := fun m n => m.depth = n.depth) fun i hi _ =>
      ih i hi) fun _ _ => id
    rw [depth, depth, itemsDepth_eq, itemsDepth_eq, hdepths]
  | map form es ih =>
    obtain ⟨inside, es', rfl, hinside, hperm⟩ := h
    have heach := hinside.each (R := fun m n => m.depth = n.depth) fun e he _ => ih e he
    rw [depth, depth, entriesDepth_eq, entriesDepth_eq, map_eq_of_forall₂ heach fun _ _ he => he.2]
    refine congrArg (1 + ·) ((hperm.map _).foldr_eq' ?_ 0)
    exact fun a _ b _ c => Nat.max_left_comm b a c

theorem allMaps_of_reordered (hP : ∀ {es es'}, Rearranged es es' → P es → P es') {n'}
    (h : Reordered n n') :
    AllMaps P n → AllMaps P n' := by
  induction n using induction generalizing n' with
  | leaf n hseq hmap => rw [h.eq_of_leaf hseq hmap]; exact id
  | seq form items ih =>
    obtain ⟨items', rfl, hitems⟩ := h.seq_left
    intro hall
    refine itemsAllMaps_iff.mpr fun i' hi' => ?_
    have heach := hitems.each (R := fun _ n => AllMaps P n) fun i hi _ hn => ih i hi hn (itemsAllMaps_iff.mp hall i hi)
    exact (exists_of_forall₂ heach.flip i' hi').elim fun _ h => h.2
  | map form es ih =>
    obtain ⟨inside, es', rfl, hinside, hperm⟩ := h
    intro hall
    refine ⟨hP ⟨inside, hinside, hperm⟩ hall.1, entriesAllMaps_iff.mpr fun e' he' => ?_⟩
    have heach := hinside.each (R := fun _ n => AllMaps P n) fun e he _ hn =>
      ih e he hn (entriesAllMaps_iff.mp hall.2 e he)
    exact (exists_of_forall₂ heach.flip e' (hperm.mem_iff.mpr he')).elim fun _ h => h.2.2

end CwlService.Node
