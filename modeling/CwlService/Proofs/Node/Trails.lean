import CwlService.Analysis.Walk
import CwlService.Proofs.Node.Listed

/-! # Trails through documents

A trail leads from a whole document to one of its parts. At a record it takes a field, at a plain
list an item, and at a collection, which can be written as a list or as a map, an entry by its
key. In a map an entry can be a plain value that stands for one field; a trail takes that field
all the same. So a trail does not tell how collections are written, and what is at its end stays
there when a list with distinct keys becomes a map. -/
namespace CwlService

open List

/-- A collection: the field of an item that is its key in a map, and the field that a plain value
stands for there. -/
structure Collection where
  subject : String
  predicate : Option String
deriving DecidableEq

namespace Collection

def mapKey (c : Collection) : MapKey := ⟨.str c.subject, c.predicate.elim .null .str⟩

/-- The fields that hold collections. -/
def inField : List (String × Collection) :=
  [("inputs", ⟨"id", some "type"⟩), ("outputs", ⟨"id", some "type"⟩),
    ("fields", ⟨"name", some "type"⟩), ("steps", ⟨"id", none⟩), ("in", ⟨"id", some "source"⟩),
    ("requirements", ⟨"class", none⟩), ("hints", ⟨"class", none⟩),
    ("packages", ⟨"package", some "specs"⟩), ("envDef", ⟨"envName", some "envValue"⟩)]

end Collection

/-- What a part of a document is. -/
inductive Part where
  /-- A record, a plain list or a value. -/
  | plain
  | collection (c : Collection)
  | entry (c : Collection)
deriving DecidableEq

/-- What a field holds. -/
def Part.ofField (k : Node) : Part :=
  (k.text?.bind fun name => Collection.inField.lookup name).elim .plain .collection

/-- The entries of a map, without the key that an entry of a collection has. -/
def Part.unnamed (part : Part) (es : Node.Entries) : Node.Entries :=
  match part with
  | .entry c => Node.Entries.eraseField es c.subject
  | _ => es

/-- One step of a trail. -/
inductive Turn where
  | field (key : Node)
  | entry (key : Node)
  | item (index : Nat)

namespace Turn

def key? : Turn → Option Node
  | .field k => some k
  | .entry k => some k
  | .item _ => none

/-- The keys on a trail; positions in plain lists do not count. -/
def keys (trail : List Turn) : List Node := trail.filterMap key?

end Turn

namespace Node

abbrev Entry := Node × Option (Place × Place) × Node

abbrev Item := Option Place × Node

/-- A trail leads through a document to a part of it, with the span that the part has there. -/
inductive Leads (root : Node) : List Turn → Part → Node → Option Span → Prop where
  | root : Leads root [] .plain root none
  | field {trail part form} {es : Entries} {span} {e : Entry}
      (h : Leads root trail part (.map form es) span) (hpart : ∀ c, part ≠ .collection c)
      (he : e ∈ es) :
      Leads root (trail ++ [.field e.1]) (.ofField e.1) e.2.2 ((map form es).valueSpan e.1).toOption
  /-- A plain value stands for one field. -/
  | standsFor {trail c p node span} (h : Leads root trail (.entry c) node span)
      (hnode : node.isMap = false) (hp : c.predicate = some p) :
      Leads root (trail ++ [.field (.str p)]) (.ofField (.str p)) node span
  | entry {trail c form} {es : Entries} {span} {e : Entry}
      (h : Leads root trail (.collection c) (.map form es) span) (he : e ∈ es) :
      Leads root (trail ++ [.entry e.1]) (.entry c) e.2.2 ((map form es).valueSpan e.1).toOption
  /-- Of two items with one key the later counts, under the key of the earlier. -/
  | listed {trail c form} {items : Items} {span} {index : Nat} {i : Item} {own k}
      (h : Leads root trail (.collection c) (.seq form items) span) (hi : items[index]? = some i)
      (hown : i.2.field? c.subject = some own)
      (hk : k = own ∨ k.same own = true ∧ ∃ j ∈ items, j.2.field? c.subject = some k) :
      Leads root (trail ++ [.entry k]) (.entry c) i.2 ((seq form items).itemSpan index).toOption
  | item {trail node span parts index p} (h : Leads root trail .plain node span)
      (hparts : Analysis.partsOf node = .ok parts) (hp : parts[index]? = some p) :
      Leads root (trail ++ [.item index]) .plain p.1 p.2.toOption

/-! ## Collections written in another way -/

/-- A part of a document is written in another way: lists with distinct keys, in it or itself, have
become maps. An item may lose its key in the map, and may become a plain value if it has only the
field that such a value stands for. Spans may be any. -/
inductive Rewritten : Part → Node → Node → Prop where
  | refl (part : Part) (n : Node) : Rewritten part n n
  | fields {part form form'} {es kept es' : Entries} (hpart : ∀ c, part ≠ .collection c)
      (hkept : kept = es ∨ kept = part.unnamed es) (hkeys : es'.map (·.1) = kept.map (·.1))
      (h : ∀ (i : Nat) (e e' : Entry), kept[i]? = some e → es'[i]? = some e' → Rewritten (.ofField e.1) e.2.2 e'.2.2) :
      Rewritten part (.map form es) (.map form' es')
  | items {form form'} {items items' : Items} (hlength : items'.length = items.length)
      (h : ∀ (n : Nat) (i i' : Item), items[n]? = some i → items'[n]? = some i' → Rewritten .plain i.2 i'.2) :
      Rewritten .plain (.seq form items) (.seq form' items')
  | map {c form form'} {es es' : Entries} (hkeys : es'.map (·.1) = es.map (·.1))
      (h : ∀ (i : Nat) (e e' : Entry), es[i]? = some e → es'[i]? = some e' → Rewritten (.entry c) e.2.2 e'.2.2) :
      Rewritten (.collection c) (.map form es) (.map form' es')
  | list {c form form'} {items items' : Items}
      (hkeys : items'.map (·.2.field? c.subject) = items.map (·.2.field? c.subject))
      (h : ∀ (n : Nat) (i i' : Item), items[n]? = some i → items'[n]? = some i' → Rewritten (.entry c) i.2 i'.2) :
      Rewritten (.collection c) (.seq form items) (.seq form' items')
  | listToMap {c form form'} {items : Items} {es : Entries} (hdistinct : Distinct (es.map (·.1)))
      (hkeys : es.map (fun e => some e.1) = items.map (·.2.field? c.subject))
      (h : ∀ (n : Nat) (i : Item) (e : Entry), items[n]? = some i → es[n]? = some e → Rewritten (.entry c) i.2 e.2.2) :
      Rewritten (.collection c) (.seq form items) (.map form' es)
  | standsFor {c p form es places v v'} (hp : c.predicate = some p)
      (hes : (Part.entry c).unnamed es = [(.str p, places, v)]) (hv : v'.isMap = false)
      (h : Rewritten (.ofField (.str p)) v v') : Rewritten (.entry c) (.map form es) v'
  | value {c p n n'} (hp : c.predicate = some p) (hn : n.isMap = false) (hn' : n'.isMap = false)
      (h : Rewritten (.ofField (.str p)) n n') :
      Rewritten (.entry c) n n'

/-- A trail leads through the key that an item of a collection has as a field. -/
def ThroughKey (root : Node) (trail : List Turn) : Prop := ∃ before k after c node span,
  trail = before ++ .field k :: after ∧ Leads root before (.entry c) node span ∧
    k.isName c.subject = true

theorem ThroughKey.append {root trail} (h : ThroughKey root trail) (more : List Turn) :
    ThroughKey root (trail ++ more) := by
  obtain ⟨before, k, after, c, node, span, rfl, hbefore, hk⟩ := h
  exact ⟨before, k, after ++ more, c, node, span, by simp, hbefore, hk⟩

theorem Part.mem_unnamed {part : Part} {es} {e : Entry} (he : e ∈ es) :
    e ∈ part.unnamed es ∨ ∃ c, part = .entry c ∧ e.1.isName c.subject = true := by
  cases part with
  | entry c =>
    cases hname : e.1.isName c.subject with
    | true => exact .inr ⟨c, rfl, hname⟩
    | false => exact .inl (mem_filter.mpr ⟨he, by rw [hname]; rfl⟩)
  | _ => exact .inl he

theorem Distinct.eq_of_same {names} (h : Distinct names) {a b} (ha : a ∈ names) (hb : b ∈ names)
    (hsame : a.same b = true) : a = b := by
  have hsymm : Std.Symm fun a b : Node => a.same b = false := ⟨fun a b h => (same_comm b a).trans h⟩
  by_contra hne
  rw [Pairwise.forall h ha hb hne] at hsame
  cases hsame

theorem getElem?_of_map_eq {α β γ : Type} {f : α → γ} {g : β → γ} {xs : List α} {ys : List β}
    (h : ys.map g = xs.map f) {i : Nat} {x} (hx : xs[i]? = some x) :
    ∃ y, ys[i]? = some y ∧ g y = f x := by
  have hi : (ys.map g)[i]? = some (f x) := by rw [h, getElem?_map, hx]; rfl
  rw [getElem?_map] at hi
  exact Option.map_eq_some_iff.mp hi

theorem getElem?_map_zipIdx {α β : Type} {f : α × Nat → β} {xs : List α} {i b} :
    (xs.zipIdx.map f)[i]? = some b ↔ ∃ x, xs[i]? = some x ∧ f (x, i) = b := by
  rw [getElem?_map, getElem?_zipIdx, Option.map_map, Option.map_eq_some_iff]
  simp

/-- What is at the end of a trail stays there in another writing, unless the trail leads through the
key of an item. -/
theorem Leads.rewritten {root root'} (hroot : Rewritten .plain root root') {trail part node span}
    (h : Leads root trail part node span) :
    ThroughKey root trail ∨
      ∃ node' span', Leads root' trail part node' span' ∧ Rewritten part node node' := by
  induction h with
  | root => exact .inr ⟨root', none, .root, hroot⟩
  | @field trail part form es span e h hpart he ih =>
    rcases ih with hthrough | ⟨node', span', h', hn⟩
    · exact .inl (hthrough.append _)
    have hkey : ∀ {c}, part = .entry c ∧ e.1.isName c.subject = true → ThroughKey root (trail ++ [.field e.1]) := by
      rintro c ⟨rfl, hname⟩
      exact ⟨trail, e.1, [], c, _, _, rfl, h, hname⟩
    cases hn with
    | refl => exact .inr ⟨_, _, h'.field hpart he, .refl _ _⟩
    | @fields _ _ _ _ kept _ _ hkept hkeys hvalues =>
      have hmem : e ∈ kept ∨ ∃ c, part = .entry c ∧ e.1.isName c.subject = true := by
        rcases hkept with rfl | rfl
        · exact .inl he
        · exact Part.mem_unnamed he
      rcases hmem with hmem | ⟨c, hc⟩
      · obtain ⟨i, hi⟩ := mem_iff_getElem?.mp hmem
        obtain ⟨e', hi', hk⟩ := getElem?_of_map_eq hkeys hi
        have hnext := h'.field hpart (mem_of_getElem? hi')
        rw [hk] at hnext
        exact .inr ⟨_, _, hnext, hvalues i e e' hi hi'⟩
      · exact .inl (hkey hc)
    | standsFor hp hes hv hrel =>
      rcases Part.mem_unnamed he with hmem | ⟨c, hc⟩
      · rw [hes, mem_singleton] at hmem
        rw [hmem]
        exact .inr ⟨_, _, h'.standsFor hv hp, hrel⟩
      · exact .inl (hkey hc)
    | value _ hmap => cases hmap
    | map => exact absurd rfl (hpart _)
  | @standsFor trail c p node span h hnode hp ih =>
    rcases ih with hthrough | ⟨node', span', h', hn⟩
    · exact .inl (hthrough.append _)
    cases hn with
    | refl => exact .inr ⟨_, _, h'.standsFor hnode hp, .refl _ _⟩
    | fields | standsFor => cases hnode
    | value hp' _ hnode' hrel =>
      cases hp.symm.trans hp'
      exact .inr ⟨_, _, h'.standsFor hnode' hp, hrel⟩
  | @entry trail c form es span e h he ih =>
    rcases ih with hthrough | ⟨node', span', h', hn⟩
    · exact .inl (hthrough.append _)
    cases hn with
    | refl => exact .inr ⟨_, _, h'.entry he, .refl _ _⟩
    | fields hpart => exact absurd rfl (hpart c)
    | map hkeys hvalues =>
      obtain ⟨i, hi⟩ := mem_iff_getElem?.mp he
      obtain ⟨e', hi', hk⟩ := getElem?_of_map_eq hkeys hi
      have hnext := h'.entry (mem_of_getElem? hi')
      rw [hk] at hnext
      exact .inr ⟨_, _, hnext, hvalues i e e' hi hi'⟩
  | @listed trail c form items span index i own k h hi hown hk ih =>
    rcases ih with hthrough | ⟨node', span', h', hn⟩
    · exact .inl (hthrough.append _)
    cases hn with
    | refl => exact .inr ⟨_, _, h'.listed hi hown hk, .refl _ _⟩
    | list hkeys hvalues =>
      obtain ⟨i', hi', hown'⟩ := getElem?_of_map_eq hkeys hi
      refine .inr ⟨_, _, h'.listed hi' (hown'.trans hown) (hk.imp_right (.imp_right ?_)), hvalues index i i' hi hi'⟩
      rintro ⟨j, hj, hkj⟩
      obtain ⟨n, hn⟩ := mem_iff_getElem?.mp hj
      obtain ⟨j', hj', hsame⟩ := getElem?_of_map_eq hkeys hn
      exact ⟨j', mem_of_getElem? hj', hsame.trans hkj⟩
    | listToMap hdistinct hkeys hvalues =>
      obtain ⟨e, he, hown'⟩ := getElem?_of_map_eq hkeys hi
      obtain rfl : e.1 = own := Option.some.inj (hown'.trans hown)
      -- the keys are distinct, so the key of the trail is that of the item
      have hsame : k = e.1 := by
        rcases hk with hk | ⟨hk, j, hj, hkj⟩
        · exact hk
        obtain ⟨n, hn⟩ := mem_iff_getElem?.mp hj
        obtain ⟨f, hf, hkf⟩ := getElem?_of_map_eq hkeys hn
        obtain rfl : f.1 = k := Option.some.inj (hkf.trans hkj)
        exact hdistinct.eq_of_same (mem_map_of_mem (mem_of_getElem? hf))
          (mem_map_of_mem (mem_of_getElem? he)) hk
      rw [hsame]
      exact .inr ⟨_, _, h'.entry (mem_of_getElem? he), hvalues index i e hi he⟩
  | @item trail node span parts index p h hparts hp ih =>
    rcases ih with hthrough | ⟨node', span', h', hn⟩
    · exact .inl (hthrough.append _)
    cases hn with
    | refl => exact .inr ⟨_, _, h'.item hparts hp, .refl _ _⟩
    | @fields _ _ form' _ kept es' _ hkept hkeys _ =>
      -- a map in the place of a list stands for its keys
      obtain rfl : kept = _ := hkept.elim id id
      cases hparts
      obtain ⟨e, he, rfl⟩ := getElem?_map_zipIdx.mp hp
      obtain ⟨e', he', hk⟩ := getElem?_of_map_eq hkeys he
      have hnext := h'.item rfl (getElem?_map_zipIdx.mpr ⟨e', he', rfl⟩)
      rw [hk] at hnext
      exact .inr ⟨_, _, hnext, .refl _ _⟩
    | @items form form' items items' hlength hvalues =>
      cases hparts
      obtain ⟨i, hi, rfl⟩ := getElem?_map_zipIdx.mp hp
      have hsome : items'[index]?.isSome := by
        rw [isSome_getElem?, hlength]
        exact (List.getElem?_eq_some_iff.mp hi).1
      obtain ⟨i', hi'⟩ := Option.isSome_iff_exists.mp hsome
      exact .inr ⟨_, _, h'.item rfl (getElem?_map_zipIdx.mpr ⟨i', hi', rfl⟩), hvalues index i i' hi hi'⟩

end Node
end CwlService
